import ConsensusClient.Containers.History
import ConsensusClient.ForkChoice.Head
import ConsensusClient.ForkChoice.Run

/-!
# The Tree of Stored Blocks

The blocks of a store that was created from genesis form a tree, and the state stored for a
block is the one that the chain of blocks up to it computes. `Accepted` says this without a
store: a block is accepted if its parent is and the state of the parent accepts it. A root
determines its block and a block its state (`Accepted.state_unique`), so a stored state never
changes, also when the block is processed a second time.

## Main results

* `Accepted.state_unique`: a block has one state, whatever was offered
* `Accepted.exists_chain`: the chain of blocks that leads to an accepted one
* `Store.Tree.insertBlock`: an accepted block extends the tree
* `Store.Tree.wellFormed`: slots grow along the tree
* `Store.Tree.checkpoint_lookup`: the checkpoints of a stored state are stored blocks
-/

namespace ConsensusClient

/-! ## Keys of the block map -/

/-- Every stored block is stored under its root. -/
def Store.Keyed (E : Env) (store : Store) : Prop :=
  ∀ root block, store.blocks.lookup root = some block → block.hashTreeRoot E = root

section Keyed

variable {E : Env} {store store' : Store}

theorem Store.Keyed.insert (hkeyed : store.Keyed E) {block : Block}
    (hblocks : store'.blocks = store.blocks.insert (block.hashTreeRoot E) block) :
    store'.Keyed E := by
  intro root b h
  rw [hblocks, AList.lookup_insert_eq] at h
  split_ifs at h with hroot
  · obtain rfl := Option.some.inj h
    exact hroot.symm
  · exact hkeyed root b h

theorem Store.Keyed.insertBlock (hkeyed : store.Keyed E) (block : Block) (post : State) :
    (store.insertBlock (block.hashTreeRoot E) block post).Keyed E :=
  hkeyed.insert rfl

/-- An insertion does not change a stored block, since a root determines its block. -/
theorem Store.Keyed.blocks_insert (hE : E.HashIdeal) (hkeyed : store.Keyed E) {root : H256}
    {block : Block} (h : store.blocks.lookup root = some block) (b : Block) :
    (store.blocks.insert (b.hashTreeRoot E) b).lookup root = some block := by
  rw [AList.lookup_insert_eq]
  split_ifs with hroot
  · rw [Block.hashTreeRoot_injective hE ((hkeyed root block h).trans hroot)]
  · exact h

theorem Store.Keyed.of_blocks_eq (hkeyed : store.Keyed E) (h : store'.blocks = store.blocks) :
    store'.Keyed E := by
  unfold Store.Keyed
  rw [h]
  exact hkeyed

theorem Store.Keyed.getProposalHead (hkeyed : store.Keyed E) {slot : ℕ}
    (h : store.getProposalHead slot = .ok store') : store'.Keyed E :=
  hkeyed.of_blocks_eq (Store.getProposalHead_sameTree h).blocks

theorem Store.Keyed.run (hkeyed : store.Keyed E) {ops : List StoreOp}
    (h : store.run E ops = .ok store') : store'.Keyed E :=
  Store.run_grows (fun _ _ hblocks _ hs => hs.of_blocks_eq hblocks)
    (fun _ sb _ post _ _ hs => hs.insertBlock sb.block post) hkeyed h

theorem ReachedFromAnchor.keyed {init : Store} {ops : List StoreOp}
    (h : ReachedFromAnchor E init ops store) : store.Keyed E := by
  obtain ⟨state, block, config, rfl⟩ := h.anchor
  refine Store.Keyed.run ?_ h.run
  intro root b hb
  rw [show (getForkchoiceStore E state block config).blocks =
    AList.singleton (block.block.hashTreeRoot E) block.block from rfl,
    AList.lookup_singleton_eq] at hb
  split_ifs at hb with hroot
  obtain rfl := Option.some.inj hb
  exact hroot.symm

/-- No block is stored under the zero root. -/
theorem Store.Keyed.zero_not_mem (hE : E.HashIdeal) (hkeyed : store.Keyed E) :
    0 ∉ store.blocks := by
  intro h
  obtain ⟨block, hblock⟩ := AList.mem_iff_exists_lookup.mp h
  exact Block.hashTreeRoot_ne_zero hE block (hkeyed 0 block hblock)

end Keyed

/-! ## Accepted blocks -/

/-- The root of the genesis block. -/
def genesisRoot (E : Env) (g : State) : H256 := (genesisBlock E g).hashTreeRoot E

/-- The transition reads the block only, not the signatures it was sent with. -/
theorem State.stateTransition_congr {E : Env} {sb sb' : SignedBlockWithAttestation}
    (h : sb.block = sb'.block) (s : State) (valid : Bool) :
    s.stateTransition E sb valid = s.stateTransition E sb' valid := by
  unfold State.stateTransition
  rw [h]

/-- The genesis block with its state, and the offered blocks that the state of an accepted
    parent accepts. -/
inductive Accepted (E : Env) (g : State) (offered : SignedBlockWithAttestation → Prop) :
    Block → State → Prop
  | anchor : Accepted E g offered (genesisBlock E g) g
  | child {block : Block} {parent post : State} (sb : SignedBlockWithAttestation)
      (hsb : offered sb) (hparent : Accepted E g offered block parent)
      (hroot : sb.block.parentRoot = block.hashTreeRoot E)
      (htrans : parent.stateTransition E sb true = .ok post) :
      Accepted E g offered sb.block post

namespace Accepted

variable {E : Env} {g : State} {offered offered' : SignedBlockWithAttestation → Prop}
  {block : Block} {state : State}

theorem mono (hsub : ∀ sb, offered sb → offered' sb) (h : Accepted E g offered block state) :
    Accepted E g offered' block state := by
  induction h with
  | anchor => exact Accepted.anchor
  | child sb hsb _ hroot htrans ih => exact Accepted.child sb (hsub sb hsb) ih hroot htrans

/-- No child of an accepted block is the genesis block, whose parent root is zero. -/
theorem child_ne_genesis (hE : E.HashIdeal) {b : Block}
    (hroot : b.parentRoot = block.hashTreeRoot E) : b ≠ genesisBlock E g := by
  rintro rfl
  exact Block.hashTreeRoot_ne_zero hE block hroot.symm

/-- A block has one state, whatever was offered. -/
theorem state_unique (hE : E.HashIdeal) (h : Accepted E g offered block state) {state' : State}
    (h' : Accepted E g offered' block state') : state = state' := by
  generalize hblock : block = block' at h'
  induction h generalizing block' state' with
  | anchor =>
    cases h' with
    | anchor => rfl
    | child sb _ _ hroot _ => exact absurd hblock.symm (child_ne_genesis hE hroot)
  | child sb _ _ hroot htrans ih =>
    cases h' with
    | anchor => exact absurd hblock (child_ne_genesis hE hroot)
    | child sb' _ hparent' hroot' htrans' =>
      -- the same parent root, hence the same parent
      rw [hblock, hroot'] at hroot
      have hstate := ih _ (Block.hashTreeRoot_injective hE hroot.symm) hparent'
      rw [hstate, State.stateTransition_congr hblock] at htrans
      exact Except.ok.inj (htrans.symm.trans htrans')

/-- The chain of offered blocks that leads to an accepted one. -/
theorem exists_chain (h : Accepted E g offered block state) :
    ∃ blocks, g.runChain E blocks = .ok state ∧ (∀ sb ∈ blocks, offered sb) ∧
      (block ≠ genesisBlock E g → blocks ≠ []) := by
  induction h with
  | anchor => exact ⟨[], rfl, by simp, fun hne => absurd rfl hne⟩
  | child sb hsb _ _ htrans ih =>
    obtain ⟨blocks, hrun, hoff, -⟩ := ih
    refine ⟨blocks ++ [sb], ?_, ?_, by simp⟩
    · rw [State.runChain_append, hrun, ok_bind, State.runChain, List.foldlM_cons, htrans]
      rfl
    · intro b hb
      rcases List.mem_append.mp hb with hb | hb
      · exact hoff b hb
      · rw [List.mem_singleton.mp hb]
        exact hsb

section Genesis

variable {time : ℕ} {validators : List Validator}
  (hg : generateGenesisWithValidators E time validators = .ok g)

include hg in
/-- The state of an accepted block has the header of the block, not yet sealed. -/
theorem header_eq (hE : E.HashIdeal) (h : Accepted E g offered block state) :
    state.latestBlockHeader = { block.header E with stateRoot := 0 } ∧
      state.slot = block.slot := by
  induction h with
  | anchor =>
    obtain ⟨-, rfl⟩ := generateGenesisWithValidators_eq_ok hg
    exact ⟨rfl, rfl⟩
  | child sb _ _ _ htrans ih =>
    obtain ⟨l, l', step⟩ := State.stateTransition_step hE (by rw [ih.1]) htrans
    rw [step.result]
    exact ⟨rfl, rfl⟩

include hg in
/-- The header of the state, once sealed, has the root of the block. -/
theorem blockRoot_eq (hE : E.HashIdeal) (h : Accepted E g offered block state) :
    state.blockRoot E = block.hashTreeRoot E := by
  cases h with
  | anchor =>
    rw [State.blockRoot, genesis_sealedHeader hg]
    rfl
  | child sb _ hparent _ htrans =>
    obtain ⟨hheader, -⟩ := hparent.header_eq hg hE
    obtain ⟨l, l', step⟩ := State.stateTransition_step hE (by rw [hheader]) htrans
    exact step.blockRoot_eq

include hg in
/-- A block is accepted on a parent at an earlier slot only. -/
theorem slot_lt (hE : E.HashIdeal) {sb : SignedBlockWithAttestation} {post : State}
    (h : Accepted E g offered block state)
    (htrans : state.stateTransition E sb true = .ok post) : block.slot < sb.block.slot := by
  obtain ⟨hheader, hslot⟩ := h.header_eq hg hE
  obtain ⟨l, l', step⟩ := State.stateTransition_step hE (by rw [hheader]) htrans
  rw [← hslot]
  exact step.slot_lt

include hg in
/-- The checkpoints of an accepted block are the genesis block or offered blocks. -/
theorem checkpoint_offered (hE : E.HashIdeal) (h : Accepted E g offered block state)
    (hne : block ≠ genesisBlock E g) {c : Checkpoint}
    (hc : c = state.latestJustified ∨ c = state.latestFinalized) :
    ∃ b, b.slot = c.slot ∧ b.hashTreeRoot E = c.root ∧
      (b = genesisBlock E g ∨ ∃ sb, offered sb ∧ sb.block = b) := by
  obtain ⟨blocks, hrun, hoff, hblocks⟩ := h.exists_chain
  have hreach := ReachedFromGenesis.of_runChain hg (hblocks hne) hrun
  obtain ⟨b, hb, hslot, hroot⟩ := hreach.checkpoints_mem hE (hblocks hne) hc
  refine ⟨b, hslot, hroot, ?_⟩
  rcases List.mem_cons.mp hb with hb | hb
  · exact Or.inl hb
  · obtain ⟨sb, hsb, rfl⟩ := List.mem_map.mp hb
    exact Or.inr ⟨sb, hoff sb hsb, rfl⟩

end Genesis

end Accepted

/-! ## The invariant of the tree -/

/-- The signed block `sb` is one of `offered`, and its block is stored. -/
def Store.Holds (E : Env) (offered : SignedBlockWithAttestation → Prop) (store : Store)
    (sb : SignedBlockWithAttestation) : Prop :=
  offered sb ∧ sb.block.hashTreeRoot E ∈ store.blocks

/-- The stored blocks are the genesis block and offered blocks, each accepted by the stored state
    of its parent and stored with its own state. -/
structure Store.Tree (E : Env) (g : State) (offered : SignedBlockWithAttestation → Prop)
    (store : Store) : Prop where
  anchor_block : store.blocks.lookup (genesisRoot E g) = some (genesisBlock E g)
  anchor_state : store.states.lookup (genesisRoot E g) = some g
  keyed : store.Keyed E
  accepted : ∀ root block, store.blocks.lookup root = some block →
    ∃ state, store.states.lookup root = some state ∧
      Accepted E g (store.Holds E offered) block state
  block_of_state : ∀ root, root ∈ store.states → root ∈ store.blocks

namespace Store.Tree

variable {E : Env} {g : State} {offered : SignedBlockWithAttestation → Prop}
  {store store' : Store} {root : H256} {block : Block} {state parent post : State}
  {sb : SignedBlockWithAttestation}

theorem frame (tree : store.Tree E g offered) (hblocks : store'.blocks = store.blocks)
    (hstates : store'.states = store.states) : store'.Tree E g offered := by
  have hholds : store'.Holds E offered = store.Holds E offered := by
    unfold Store.Holds
    rw [hblocks]
  exact {
    anchor_block := by rw [hblocks]; exact tree.anchor_block
    anchor_state := by rw [hstates]; exact tree.anchor_state
    keyed := tree.keyed.of_blocks_eq hblocks
    accepted := by rw [hblocks, hstates, hholds]; exact tree.accepted
    block_of_state := by rw [hblocks, hstates]; exact tree.block_of_state }

/-- The tree of a store that has just been created from genesis. -/
theorem genesis {anchor : SignedBlockWithAttestation} (hanchor : anchor.block = genesisBlock E g)
    (config : Config) : (getForkchoiceStore E g anchor config).Tree E g offered where
  anchor_block := by
    simp [getForkchoiceStore, hanchor, genesisRoot, AList.lookup_singleton_eq]
  anchor_state := by
    simp [getForkchoiceStore, hanchor, genesisRoot, AList.lookup_singleton_eq]
  keyed := by
    intro root block h
    simp only [getForkchoiceStore, AList.lookup_singleton_eq] at h
    split_ifs at h with hroot
    obtain rfl := Option.some.inj h
    exact hroot.symm
  accepted := by
    intro root block h
    simp only [getForkchoiceStore, AList.lookup_singleton_eq, hanchor] at h ⊢
    split_ifs at h ⊢ with hroot
    obtain rfl := Option.some.inj h
    exact ⟨g, rfl, Accepted.anchor⟩
  block_of_state := by
    intro root h
    rw [AList.mem_iff_exists_lookup] at h ⊢
    simp only [getForkchoiceStore, AList.lookup_singleton_eq] at h ⊢
    split_ifs at h ⊢ with hroot
    · exact ⟨_, rfl⟩
    · exact absurd h (by simp)

/-- A stored state belongs to the stored block. -/
theorem accepted_of_state (tree : store.Tree E g offered)
    (h : store.states.lookup root = some state) :
    ∃ block, store.blocks.lookup root = some block ∧ block.hashTreeRoot E = root ∧
      Accepted E g (store.Holds E offered) block state := by
  obtain ⟨block, hblock⟩ := AList.mem_iff_exists_lookup.mp
    (tree.block_of_state root (AList.mem_iff_exists_lookup.mpr ⟨state, h⟩))
  obtain ⟨state', hstate', hacc⟩ := tree.accepted root block hblock
  obtain rfl := Option.some.inj (h.symm.trans hstate')
  exact ⟨block, hblock, tree.keyed root block hblock, hacc⟩

theorem mem_iff (tree : store.Tree E g offered) : root ∈ store.blocks ↔ root ∈ store.states := by
  refine ⟨fun h => ?_, tree.block_of_state root⟩
  obtain ⟨block, hblock⟩ := AList.mem_iff_exists_lookup.mp h
  obtain ⟨state, hstate, -⟩ := tree.accepted root block hblock
  exact AList.mem_iff_exists_lookup.mpr ⟨state, hstate⟩

/-- A stored root has the block with that root. -/
theorem lookup_of_mem (hE : E.HashIdeal) (tree : store.Tree E g offered)
    (h : block.hashTreeRoot E ∈ store.blocks) :
    store.blocks.lookup (block.hashTreeRoot E) = some block := by
  obtain ⟨b, hb⟩ := AList.mem_iff_exists_lookup.mp h
  have hroot := Block.hashTreeRoot_injective hE (tree.keyed _ b hb)
  rw [hb, hroot]

/-- The blocks accepted on the way to a stored block are stored with their states. -/
theorem lookup_of_accepted (hE : E.HashIdeal) (tree : store.Tree E g offered)
    (h : Accepted E g (store.Holds E offered) block state) :
    store.blocks.lookup (block.hashTreeRoot E) = some block ∧
      store.states.lookup (block.hashTreeRoot E) = some state := by
  have hblock : store.blocks.lookup (block.hashTreeRoot E) = some block := by
    cases h with
    | anchor => exact tree.anchor_block
    | child sb hsb _ _ _ => exact tree.lookup_of_mem hE hsb.2
  obtain ⟨state', hstate', hacc⟩ := tree.accepted _ block hblock
  rw [h.state_unique hE hacc]
  exact ⟨hblock, hstate'⟩

/-- An offered block that its stored parent accepts. -/
theorem accepted_child (tree : store.Tree E g offered) (hsb : offered sb)
    (hparent : store.states.lookup sb.block.parentRoot = some parent)
    (htrans : parent.stateTransition E sb true = .ok post) :
    Accepted E g (Store.Holds E offered (store.insertBlock (sb.block.hashTreeRoot E) sb.block post))
      sb.block post := by
  obtain ⟨block, -, hroot, hacc⟩ := tree.accepted_of_state hparent
  have hgrow : ∀ b, store.Holds E offered b → Store.Holds E offered
      (store.insertBlock (sb.block.hashTreeRoot E) sb.block post) b := by
    intro b hb
    refine ⟨hb.1, ?_⟩
    show _ ∈ store.blocks.insert _ _
    rw [AList.mem_insert]
    exact Or.inr hb.2
  refine Accepted.child sb ⟨hsb, ?_⟩ (hacc.mono hgrow) hroot.symm htrans
  show _ ∈ store.blocks.insert _ _
  rw [AList.mem_insert]
  exact Or.inl rfl

/-- Storing an accepted block again changes no stored state. -/
theorem states_insert (hE : E.HashIdeal) (tree : store.Tree E g offered) (hsb : offered sb)
    (hparent : store.states.lookup sb.block.parentRoot = some parent)
    (htrans : parent.stateTransition E sb true = .ok post)
    (h : store.states.lookup root = some state) :
    (store.states.insert (sb.block.hashTreeRoot E) post).lookup root = some state := by
  rw [AList.lookup_insert_eq]
  split_ifs with hroot
  · -- the block was stored before, with the same state
    obtain ⟨block, -, hkey, hacc⟩ := tree.accepted_of_state h
    obtain rfl := Block.hashTreeRoot_injective hE (hkey.trans hroot)
    rw [hacc.state_unique hE (tree.accepted_child hsb hparent htrans)]
  · exact h

/-- An offered block that its stored parent accepts extends the tree. -/
theorem insertBlock (hE : E.HashIdeal) (tree : store.Tree E g offered) (hsb : offered sb)
    (hparent : store.states.lookup sb.block.parentRoot = some parent)
    (htrans : parent.stateTransition E sb true = .ok post) :
    (store.insertBlock (sb.block.hashTreeRoot E) sb.block post).Tree E g offered where
  anchor_block := tree.keyed.blocks_insert hE tree.anchor_block sb.block
  anchor_state := tree.states_insert hE hsb hparent htrans tree.anchor_state
  keyed := tree.keyed.insertBlock sb.block post
  accepted := by
    intro root block h
    have hnew := tree.accepted_child hsb hparent htrans
    have hlookup : (store.blocks.insert (sb.block.hashTreeRoot E) sb.block).lookup root =
      some block := h
    rw [AList.lookup_insert_eq] at hlookup
    split_ifs at hlookup with hroot
    · obtain rfl := Option.some.inj hlookup
      refine ⟨post, ?_, hnew⟩
      show (store.states.insert (sb.block.hashTreeRoot E) post).lookup root = some post
      rw [AList.lookup_insert_eq, if_pos hroot]
    · -- an older block keeps its state, and its ancestors stay stored
      obtain ⟨state, hstate, hacc⟩ := tree.accepted root block hlookup
      refine ⟨state, tree.states_insert hE hsb hparent htrans hstate, hacc.mono fun b hb => ?_⟩
      refine ⟨hb.1, ?_⟩
      show _ ∈ store.blocks.insert _ _
      rw [AList.mem_insert]
      exact Or.inr hb.2
  block_of_state := by
    intro root h
    have hmem : root ∈ store.states.insert (sb.block.hashTreeRoot E) post := h
    show root ∈ store.blocks.insert (sb.block.hashTreeRoot E) sb.block
    rw [AList.mem_insert] at hmem ⊢
    exact hmem.imp_right (tree.block_of_state root)

/-! ### What the tree is like -/

/-- A stored block other than the genesis block was accepted by its stored parent. -/
theorem exists_parent (hE : E.HashIdeal) (tree : store.Tree E g offered)
    (h : store.blocks.lookup root = some block) (hne : root ≠ genesisRoot E g) :
    ∃ pblock pstate sb state, store.blocks.lookup block.parentRoot = some pblock ∧
      store.states.lookup block.parentRoot = some pstate ∧ sb.block = block ∧ offered sb ∧
      store.states.lookup root = some state ∧ pstate.stateTransition E sb true = .ok state ∧
      Accepted E g (store.Holds E offered) pblock pstate := by
  obtain ⟨state, hstate, hacc⟩ := tree.accepted root block h
  have hkey := tree.keyed root block h
  cases hacc with
  | anchor => exact absurd hkey.symm hne
  | child sb hsb hparent hroot htrans =>
    obtain ⟨hpblock, hpstate⟩ := tree.lookup_of_accepted hE hparent
    rw [← hroot] at hpblock hpstate
    exact ⟨_, _, sb, state, hpblock, hpstate, rfl, hsb.1, hstate, htrans, hparent⟩

section Genesis

variable {time : ℕ} {validators : List Validator}
  (hg : generateGenesisWithValidators E time validators = .ok g)

include hg in
/-- A parent is stored, and lies at an earlier slot. -/
theorem parent_lt (hE : E.HashIdeal) (tree : store.Tree E g offered)
    (h : store.blocks.lookup root = some block) (hne : root ≠ genesisRoot E g) :
    ∃ pblock, store.blocks.lookup block.parentRoot = some pblock ∧ pblock.slot < block.slot := by
  obtain ⟨pblock, pstate, sb, state, hpblock, -, rfl, -, -, htrans, hacc⟩ :=
    tree.exists_parent hE h hne
  exact ⟨pblock, hpblock, hacc.slot_lt hg hE htrans⟩

include hg in
/-- The tree is one along which slots grow. -/
theorem wellFormed (hE : E.HashIdeal) (tree : store.Tree E g offered) :
    store.WellFormed (genesisRoot E g) := by
  have hzero : 0 ∉ store.blocks := tree.keyed.zero_not_mem hE
  exact {
    anchor_mem := AList.mem_iff_exists_lookup.mpr ⟨_, tree.anchor_block⟩
    anchor_parent := by
      intro block hblock
      obtain rfl := Option.some.inj (tree.anchor_block.symm.trans hblock)
      exact hzero
    parent_ne_zero := by
      intro root block hblock hne heq
      obtain ⟨pblock, hpblock, -⟩ := tree.parent_lt hg hE hblock hne
      rw [heq] at hpblock
      exact hzero (AList.mem_iff_exists_lookup.mpr ⟨pblock, hpblock⟩)
    parent_mem := fun root block hblock hne => tree.parent_lt hg hE hblock hne }

include hg in
/-- The checkpoints of a stored state after genesis are stored blocks at their slots. -/
theorem checkpoint_lookup (hE : E.HashIdeal) (tree : store.Tree E g offered)
    (h : store.states.lookup root = some state) (hne : root ≠ genesisRoot E g) {c : Checkpoint}
    (hc : c = state.latestJustified ∨ c = state.latestFinalized) :
    ∃ b, store.blocks.lookup c.root = some b ∧ b.slot = c.slot := by
  obtain ⟨block, -, hkey, hacc⟩ := tree.accepted_of_state h
  have hblock : block ≠ genesisBlock E g := by
    rintro rfl
    exact hne hkey.symm
  obtain ⟨b, hslot, hroot, hb⟩ := hacc.checkpoint_offered hg hE hblock hc
  refine ⟨b, ?_, hslot⟩
  rw [← hroot]
  rcases hb with rfl | ⟨sb, hsb, rfl⟩
  · exact tree.anchor_block
  · exact tree.lookup_of_mem hE hsb.2

end Genesis

end Store.Tree

end ConsensusClient
