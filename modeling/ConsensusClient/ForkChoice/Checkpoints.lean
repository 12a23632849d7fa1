import ConsensusClient.Containers.Backing
import ConsensusClient.ForkChoice.Waiting

/-!
# The Checkpoints of a Store

`latest_justified` and `latest_finalized` of a store are the genesis block, or checkpoints of one
of its states. Each of them was justified by the votes of two thirds of the validators, in bodies
of stored blocks, and lies on the chain of the state it comes from. The head always lies below the
justified checkpoint, since the head rule starts there.

## Main results

* `Store.Anchored`: the checkpoints of a store, and what backs them
* `Store.Sound.head_descends`: the head rule ends below the block that it starts from
* `reached_head_lies_below_justified`: the head, the justified and the finalized checkpoint of
  every reached store, and of every later one
-/

namespace ConsensusClient

/-! ## The genesis checkpoint -/

section Genesis

variable {E : Env} {g s : State} {blocks : List SignedBlockWithAttestation}

/-- The genesis block as a checkpoint. -/
def genesisCheckpoint (E : Env) (g : State) : Checkpoint := ⟨genesisRoot E g, 0⟩

/-- The genesis block is on every chain of at least one block. -/
theorem ReachedFromGenesis.genesis_onChain (hE : E.HashIdeal)
    (h : ReachedFromGenesis E g blocks s) (hne : blocks ≠ []) :
    s.OnChain (genesisCheckpoint E g) := by
  obtain ⟨time, validators, hn, hg⟩ := h.genesis
  have hrec := (RecordsChain.genesis hg).runChain hE (ChainInv.genesis hn hg) h.run
  exact hrec.entry (genesisBlock E g) (by simp) (Nat.pos_of_ne_zero (h.slot_ne_zero hE hne))

/-- The block of a chain at slot 0 is the genesis block. -/
theorem ReachedFromGenesis.eq_genesis (hE : E.HashIdeal) (h : ReachedFromGenesis E g blocks s)
    (hne : blocks ≠ []) {c : Checkpoint} (hc : s.OnChain c) (h0 : c.slot = 0) :
    c = genesisCheckpoint E g := by
  have hgenesis := h.genesis_onChain hE hne
  rw [State.OnChain] at hgenesis hc
  rw [h0] at hc
  exact Checkpoint.ext (Option.some.inj (hc.symm.trans hgenesis)) h0

end Genesis

/-! ## Ancestors in the store -/

section Ancestors

variable {E : Env} {g : State} {offered : SignedBlockWithAttestation → Prop}
  {store store' : Store} {block : Block} {state : State} {c c' : Checkpoint}

/-- Ancestors stay ancestors when blocks are added. -/
theorem Store.Descends.mono {a b : H256}
    (hblocks : ∀ root block, store.blocks.lookup root = some block →
      store'.blocks.lookup root = some block) (h : store.Descends a b) : store'.Descends a b := by
  refine Relation.ReflTransGen.mono (fun x y hxy => ?_) a b h
  obtain ⟨block, hblock, hparent⟩ := Store.parentOf_eq_some.mp hxy
  exact Store.parentOf_eq_some.mpr ⟨block, hblocks x block hblock, hparent⟩

/-- LMD-GHOST ends at a descendant of the block it starts from. -/
theorem Store.Ghost.descends {votes : HashMap ℕ AttestationData} {minVotes : ℕ} {r h : H256}
    (hr : store.Ghost votes minVotes r h) : store.Descends h r :=
  GreedyDescent.ancestor_start hr

variable {time : ℕ} {validators : List Validator}
  (hg : generateGenesisWithValidators E time validators = .ok g)

include hg in
/-- A state that accepts a block is one of a chain with at least one validator, and so is the
    post-state. -/
theorem Accepted.reached (h : Accepted E g offered block state) {sb : SignedBlockWithAttestation}
    {post : State} (htrans : state.stateTransition E sb true = .ok post) :
    ∃ blocks, ReachedFromGenesis E g blocks state ∧
      ReachedFromGenesis E g (blocks ++ [sb]) post := by
  obtain ⟨blocks, hrun, -⟩ := h.exists_chain
  have hlong : g.runChain E (blocks ++ [sb]) = .ok post := by
    rw [State.runChain_append, hrun, ok_bind, State.runChain, List.foldlM_cons, htrans]
    rfl
  have hreach := ReachedFromGenesis.of_runChain hg (by simp) hlong
  exact ⟨blocks, ⟨hreach.genesis, hrun⟩, hreach⟩

include hg in
/-- The blocks on the chain of a stored state are stored ancestors of its block. -/
theorem Store.Tree.descends_of_onChain (hE : E.HashIdeal) (tree : store.Tree E g offered)
    (hacc : Accepted E g (store.Holds E offered) block state) (hne : c.root ≠ 0)
    (hc : state.OnChain c) :
    store.Descends (block.hashTreeRoot E) c.root ∧ store.HasCheckpoint c := by
  induction hacc with
  | anchor =>
    rw [State.OnChain, (genesis_eq hg).1] at hc
    simp at hc
  | @child pblock parent post sb hsb hparent hroot htrans ih =>
    obtain ⟨blocks, hreach, -⟩ := hparent.reached hg htrans
    have hlen := (hreach.chainInv hE).history_length
    obtain ⟨hheader, -⟩ := hparent.header_eq hg hE
    obtain ⟨l, l', step⟩ := State.stateTransition_step hE (by rw [hheader]) htrans
    have hslot : parent.latestBlockHeader.slot = pblock.slot := by rw [hheader]; rfl
    -- the block is a child of its parent in the store as well
    have hup : store.Descends (sb.block.hashTreeRoot E) (pblock.hashTreeRoot E) := by
      refine Relation.ReflTransGen.single (Store.parentOf_eq_some.mpr ⟨sb.block, ?_, hroot⟩)
      exact tree.lookup_of_mem hE hsb.2
    have hhist : post.historicalBlockHashes =
        (parent.beforeVotes E sb.block).historicalBlockHashes := by rw [step.result]; rfl
    rw [State.OnChain, hhist, State.history_beforeVotes] at hc
    -- the entry is an old one, the parent, or the zero hash of an empty slot
    rcases Nat.lt_trichotomy c.slot parent.historicalBlockHashes.length with hlt | heq | hgt
    · rw [List.getElem?_append_left hlt] at hc
      obtain ⟨hdesc, hstored⟩ := ih hc
      exact ⟨hup.trans hdesc, hstored⟩
    · rw [heq, List.getElem?_append_right le_rfl, Nat.sub_self] at hc
      have hlatest : c.root = pblock.hashTreeRoot E := by
        rw [← hparent.blockRoot_eq hg hE]
        exact (Option.some.inj hc).symm
      rw [hlatest]
      refine ⟨hup, pblock, ?_, by omega⟩
      rw [hlatest]
      exact (tree.lookup_of_accepted hE hparent).1
    · rw [List.getElem?_append_right hgt.le, List.getElem?_cons, if_neg (by omega),
        List.getElem?_replicate] at hc
      split_ifs at hc
      exact absurd (Option.some.inj hc).symm hne

include hg in
/-- The head rule ends at a descendant of the stored block it starts from. -/
theorem Store.Sound.head_descends (hE : E.HashIdeal) (sound : store.Sound E g offered)
    {root head : H256} (hroot : root ∈ store.blocks) {votes : HashMap ℕ AttestationData}
    {minVotes : ℕ} (h : store.getForkChoiceHead root votes minVotes = .ok head) :
    store.Descends head root := by
  have hne : root ≠ 0 := by
    rintro rfl
    exact sound.tree.keyed.zero_not_mem hE hroot
  obtain ⟨head', hhead, ghost⟩ :=
    (sound.tree.wellFormed hg hE).exists_head hne hroot votes minVotes
  obtain rfl := Except.ok.inj (h.symm.trans hhead)
  exact ghost.descends

/-- The tree only grows when an accepted block is stored. -/
theorem Store.Tree.extends_insertBlock (hE : E.HashIdeal) (tree : store.Tree E g offered)
    {sb : SignedBlockWithAttestation} {parent post : State} (hsb : offered sb)
    (hparent : store.states.lookup sb.block.parentRoot = some parent)
    (htrans : parent.stateTransition E sb true = .ok post) :
    (store.insertBlock (sb.block.hashTreeRoot E) sb.block post).Extends store where
  blocks_mem := fun _ hroot => AList.mem_insert _ |>.mpr (Or.inr hroot)
  states_lookup := fun _ _ hstate => tree.states_insert hE hsb hparent htrans hstate

end Ancestors

/-! ## Votes in the stored blocks -/

/-- The votes in the bodies of the stored blocks. -/
def Store.includedVotes (store : Store) : List (ℕ × AttestationData) :=
  store.blocks.entries.flatMap fun e => bodyVotes e.2

/-- The validators, out of `n`, with a vote for `target` in a stored block. -/
def Store.targetVoters (store : Store) (n : ℕ) (target : Checkpoint) : Finset ℕ :=
  (Finset.range n).filter fun v => ∃ x ∈ store.includedVotes, x.1 = v ∧ x.2.target = target

theorem Store.mem_includedVotes {store : Store} {v : ℕ} {d : AttestationData} :
    (v, d) ∈ store.includedVotes ↔ ∃ root block, store.blocks.lookup root = some block ∧
      ∃ a ∈ block.body.attestations, v ∈ AggregationBits.setIndices a.aggregationBits ∧
        a.data = d := by
  simp only [Store.includedVotes, bodyVotes, List.mem_flatMap, List.mem_map, Prod.mk.injEq]
  constructor
  · rintro ⟨e, he, a, ha, v', hv, rfl, rfl⟩
    exact ⟨e.1, e.2, AList.mem_lookup_iff.mpr he, a, ha, hv, rfl⟩
  · rintro ⟨root, block, hblock, a, ha, hv, rfl⟩
    exact ⟨⟨root, block⟩, AList.mem_lookup_iff.mp hblock, a, ha, v, hv, rfl, rfl⟩

/-- The votes of a chain of stored blocks are in the store. -/
theorem Store.Tree.targetVoters_subset {E : Env} {g : State}
    {offered : SignedBlockWithAttestation → Prop} {store : Store} (hE : E.HashIdeal)
    (tree : store.Tree E g offered) {blocks : List SignedBlockWithAttestation}
    (hblocks : ∀ sb ∈ blocks, store.Holds E offered sb) (n : ℕ) (c : Checkpoint) :
    ConsensusClient.targetVoters n blocks c ⊆ store.targetVoters n c := by
  intro v hv
  obtain ⟨hlt, d, hd, htarget⟩ := Finset.mem_filter.mp hv
  obtain ⟨sb, hsb, a, ha, hmem, hdata⟩ := ConsensusClient.mem_includedVotes.mp hd
  refine Finset.mem_filter.mpr ⟨hlt, (v, d), ?_, rfl, htarget⟩
  exact Store.mem_includedVotes.mpr
    ⟨_, sb.block, tree.lookup_of_mem hE (hblocks sb hsb).2, a, ha, hmem, hdata⟩

/-! ## Where the checkpoints of a store come from -/

/-- The checkpoint is the genesis block, or the one that some stored state after genesis has in
    the given field. -/
def Store.TakenFrom (E : Env) (g : State) (field : State → Checkpoint) (store : Store)
    (c : Checkpoint) : Prop :=
  c = genesisCheckpoint E g ∨ ∃ root state, root ≠ genesisRoot E g ∧
    store.states.lookup root = some state ∧ field state = c

/-- The checkpoints of the store come from its states, and the head lies below them. -/
structure Store.Anchored (E : Env) (g : State) (store : Store) : Prop where
  sound : store.Sound E g fun _ => True
  justified : store.TakenFrom E g State.latestJustified store.latestJustified
  finalized : store.TakenFrom E g State.latestFinalized store.latestFinalized
  finalized_le : store.latestFinalized.slot ≤ store.latestJustified.slot
  head_descends : store.Descends store.head store.latestJustified.root

theorem Store.TakenFrom.mono {E : Env} {g : State} {field : State → Checkpoint}
    {store store' : Store} {c : Checkpoint} (hext : store'.Extends store)
    (h : store.TakenFrom E g field c) : store'.TakenFrom E g field c := by
  refine h.imp_right ?_
  rintro ⟨root, state, hne, hstate, rfl⟩
  exact ⟨root, state, hne, hext.states_lookup root state hstate, rfl⟩

namespace Store.Anchored

variable {E : Env} {g : State} {store store' : Store} {time : ℕ} {validators : List Validator}

/-- Only the tree, the checkpoints and the head matter. -/
theorem frame (h : store.Anchored E g) (hsame : SameTree store store')
    (hsound : store'.Sound E g fun _ => True)
    (hhead : store.Descends store'.head store.latestJustified.root) : store'.Anchored E g := by
  -- with the same blocks, descent is the same relation
  have hdesc : store'.parentOf = store.parentOf := by
    funext root
    rw [Store.parentOf, Store.parentOf, hsame.blocks]
  exact {
    sound := hsound
    justified := by
      rw [hsame.latestJustified, Store.TakenFrom, hsame.states]
      exact h.justified
    finalized := by
      rw [hsame.latestFinalized, Store.TakenFrom, hsame.states]
      exact h.finalized
    finalized_le := by
      rw [hsame.latestFinalized, hsame.latestJustified]
      exact h.finalized_le
    head_descends := by
      rw [hsame.latestJustified, Store.Descends, hdesc]
      exact hhead }

variable (hg : generateGenesisWithValidators E time validators = .ok g)

include hg in
theorem genesis {anchor : SignedBlockWithAttestation} (hanchor : anchor.block = genesisBlock E g)
    (config : Config) : (getForkchoiceStore E g anchor config).Anchored E g := by
  obtain ⟨hj, hf⟩ := genesis_checkpoints hg
  have hroot : anchor.block.hashTreeRoot E = genesisRoot E g := by rw [hanchor]; rfl
  have hslot : anchor.block.slot = 0 := by rw [hanchor]; rfl
  -- the zero checkpoints of the state are replaced by the anchor
  have hcheck : ∀ c : Checkpoint, c = ⟨0, 0⟩ →
      anchorCheckpoint (anchor.block.hashTreeRoot E) anchor.block.slot c =
        genesisCheckpoint E g := by
    rintro c rfl
    rw [hroot, hslot]
    rfl
  have hjust := hcheck _ hj
  have hfin := hcheck _ hf
  exact {
    sound := Store.Sound.genesis hg hanchor config
    justified := Or.inl hjust
    finalized := Or.inl hfin
    finalized_le := by
      show (anchorCheckpoint _ _ g.latestFinalized).slot ≤
        (anchorCheckpoint _ _ g.latestJustified).slot
      rw [hjust, hfin]
    head_descends := by
      show Store.Descends _ (anchor.block.hashTreeRoot E)
        (anchorCheckpoint _ _ g.latestJustified).root
      rw [hjust, hroot]
      exact Relation.ReflTransGen.refl }

/-! ## Operations of the store -/

include hg in
theorem acceptNewAttestations (hE : E.HashIdeal) (h : store.Anchored E g)
    (hcall : store.acceptNewAttestations = .ok store') : store'.Anchored E g := by
  have hsound := (h.sound.acceptNewAttestations hg hE).of_eq hcall
  obtain ⟨head, hhead, rfl⟩ := Store.acceptNewAttestations_eq_ok hcall
  have hmerged : store.mergeVotes.Sound E g fun _ => True :=
    h.sound.frame ⟨rfl, rfl, rfl, rfl, rfl, rfl⟩ h.sound.head_mem h.sound.safeTarget_mem
  exact h.frame ⟨rfl, rfl, rfl, rfl, rfl, rfl⟩ hsound
    (hmerged.head_descends hg hE h.sound.justified_mem hhead)

include hg in
theorem updateSafeTarget (hE : E.HashIdeal) (h : store.Anchored E g)
    (hcall : store.updateSafeTarget = .ok store') : store'.Anchored E g := by
  have hsound := (h.sound.updateSafeTarget hg hE).of_eq hcall
  obtain ⟨safeTarget, rfl⟩ := Store.updateSafeTarget_eq_ok hcall
  exact h.frame ⟨rfl, rfl, rfl, rfl, rfl, rfl⟩ hsound h.head_descends

include hg in
theorem onTick (hE : E.HashIdeal) (h : store.Anchored E g) {now : ℕ} {hasProposal : Bool}
    (hcall : store.onTick now hasProposal = .ok store') : store'.Anchored E g := by
  refine Store.onTick_calls (P := fun s => s.Anchored E g) (fun s t hs => ?_)
    (fun s s' hs => hs.acceptNewAttestations hg hE) (fun s s' hs => hs.updateSafeTarget hg hE)
    h hcall
  exact hs.frame ⟨rfl, rfl, rfl, rfl, rfl, rfl⟩ (hs.sound.frame ⟨rfl, rfl, rfl, rfl, rfl, rfl⟩
    hs.sound.head_mem hs.sound.safeTarget_mem) hs.head_descends

include hg in
theorem getProposalHead (hE : E.HashIdeal) (h : store.Anchored E g) {slot : ℕ}
    (hcall : store.getProposalHead slot = .ok store') : store'.Anchored E g := by
  obtain ⟨s₁, htick, haccept⟩ := bind_eq_ok.mp hcall
  exact (h.onTick hg hE htick).acceptNewAttestations hg hE haccept

theorem onAttestation (h : store.Anchored E g) {sa : SignedAttestation} {isFromBlock : Bool}
    {after : After Store Unit} (hcall : store.onAttestation E sa isFromBlock = .ok after) :
    after.state.Anchored E g := by
  obtain ⟨hsame, -, hhead, -⟩ := Store.onAttestation_frame hcall
  refine h.frame hsame ((h.sound.onAttestation sa isFromBlock).of_eq hcall) ?_
  rw [hhead]
  exact h.head_descends

theorem withQueue (h : store.Anchored E g)
    (queue : HashMap H256 (List SignedBlockWithAttestation)) :
    Store.Anchored E g { store with blocksQueue := queue } where
  sound := h.sound.withQueue queue
  justified := h.justified
  finalized := h.finalized
  finalized_le := h.finalized_le
  head_descends := h.head_descends

section Blocks

variable {sb : SignedBlockWithAttestation} {parent post : State}

/-- A stored block added to the tree leaves the checkpoints where they were. -/
theorem insertBlock (hE : E.HashIdeal) (h : store.Anchored E g)
    (hparent : store.states.lookup sb.block.parentRoot = some parent)
    (htrans : parent.stateTransition E sb true = .ok post) :
    (store.insertBlock (sb.block.hashTreeRoot E) sb.block post).Anchored E g := by
  have hext := h.sound.tree.extends_insertBlock hE trivial hparent htrans
  exact {
    sound := h.sound.insertBlock hE trivial hparent htrans
    justified := h.justified.mono hext
    finalized := h.finalized.mono hext
    finalized_le := h.finalized_le
    head_descends := h.head_descends.mono fun _ _ hb =>
      h.sound.tree.keyed.blocks_insert hE hb sb.block }

include hg in
/-- An imported block brings the checkpoints of its post-state, and the head is chosen below the
    higher justified one. -/
theorem imported (hE : E.HashIdeal) (h : store.Anchored E g) {head : H256}
    (himp : Imported E store sb (sb.block.hashTreeRoot E) store' parent post head) :
    store'.Anchored E g := by
  have hsound := h.sound.imported hg hE trivial himp
  have himport := h.sound.importBlock hg hE trivial himp.parent_state himp.transition
  have inserted := h.insertBlock hE himp.parent_state himp.transition
  have hhead := himport.head_descends hg hE himport.justified_mem himp.head_rule
  obtain ⟨block, -, hkey, hacc⟩ := h.sound.tree.accepted_of_state himp.parent_state
  obtain ⟨blocks, -, hreach⟩ := hacc.reached hg himp.transition
  have hpost := hreach.finalized_le_justified hE
  -- the new checkpoints are those of the state stored with the block
  have hnew : ∀ field : State → Checkpoint,
      Store.TakenFrom E g field (store.insertBlock (sb.block.hashTreeRoot E) sb.block post)
        (field post) := by
    intro field
    refine Or.inr ⟨_, post, fun hroot => ?_, AList.lookup_insert store.states, rfl⟩
    exact Accepted.child_ne_genesis hE hkey.symm (Block.hashTreeRoot_injective hE hroot)
  -- each checkpoint is the old one or that of the post-state
  have hle := inserted.finalized_le
  rw [himp.result, Store.castProposerVote_eq] at hsound ⊢
  rw [Store.importBlock_eq] at hsound hhead ⊢
  exact {
    sound := hsound
    justified := by
      show Store.TakenFrom E g State.latestJustified _ (if _ then _ else _)
      split_ifs
      · exact hnew State.latestJustified
      · exact inserted.justified
    finalized := by
      show Store.TakenFrom E g State.latestFinalized _ (if _ then _ else _)
      split_ifs
      · exact hnew State.latestFinalized
      · exact inserted.finalized
    finalized_le := by
      show Checkpoint.slot (if _ then _ else _) ≤ Checkpoint.slot (if _ then _ else _)
      split_ifs <;> omega
    head_descends := hhead }

include hg in
theorem onBlock (hE : E.HashIdeal) (h : store.Anchored E g)
    {r : Except String (List SignedBlockWithAttestation)}
    (hcall : store.onBlock E sb = .ok ⟨store', r⟩) : store'.Anchored E g :=
  (Store.onBlock_induction (P := fun s _ => s.Anchored E g) (Q := fun _ => True)
    (fun _ _ queue hs => hs.withQueue queue)
    (fun _ _ _ _ _ _ _ _ hs himp => hs.imported hg hE himp) trivial h
    (fun _ _ => trivial) hcall).1

end Blocks

include hg in
theorem apply (hE : E.HashIdeal) (h : store.Anchored E g) {op : StoreOp}
    (hop : store.apply E op = .ok store') : store'.Anchored E g := by
  cases Store.apply_step hop with
  | tick now hasProposal s hcall => exact h.onTick hg hE hcall
  | attestation sa isFromBlock after hcall => exact h.onAttestation hcall
  | gossipAttestation sa after hcall => exact h.onAttestation hcall
  | block sb s r hcall => exact h.onBlock hg hE hcall
  | produced slot validatorIndex orders s₀ built hcall hbuilt =>
    exact Store.produced_grows (P := fun s => s.Anchored E g)
      (fun _ _ _ _ hparent htrans hs => hs.insertBlock hE hparent htrans)
      (h.getProposalHead hg hE hcall) hbuilt
  | unproduced slot validatorIndex orders s₀ hcall => exact h.getProposalHead hg hE hcall

include hg in
theorem run (hE : E.HashIdeal) (h : store.Anchored E g) {ops : List StoreOp}
    (hrun : store.run E ops = .ok store') : store'.Anchored E g :=
  Store.run_induction (fun _ _ _ _ _ _ _ hs hop => hs.apply hg hE hop) h hrun

/-! ## Votes behind the checkpoints of a store -/

include hg in
/-- A checkpoint taken from a stored state is the genesis block, or has the votes of two thirds
    of the validators in stored blocks. -/
theorem quorum_of_takenFrom (hE : E.HashIdeal) (h : store.Anchored E g) {c : Checkpoint}
    {field : State → Checkpoint}
    (hfield : field = State.latestJustified ∨ field = State.latestFinalized)
    (hc : store.TakenFrom E g field c) :
    c = genesisCheckpoint E g ∨
      Quorum validators.length (store.targetVoters validators.length c) := by
  refine hc.elim Or.inl ?_
  rintro ⟨root, state, hne, hstate, rfl⟩
  obtain ⟨block, -, hkey, hacc⟩ := h.sound.tree.accepted_of_state hstate
  have hblock : block ≠ genesisBlock E g := by
    rintro rfl
    exact hne hkey.symm
  -- the state belongs to a chain of stored blocks, whose votes the store has
  obtain ⟨blocks, hrun, hheld, hblocks⟩ := hacc.exists_chain
  have hreach := ReachedFromGenesis.of_runChain hg (hblocks hblock) hrun
  have hcases : field state = state.latestJustified ∨ field state = state.latestFinalized := by
    rcases hfield with rfl | rfl
    · exact Or.inl rfl
    · exact Or.inr rfl
  have hlen : g.validators.length = validators.length := by
    obtain ⟨-, rfl⟩ := generateGenesisWithValidators_eq_ok hg
    rfl
  -- at the genesis slot there is only the genesis block
  rcases hreach.checkpoint_voters hE (hblocks hblock) hcases with h0 | hq
  · have honchain := (hreach.checkpoint_onChain hE (hblocks hblock) hcases).1
    exact Or.inl (hreach.eq_genesis hE (hblocks hblock) honchain h0)
  · rw [hlen] at hq
    exact Or.inr (hq.mono (h.sound.tree.targetVoters_subset hE hheld _ _))

include hg in
theorem justified_quorum (hE : E.HashIdeal) (h : store.Anchored E g) :
    store.latestJustified = genesisCheckpoint E g ∨ Quorum validators.length
      (store.targetVoters validators.length store.latestJustified) :=
  h.quorum_of_takenFrom hg hE (Or.inl rfl) h.justified

include hg in
theorem finalized_quorum (hE : E.HashIdeal) (h : store.Anchored E g) :
    store.latestFinalized = genesisCheckpoint E g ∨ Quorum validators.length
      (store.targetVoters validators.length store.latestFinalized) :=
  h.quorum_of_takenFrom hg hE (Or.inr rfl) h.finalized

end Store.Anchored

/-! ## Checkpoints never move back -/

section Monotone

variable {E : Env} {store store' : Store}

/-- The checkpoint is kept, or replaced by one at a later slot. -/
def Checkpoint.LeadsTo (c c' : Checkpoint) : Prop := c' = c ∨ c.slot < c'.slot

theorem Checkpoint.LeadsTo.refl (c : Checkpoint) : c.LeadsTo c := Or.inl rfl

theorem Checkpoint.LeadsTo.slot_le {c c' : Checkpoint} (h : c.LeadsTo c') : c.slot ≤ c'.slot := by
  rcases h with rfl | hlt
  · exact le_rfl
  · exact hlt.le

theorem Checkpoint.LeadsTo.trans {c₁ c₂ c₃ : Checkpoint} (h : c₁.LeadsTo c₂)
    (h' : c₂.LeadsTo c₃) : c₁.LeadsTo c₃ := by
  rcases h' with rfl | hlt
  · exact h
  · exact Or.inr (h.slot_le.trans_lt hlt)

/-- Each checkpoint of `store'` is the one of `store` or at a later slot. -/
structure Store.CheckpointsLe (store store' : Store) : Prop where
  justified : store.latestJustified.LeadsTo store'.latestJustified
  finalized : store.latestFinalized.LeadsTo store'.latestFinalized

theorem Store.CheckpointsLe.refl (store : Store) : store.CheckpointsLe store :=
  ⟨Checkpoint.LeadsTo.refl _, Checkpoint.LeadsTo.refl _⟩

theorem Store.CheckpointsLe.trans {s₁ s₂ s₃ : Store} (h : s₁.CheckpointsLe s₂)
    (h' : s₂.CheckpointsLe s₃) : s₁.CheckpointsLe s₃ :=
  ⟨h.justified.trans h'.justified, h.finalized.trans h'.finalized⟩

theorem SameTree.checkpointsLe (h : SameTree store store') : store.CheckpointsLe store' :=
  ⟨Or.inl h.latestJustified, Or.inl h.latestFinalized⟩

theorem Imported.checkpointsLe {sb : SignedBlockWithAttestation} {root : H256}
    {parent post : State} {head : H256} (h : Imported E store sb root store' parent post head) :
    store.CheckpointsLe store' := by
  have hle : ∀ a b : Checkpoint, a.LeadsTo (if a.slot < b.slot then b else a) := by
    intro a b
    split_ifs with hlt
    · exact Or.inr hlt
    · exact Or.inl rfl
  rw [h.result, Store.castProposerVote_eq, Store.importBlock_eq]
  exact ⟨hle _ _, hle _ _⟩

theorem Store.apply_checkpointsLe {op : StoreOp} (h : store.apply E op = .ok store') :
    store.CheckpointsLe store' := by
  cases Store.apply_step h with
  | tick now hasProposal s hcall => exact (Store.onTick_sameTree hcall).checkpointsLe
  | attestation sa isFromBlock after hcall =>
    exact (Store.onAttestation_frame hcall).1.checkpointsLe
  | gossipAttestation sa after hcall => exact (Store.onAttestation_frame hcall).1.checkpointsLe
  | block sb s r hcall =>
    exact (Store.onBlock_induction (P := fun s _ => store.CheckpointsLe s) (Q := fun _ => True)
      (fun _ _ _ hs => ⟨hs.justified, hs.finalized⟩)
      (fun _ _ _ _ _ _ _ _ hs himp => hs.trans himp.checkpointsLe) trivial
      (Store.CheckpointsLe.refl store) (fun _ _ => trivial) hcall).1
  | produced slot validatorIndex orders s₀ built hcall hbuilt =>
    have hle := (Store.getProposalHead_sameTree hcall).checkpointsLe
    exact ⟨hle.justified, hle.finalized⟩
  | unproduced slot validatorIndex orders s₀ hcall =>
    exact (Store.getProposalHead_sameTree hcall).checkpointsLe

theorem Store.run_checkpointsLe {ops : List StoreOp} (h : store.run E ops = .ok store') :
    store.CheckpointsLe store' :=
  Store.run_induction (P := fun s => store.CheckpointsLe s)
    (fun _ _ _ _ _ _ _ hs hop => hs.trans (Store.apply_checkpointsLe hop))
    (Store.CheckpointsLe.refl store) h

end Monotone

section Reached

variable {E : Env} {g : State} {store : Store} {time : ℕ} {validators : List Validator}

/-- In every store reached from genesis the head lies below the justified checkpoint, which is
    not before the finalized one. Each of the two is the genesis block or has the votes of two
    thirds of the validators in stored blocks, and no further call moves one back. -/
theorem reached_head_lies_below_justified (hE : E.HashIdeal)
    (hg : generateGenesisWithValidators E time validators = .ok g)
    {anchor : SignedBlockWithAttestation} (hanchor : anchor.block = genesisBlock E g)
    {config : Config} {ops : List StoreOp}
    (hrun : (getForkchoiceStore E g anchor config).run E ops = .ok store) :
    store.Descends store.head store.latestJustified.root ∧
    store.latestFinalized.slot ≤ store.latestJustified.slot ∧
    (∀ c, c = store.latestJustified ∨ c = store.latestFinalized →
      c = genesisCheckpoint E g ∨
        Quorum validators.length (store.targetVoters validators.length c)) ∧
    ∀ more store', store.run E more = .ok store' →
      store.latestJustified.slot ≤ store'.latestJustified.slot ∧
        store.latestFinalized.slot ≤ store'.latestFinalized.slot := by
  have h := (Store.Anchored.genesis hg hanchor config).run hg hE hrun
  refine ⟨h.head_descends, h.finalized_le, ?_, ?_⟩
  · rintro c (rfl | rfl)
    · exact h.justified_quorum hg hE
    · exact h.finalized_quorum hg hE
  · intro more store' hmore
    have hle := Store.run_checkpointsLe hmore
    exact ⟨hle.justified.slot_le, hle.finalized.slot_le⟩

end Reached

/-- The blocks at slots 2 and 3, and the one at slot 4 that finalizes slot 2. -/
def SoloChain.finalizing : List StoreOp :=
  [.tick 9 false, .block (block 2 1 2 []), .tick 13 false, .block (block 3 2 3 []),
    .tick 17 false, .block (block 4 3 4 links)]

theorem solo_head_lies_below_justified :
    (GenesisVotes.storeAfter SoloChain.finalizing).latestFinalized = ⟨2, 2⟩ ∧
      (GenesisVotes.storeAfter SoloChain.finalizing).Descends
        (GenesisVotes.storeAfter SoloChain.finalizing).head 3 := by
  have hreach := GenesisVotes.reached
    (show (GenesisVotes.init.run SoloChain.env SoloChain.finalizing).toOption.isSome = true by
      decide +kernel)
  have hjust : (GenesisVotes.storeAfter SoloChain.finalizing).latestJustified.root = 3 := by
    decide +kernel
  refine ⟨by decide +kernel, ?_⟩
  rw [← hjust]
  exact (reached_head_lies_below_justified (Env.tabulated_hashIdeal _)
    (show generateGenesisWithValidators SoloChain.env 0 [{ pubkey := 7, index := 0 }] =
      .ok SoloChain.genesis from rfl) (show GenesisVotes.anchor.block = _ from rfl) hreach.run).1

end ConsensusClient
