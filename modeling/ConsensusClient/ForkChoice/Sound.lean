import ConsensusClient.ForkChoice.Flush
import ConsensusClient.ForkChoice.Tree
import ConsensusClient.ForkChoice.Votes

/-!
# The Store is Sound

The head, the safe target and the two checkpoints of a store created from genesis are stored
blocks. The checkpoints come out of post-states, so this rests on the history of the chain of
each of them (`Store.Tree.checkpoint_lookup`). The head rule starts at the justified checkpoint
and walks along the tree only, hence it never looks up a missing block and always ends: no
operation of the store panics or hangs unless a state transition does.

## Main results

* `Store.Sound.head_rule`: from any stored block the head rule ends, at a stored block
* `Store.Sound.onBlock`: `on_block` returns unless the transition of a block in turn panics
* `Store.Sound.apply_yields`: the same for each operation of the store
* `reached_store_is_coherent`: what holds of every store reached from genesis
-/

namespace ConsensusClient

/-! ## The invariant -/

/-- The checkpoint is a stored block at its slot. -/
def Store.HasCheckpoint (store : Store) (c : Checkpoint) : Prop :=
  ∃ block, store.blocks.lookup c.root = some block ∧ block.slot = c.slot

theorem Store.HasCheckpoint.mem {store : Store} {c : Checkpoint} (h : store.HasCheckpoint c) :
    c.root ∈ store.blocks := by
  obtain ⟨block, hblock, -⟩ := h
  exact AList.mem_iff_exists_lookup.mpr ⟨block, hblock⟩

/-- The blocks of the store form a tree of offered blocks, and the store points into it. -/
structure Store.Sound (E : Env) (g : State) (offered : SignedBlockWithAttestation → Prop)
    (store : Store) : Prop where
  tree : store.Tree E g offered
  head_mem : store.head ∈ store.blocks
  safeTarget_mem : store.safeTarget ∈ store.blocks
  justified : store.HasCheckpoint store.latestJustified
  finalized : store.HasCheckpoint store.latestFinalized

/-- The checks of an attestation never panic, since the blocks are looked up after they were
    found. -/
theorem Store.returns_validateAttestationData (store : Store)
    (data : AttestationData) : (store.validateAttestationData data).Returns := by
  have hblockAt : ∀ root ∈ store.blocks, (store.blockAt root).Returns := by
    intro root hroot
    obtain ⟨block, hblock⟩ := AList.mem_iff_exists_lookup.mp hroot
    rw [Store.blockAt, hblock]
    exact returns_ok block
  unfold Store.validateAttestationData
  refine returns_bind (returns_ensure _ _) fun _ hsource => ?_
  refine returns_bind (returns_ensure _ _) fun _ htarget => ?_
  refine returns_bind (returns_ensure _ _) fun _ _ => ?_
  refine returns_bind (returns_ensure _ _) fun _ _ => ?_
  refine returns_bind (hblockAt _ (ensure_eq_ok.mp hsource)) fun _ _ => ?_
  refine returns_bind (hblockAt _ (ensure_eq_ok.mp htarget)) fun _ _ => ?_
  refine returns_bind (returns_ensure _ _) fun _ _ => ?_
  refine returns_bind (returns_ensure _ _) fun _ _ => ?_
  exact returns_ensure _ _

/-- A genesis state has the zero checkpoints. -/
theorem genesis_checkpoints {E : Env} {g : State} {time : ℕ} {validators : List Validator}
    (hg : generateGenesisWithValidators E time validators = .ok g) :
    g.latestJustified = ⟨0, 0⟩ ∧ g.latestFinalized = ⟨0, 0⟩ := by
  obtain ⟨-, rfl⟩ := generateGenesisWithValidators_eq_ok hg
  exact ⟨rfl, rfl⟩

/-- No state of an accepted parent panics on the block. -/
def Settles (E : Env) (g : State) (offered : SignedBlockWithAttestation → Prop)
    (sb : SignedBlockWithAttestation) : Prop :=
  ∀ block state, Accepted E g offered block state →
    sb.block.parentRoot = block.hashTreeRoot E → (state.stateTransition E sb true).Returns

namespace Store.Sound

variable {E : Env} {g : State} {offered : SignedBlockWithAttestation → Prop}
  {store store' : Store} {time : ℕ} {validators : List Validator}

theorem frame (sound : store.Sound E g offered) (hsame : SameTree store store')
    (hhead : store'.head ∈ store.blocks) (hsafe : store'.safeTarget ∈ store.blocks) :
    store'.Sound E g offered where
  tree := sound.tree.frame hsame.blocks hsame.states
  head_mem := by rw [hsame.blocks]; exact hhead
  safeTarget_mem := by rw [hsame.blocks]; exact hsafe
  justified := by
    unfold Store.HasCheckpoint
    rw [hsame.blocks, hsame.latestJustified]
    exact sound.justified
  finalized := by
    unfold Store.HasCheckpoint
    rw [hsame.blocks, hsame.latestFinalized]
    exact sound.finalized

theorem withQueue (sound : store.Sound E g offered)
    (queue : HashMap H256 (List SignedBlockWithAttestation)) :
    Store.Sound E g offered { store with blocksQueue := queue } where
  tree := sound.tree.frame rfl rfl
  head_mem := sound.head_mem
  safeTarget_mem := sound.safeTarget_mem
  justified := sound.justified
  finalized := sound.finalized

variable (hg : generateGenesisWithValidators E time validators = .ok g)

include hg in
/-- A store that has just been created from genesis points to the genesis block. -/
theorem genesis {anchor : SignedBlockWithAttestation} (hanchor : anchor.block = genesisBlock E g)
    (config : Config) : (getForkchoiceStore E g anchor config).Sound E g offered := by
  have tree : (getForkchoiceStore E g anchor config).Tree E g offered :=
    Store.Tree.genesis hanchor config
  have hroot : anchor.block.hashTreeRoot E = genesisRoot E g := by rw [hanchor]; rfl
  have hmem : genesisRoot E g ∈ (getForkchoiceStore E g anchor config).blocks :=
    AList.mem_iff_exists_lookup.mpr ⟨_, tree.anchor_block⟩
  have hcheckpoints := genesis_checkpoints hg
  -- both checkpoints are the anchor, which is stored
  have hanchored : ∀ c : Checkpoint, c = ⟨0, 0⟩ →
      (getForkchoiceStore E g anchor config).HasCheckpoint
        (anchorCheckpoint (anchor.block.hashTreeRoot E) anchor.block.slot c) := by
    rintro c rfl
    rw [hroot]
    exact ⟨_, tree.anchor_block, by rw [hanchor]; rfl⟩
  exact {
    tree
    head_mem := by rw [← hroot] at hmem; exact hmem
    safeTarget_mem := by rw [← hroot] at hmem; exact hmem
    justified := hanchored _ hcheckpoints.1
    finalized := hanchored _ hcheckpoints.2 }

include hg in
/-- From any stored block the head rule ends, at a stored block. -/
theorem head_rule (hE : E.HashIdeal) (sound : store.Sound E g offered) {root : H256}
    (hroot : root ∈ store.blocks) (votes : HashMap ℕ AttestationData) (minVotes : ℕ) :
    (store.getForkChoiceHead root votes minVotes).Yields fun head => head ∈ store.blocks := by
  have hne : root ≠ 0 := by
    rintro rfl
    exact sound.tree.keyed.zero_not_mem hE hroot
  obtain ⟨head, hhead, -⟩ := (sound.tree.wellFormed hg hE).exists_head hne hroot votes minVotes
  exact ⟨head, hhead, Store.getForkChoiceHead_mem hhead⟩

theorem justified_mem (sound : store.Sound E g offered) :
    store.latestJustified.root ∈ store.blocks := sound.justified.mem

theorem finalized_mem (sound : store.Sound E g offered) :
    store.latestFinalized.root ∈ store.blocks := sound.finalized.mem

/-! ## Ticks and attestations -/

include hg in
theorem updateHead (hE : E.HashIdeal) (sound : store.Sound E g offered) :
    store.updateHead.Yields fun s => s.Sound E g offered := by
  refine yields_bind (sound.head_rule hg hE sound.justified_mem _ _) fun head hhead => ?_
  exact yields_ok (sound.frame ⟨rfl, rfl, rfl, rfl, rfl, rfl⟩ hhead sound.safeTarget_mem)

include hg in
theorem updateSafeTarget (hE : E.HashIdeal) (sound : store.Sound E g offered) :
    store.updateSafeTarget.Yields fun s => s.Sound E g offered := by
  refine yields_bind (sound.head_rule hg hE sound.justified_mem _ _) fun safeTarget hsafe => ?_
  exact yields_ok (sound.frame ⟨rfl, rfl, rfl, rfl, rfl, rfl⟩ sound.head_mem hsafe)

include hg in
theorem acceptNewAttestations (hE : E.HashIdeal) (sound : store.Sound E g offered) :
    store.acceptNewAttestations.Yields fun s => s.Sound E g offered := by
  have merged : store.mergeVotes.Sound E g offered :=
    sound.frame ⟨rfl, rfl, rfl, rfl, rfl, rfl⟩ sound.head_mem sound.safeTarget_mem
  exact merged.updateHead hg hE

include hg in
theorem tickInterval (hE : E.HashIdeal) (sound : store.Sound E g offered) (hasProposal : Bool) :
    (store.tickInterval hasProposal).Yields fun s => s.Sound E g offered := by
  have sound₁ : Store.Sound E g offered { store with time := store.time + 1 } :=
    sound.frame ⟨rfl, rfl, rfl, rfl, rfl, rfl⟩ sound.head_mem sound.safeTarget_mem
  unfold Store.tickInterval
  simp only
  split_ifs
  · exact sound₁.acceptNewAttestations hg hE
  · exact sound₁.updateSafeTarget hg hE
  · exact sound₁.acceptNewAttestations hg hE
  · exact yields_ok sound₁

include hg in
theorem onTick (hE : E.HashIdeal) (sound : store.Sound E g offered) (now : ℕ)
    (hasProposal : Bool) : (store.onTick now hasProposal).Yields fun s => s.Sound E g offered := by
  unfold Store.onTick
  simp only
  generalize (now - store.config.genesisTime) / secondsPerInterval - store.time = left
  induction left generalizing store with
  | zero => exact yields_ok sound
  | succ left ih => exact yields_bind (sound.tickInterval hg hE _) fun s hs => ih hs

include hg in
theorem getProposalHead (hE : E.HashIdeal) (sound : store.Sound E g offered) (slot : ℕ) :
    (store.getProposalHead slot).Yields fun s => s.Sound E g offered :=
  yields_bind (sound.onTick hg hE _ _) fun _ hs => hs.acceptNewAttestations hg hE

theorem onAttestation (sound : store.Sound E g offered) (sa : SignedAttestation)
    (isFromBlock : Bool) : (store.onAttestation E sa isFromBlock).Yields fun after =>
      after.state.Sound E g offered := by
  have hreturns : (store.onAttestation E sa isFromBlock).Yields fun _ => True :=
    yields_attempt (store.returns_validateAttestationData sa.message)
      (fun _ _ => yields_ok trivial) fun _ _ => trivial
  obtain ⟨after, hafter, -⟩ := hreturns
  obtain ⟨hsame, -, hhead, hsafe⟩ := Store.onAttestation_frame hafter
  refine ⟨after, hafter, sound.frame hsame ?_ ?_⟩
  · rw [hhead]
    exact sound.head_mem
  · rw [hsafe]
    exact sound.safeTarget_mem

/-! ## Blocks -/

section Blocks

variable {sb : SignedBlockWithAttestation} {parent post : State}

/-- A block is added to the tree, and none of the pointers moves. -/
theorem insertBlock (hE : E.HashIdeal) (sound : store.Sound E g offered) (hsb : offered sb)
    (hparent : store.states.lookup sb.block.parentRoot = some parent)
    (htrans : parent.stateTransition E sb true = .ok post) :
    (store.insertBlock (sb.block.hashTreeRoot E) sb.block post).Sound E g offered := by
  have hmem : ∀ root ∈ store.blocks,
      root ∈ store.blocks.insert (sb.block.hashTreeRoot E) sb.block := by
    intro root hroot
    rw [AList.mem_insert]
    exact Or.inr hroot
  have hold : ∀ c, store.HasCheckpoint c →
      (store.insertBlock (sb.block.hashTreeRoot E) sb.block post).HasCheckpoint c := by
    rintro c ⟨block, hblock, hslot⟩
    exact ⟨block, sound.tree.keyed.blocks_insert hE hblock sb.block, hslot⟩
  exact {
    tree := sound.tree.insertBlock hE hsb hparent htrans
    head_mem := hmem _ sound.head_mem
    safeTarget_mem := hmem _ sound.safeTarget_mem
    justified := hold _ sound.justified
    finalized := hold _ sound.finalized }

include hg in
/-- A block with its checkpoints is added to the tree. -/
theorem importBlock (hE : E.HashIdeal) (sound : store.Sound E g offered) (hsb : offered sb)
    (hparent : store.states.lookup sb.block.parentRoot = some parent)
    (htrans : parent.stateTransition E sb true = .ok post) :
    (store.importBlock E sb (sb.block.hashTreeRoot E) post).Sound E g offered := by
  have inserted := sound.insertBlock hE hsb hparent htrans
  -- the checkpoints of the post-state are blocks of its chain
  have hnew : ∀ c, c = post.latestJustified ∨ c = post.latestFinalized →
      (store.insertBlock (sb.block.hashTreeRoot E) sb.block post).HasCheckpoint c := by
    intro c hc
    have hpost : (store.insertBlock (sb.block.hashTreeRoot E) sb.block post).states.lookup
        (sb.block.hashTreeRoot E) = some post := AList.lookup_insert store.states
    refine inserted.tree.checkpoint_lookup hg hE hpost (fun hroot => ?_) hc
    obtain ⟨block, -, hkey, -⟩ := sound.tree.accepted_of_state hparent
    exact Accepted.child_ne_genesis hE hkey.symm (Block.hashTreeRoot_injective hE hroot)
  rw [Store.importBlock_eq]
  exact {
    tree := inserted.tree.frame rfl rfl
    head_mem := inserted.head_mem
    safeTarget_mem := inserted.safeTarget_mem
    justified := by
      show Store.HasCheckpoint _ (if _ then _ else _)
      split_ifs
      · exact hnew _ (Or.inl rfl)
      · exact inserted.justified
    finalized := by
      show Store.HasCheckpoint _ (if _ then _ else _)
      split_ifs
      · exact hnew _ (Or.inr rfl)
      · exact inserted.finalized }

include hg in
theorem processBlockInternal (hE : E.HashIdeal) (sound : store.Sound E g offered)
    (hsb : offered sb) (hsettles : Settles E g offered sb) :
    (store.processBlockInternal E sb (sb.block.hashTreeRoot E)).Yields fun after =>
      after.state.Sound E g offered := by
  refine yields_attempt (returns_okOr _ _) (fun parent hparent => ?_) fun _ _ => sound
  have hparent := okOr_eq_ok.mp hparent
  obtain ⟨block, -, hroot, hacc⟩ := sound.tree.accepted_of_state hparent
  have hreturns := hsettles block parent (hacc.mono fun _ h => h.1) hroot.symm
  refine yields_attempt hreturns (fun post hpost => ?_) fun _ _ => sound
  have himport := sound.importBlock hg hE hsb hparent hpost
  refine yields_bind (himport.updateHead hg hE) fun s hs => yields_ok ?_
  -- the vote of the proposer leaves the tree alone
  rw [Store.castProposerVote_eq]
  exact hs.frame ⟨rfl, rfl, rfl, rfl, rfl, rfl⟩ hs.head_mem hs.safeTarget_mem

include hg in
/-- `on_block` returns if no state transition panics on the block or on one that waits for it. -/
theorem onBlock (hE : E.HashIdeal) (sound : store.Sound E g offered)
    (hwaiting : ∀ b, b = sb ∨ store.WaitsFor E (sb.block.hashTreeRoot E) b →
      offered b ∧ Settles E g offered b) :
    (store.onBlock E sb).Yields fun after => after.state.Sound E g offered := by
  -- the blocks that are still to be processed, or that wait for a root on the stack
  let I : Store → List H256 → List SignedBlockWithAttestation → Prop := fun s roots rest =>
    s.Sound E g offered ∧ ∀ b, (b ∈ rest ∨ (∃ root ∈ roots, s.WaitsFor E root b) ∨
      ∃ c ∈ rest, s.WaitsFor E (c.block.hashTreeRoot E) b) → offered b ∧ Settles E g offered b
  have hblocks : (store.onBlock E sb).Yields fun after => I after.state [] [] := by
    refine meets_false.mp (Store.onBlock_meets (I := I) ?_ ?_ ?_ ?_ ?_ ?_)
    · -- a block that has left the queue
      rintro s roots b rest ⟨hs, hrest⟩
      obtain ⟨hb, hsettles⟩ := hrest b (by simp)
      obtain ⟨after, hafter, hsound⟩ := hs.processBlockInternal hg hE hb hsettles
      have hqueue := Store.processBlockInternal_queue hafter
      have hwaits : ∀ root c, after.state.WaitsFor E root c → s.WaitsFor E root c :=
        fun root c hc => hc.mono (by rw [hqueue]; exact fun _ _ h => h)
      refine meets_false.mpr ⟨after, hafter, hsound, fun c hc => hrest c ?_⟩
      rcases hc with hc | ⟨root, hroot, hc⟩ | ⟨d, hd, hc⟩
      · exact Or.inl (List.mem_cons_of_mem b hc)
      · rcases eq_or_mem_of_mem_pushRoot hroot with rfl | hroot
        · exact Or.inr (Or.inr ⟨b, List.mem_cons_self, hwaits _ c hc⟩)
        · exact Or.inr (Or.inl ⟨root, hroot, hwaits _ c hc⟩)
      · exact Or.inr (Or.inr ⟨d, List.mem_cons_of_mem b hd, hwaits _ c hc⟩)
    · rintro s root roots ⟨hs, hrest⟩ -
      refine ⟨hs, fun b hb => hrest b ?_⟩
      rcases hb with hb | ⟨r, hr, hb⟩ | ⟨c, hc, -⟩
      · exact Or.inl hb
      · exact Or.inr (Or.inl ⟨r, List.mem_cons_of_mem root hr, hb⟩)
      · exact absurd hc (by simp)
    · rintro s root roots blocks ⟨hs, hrest⟩ hlookup
      have hold : ∀ r b, AList.Lists (s.blocksQueue.erase root) r b → s.blocksQueue.Lists r b :=
        fun r b h => AList.lists_of_erase h
      refine ⟨hs.withQueue _, fun b hb => hrest b (Or.inr (Or.inl ?_))⟩
      -- the blocks taken out waited for the root, and what waits for them did so over them
      rcases hb with hb | ⟨r, hr, hb⟩ | ⟨c, hc, hb⟩
      · exact ⟨root, List.mem_cons_self, .direct ⟨blocks, hlookup, hb⟩⟩
      · exact ⟨r, List.mem_cons_of_mem root hr, hb.mono hold⟩
      · exact ⟨root, List.mem_cons_self, .trans ⟨blocks, hlookup, hc⟩ (hb.mono hold)⟩
    · exact fun _ => ⟨sound, fun b hb => absurd hb (by simp)⟩
    · exact fun _ _ _ => ⟨sound.withQueue _, fun b hb => absurd hb (by simp)⟩
    · intro _ _
      exact ⟨sound, fun b hb => hwaiting b (by simpa using hb)⟩
  exact hblocks.imp fun _ h => h.1

include hg in
theorem imported {head : H256} (hE : E.HashIdeal) (sound : store.Sound E g offered)
    (hsb : offered sb)
    (himp : Imported E store sb (sb.block.hashTreeRoot E) store' parent post head) :
    store'.Sound E g offered := by
  have himport := sound.importBlock hg hE hsb himp.parent_state himp.transition
  rw [himp.result, Store.castProposerVote_eq]
  exact himport.frame ⟨rfl, rfl, rfl, rfl, rfl, rfl⟩ (Store.getForkChoiceHead_mem himp.head_rule)
    himport.safeTarget_mem

include hg in
/-- Whatever `on_block` did before it returned, it left a sound store. -/
theorem of_onBlock (hE : E.HashIdeal) (sound : store.Sound E g offered)
    (hoffered : ∀ b, b = sb ∨ b ∈ store.queued → offered b)
    {r : Except String (List SignedBlockWithAttestation)}
    (h : store.onBlock E sb = .ok ⟨store', r⟩) :
    store'.Sound E g offered ∧ ∀ b ∈ store'.queued, offered b := by
  refine Store.onBlock_induction (P := fun s _ => s.Sound E g offered) (Q := offered) ?_ ?_
    (hoffered sb (Or.inl rfl)) sound (fun b hb => hoffered b (Or.inr hb)) h
  · intro s _ queue hs
    exact hs.withQueue queue
  · intro s _ b s' parent post head hb hs himp
    exact hs.imported hg hE hb himp

end Blocks

/-! ## Block production -/

section Production

variable {orders : IterationOrders} {slot validatorIndex : ℕ}

/-- An own block extends the tree, and moves none of the pointers. -/
theorem produced {built : BuiltBlock} (hE : E.HashIdeal)
    (sound : store.Sound E g fun _ => True)
    (h : store.buildOnHead E orders slot validatorIndex = .ok built) :
    (store.insertBlock (built.block.hashTreeRoot E) built.block built.post).Sound E g
      fun _ => True :=
  Store.produced_grows (P := fun s => s.Sound E g fun _ => True)
    (fun _ _ _ _ hparent htrans hs => hs.insertBlock hE trivial hparent htrans) sound h

end Production

/-! ## Runs -/

include hg in
/-- Every operation that returns leaves a sound store. -/
theorem apply (hE : E.HashIdeal) (sound : store.Sound E g fun _ => True) {op : StoreOp}
    (h : store.apply E op = .ok store') : store'.Sound E g fun _ => True := by
  cases Store.apply_step h with
  | tick now hasProposal s hcall => exact (sound.onTick hg hE now hasProposal).of_eq hcall
  | attestation sa isFromBlock after hcall =>
    exact (sound.onAttestation sa isFromBlock).of_eq hcall
  | gossipAttestation sa after hcall => exact (sound.onAttestation sa false).of_eq hcall
  | block sb s r hcall => exact (sound.of_onBlock hg hE (fun _ _ => trivial) hcall).1
  | produced slot validatorIndex orders s₀ built hcall hbuilt =>
    exact ((sound.getProposalHead hg hE slot).of_eq hcall).produced hE hbuilt
  | unproduced slot validatorIndex orders s₀ hcall =>
    exact (sound.getProposalHead hg hE slot).of_eq hcall

include hg in
theorem run (hE : E.HashIdeal) (sound : store.Sound E g fun _ => True) {ops : List StoreOp}
    (h : store.run E ops = .ok store') : store'.Sound E g fun _ => True :=
  Store.run_induction (fun _ _ _ _ _ _ _ hs hop => hs.apply hg hE hop) sound h

end Store.Sound

/-! ## Well-formedness of a store created from genesis -/

section WellFormedness

variable {E : Env} {g : State} {store : Store} {time : ℕ} {validators : List Validator}

/-- The blocks and the states of the store describe one tree with root `anchor`, and everything
    the store points to is in it. -/
structure Store.Coherent (E : Env) (anchor : H256) (store : Store) : Prop where
  same_keys : ∀ root, root ∈ store.blocks ↔ root ∈ store.states
  keyed : ∀ root block, store.blocks.lookup root = some block → block.hashTreeRoot E = root
  parent_stored : ∀ root block, store.blocks.lookup root = some block → root ≠ anchor →
    ∃ parent, store.blocks.lookup block.parentRoot = some parent ∧ parent.slot < block.slot
  header_stored : ∀ root block state, store.blocks.lookup root = some block →
    store.states.lookup root = some state →
    state.latestBlockHeader = { block.header E with stateRoot := 0 }
  head_mem : store.head ∈ store.blocks
  safeTarget_mem : store.safeTarget ∈ store.blocks
  justified_mem : store.latestJustified.root ∈ store.blocks
  finalized_mem : store.latestFinalized.root ∈ store.blocks

theorem Store.Sound.coherent {offered : SignedBlockWithAttestation → Prop} (hE : E.HashIdeal)
    (hg : generateGenesisWithValidators E time validators = .ok g)
    (sound : store.Sound E g offered) : store.Coherent E (genesisRoot E g) where
  same_keys := fun _ => sound.tree.mem_iff
  keyed := sound.tree.keyed
  parent_stored := fun _ _ hblock hne => sound.tree.parent_lt hg hE hblock hne
  header_stored := by
    intro root block state hblock hstate
    obtain ⟨state', hstate', hacc⟩ := sound.tree.accepted root block hblock
    obtain rfl := Option.some.inj (hstate.symm.trans hstate')
    exact (hacc.header_eq hg hE).1
  head_mem := sound.head_mem
  safeTarget_mem := sound.safeTarget_mem
  justified_mem := sound.justified_mem
  finalized_mem := sound.finalized_mem

/-- No state transition panics in the call. -/
def Store.Transits (E : Env) (g : State) (store : Store) : StoreOp → Prop
  | .block sb => ∀ b, b = sb ∨ b ∈ store.queued → Settles E g (fun _ => True) b
  | .produce slot validatorIndex orders => ∀ s, store.getProposalHead slot = .ok s →
      (s.buildOnHead E orders slot validatorIndex).Returns
  | _ => True

/-- An operation on a sound store returns unless a state transition panics. -/
theorem Store.Sound.apply_yields (hE : E.HashIdeal)
    (hg : generateGenesisWithValidators E time validators = .ok g)
    (sound : store.Sound E g fun _ => True) {op : StoreOp} (hop : store.Transits E g op) :
    ∃ store', store.apply E op = .ok store' := by
  cases op with
  | tick now hasProposal =>
    obtain ⟨s, hs, -⟩ := sound.onTick hg hE now hasProposal
    exact ⟨s, hs⟩
  | attestation sa isFromBlock =>
    obtain ⟨after, hafter, -⟩ := sound.onAttestation sa isFromBlock
    exact ⟨after.state, by simp [Store.apply, hafter]⟩
  | gossipAttestation sa =>
    obtain ⟨after, hafter, -⟩ := sound.onAttestation sa false
    exact ⟨after.state, by simp [Store.apply, Store.onGossipAttestation_eq, hafter]⟩
  | block sb =>
    obtain ⟨after, hafter, -⟩ := sound.onBlock hg hE fun b hb =>
      ⟨trivial, hop b (hb.imp_right Store.WaitsFor.mem_queued)⟩
    exact ⟨after.state, by simp [Store.apply, hafter]⟩
  | produce slot validatorIndex orders =>
    -- the proposal head is found, and from there the call transits by assumption
    obtain ⟨s₀, h₀, -⟩ := sound.getProposalHead hg hE slot
    have hproduce : (store.produceBlockWithSignatures E orders slot validatorIndex).Yields
        fun _ => True := by
      unfold Store.produceBlockWithSignatures
      rw [h₀, ok_bind]
      exact yields_attempt (hop s₀ h₀) (fun _ _ => yields_ok trivial) fun _ _ => trivial
    obtain ⟨after, hafter, -⟩ := hproduce
    exact ⟨after.state, by simp [Store.apply, hafter]⟩

/-- Every store reached from genesis is coherent, the head rule ends from each of its blocks, and
    the next operation returns unless a state transition panics. -/
theorem reached_store_is_coherent (hE : E.HashIdeal)
    (hg : generateGenesisWithValidators E time validators = .ok g)
    {anchor : SignedBlockWithAttestation} (hanchor : anchor.block = genesisBlock E g)
    {config : Config} {ops : List StoreOp}
    (hrun : (getForkchoiceStore E g anchor config).run E ops = .ok store) :
    store.Coherent E (genesisRoot E g) ∧
    (∀ root ∈ store.blocks, ∀ votes minVotes,
      ∃ head ∈ store.blocks, store.getForkChoiceHead root votes minVotes = .ok head) ∧
    ∀ op, store.Transits E g op → ∃ store', store.apply E op = .ok store' := by
  have sound : store.Sound E g fun _ => True :=
    (Store.Sound.genesis hg hanchor config).run hg hE hrun
  refine ⟨sound.coherent hE hg, ?_, fun op hop => sound.apply_yields hE hg hop⟩
  intro root hroot votes minVotes
  obtain ⟨head, hhead, hmem⟩ := sound.head_rule hg hE hroot votes minVotes
  exact ⟨head, hmem, hhead⟩

end WellFormedness

/-- The blocks at slots 3 and 2 arrive in this order, and the first one waits for the second. -/
def SoloChain.twoBlocks : List StoreOp :=
  [.block (block 3 2 3 []), .tick 9 false, .block (block 2 1 2 []), .tick 15 false]

theorem solo_store_is_coherent :
    (GenesisVotes.storeAfter SoloChain.twoBlocks).Coherent SoloChain.env 1 ∧
      (GenesisVotes.storeAfter SoloChain.twoBlocks).head = 3 := by
  have hreach := GenesisVotes.reached
    (show (GenesisVotes.init.run SoloChain.env SoloChain.twoBlocks).toOption.isSome = true by
      decide +kernel)
  refine ⟨?_, by decide +kernel⟩
  exact (reached_store_is_coherent (Env.tabulated_hashIdeal _)
    (show generateGenesisWithValidators SoloChain.env 0 [{ pubkey := 7, index := 0 }] =
      .ok SoloChain.genesis from rfl) (show GenesisVotes.anchor.block = _ from rfl) hreach.run).1

end ConsensusClient
