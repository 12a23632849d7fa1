import Mathlib.Order.Bounds.Basic
import ConsensusClient.ForkChoice.Waiting

/-!
# The Order of Arrival

Which blocks end up in the store depends on the set of delivered blocks only: they are the
genesis block and the delivered blocks whose ancestors were all delivered and that pass the state
transition of their parent. A block that comes before its parent waits, and is processed when
the parent comes, whatever came in between. The checkpoints of the store are the highest ones of
the stored states.

## Main results

* `ArrivalInv.onBlock`, `ArrivalInv.apply`: a delivery returns, and the block has arrived
* `ArrivalInv.stored`: a block whose ancestors have all arrived is stored
* `arrival_order_does_not_matter`: the store that every order of the deliveries leads to
-/

namespace ConsensusClient

/-- The block that a call delivers. -/
def StoreOp.delivered : StoreOp → List SignedBlockWithAttestation
  | .block sb => [sb]
  | _ => []

/-- The blocks delivered in a sequence of calls. -/
def deliveredBlocks (ops : List StoreOp) : List SignedBlockWithAttestation :=
  ops.flatMap StoreOp.delivered

/-! ## The highest checkpoints -/

section Checkpoints

variable {E : Env} {g : State} {offered : SignedBlockWithAttestation → Prop}
  {store store' : Store} {sb : SignedBlockWithAttestation} {c : State → Checkpoint}

/-- The slots of a checkpoint in the stored states. -/
def Store.slotsOf (store : Store) (c : State → Checkpoint) : Set ℕ :=
  { n | ∃ root state, store.states.lookup root = some state ∧ (c state).slot = n }

/-- An imported block adds the slot of its post-state. -/
theorem Store.Tree.slotsOf_imported {parent post : State} {head : H256} (hE : E.HashIdeal)
    (tree : store.Tree E g offered) (hsb : offered sb)
    (himp : Imported E store sb (sb.block.hashTreeRoot E) store' parent post head) :
    store'.slotsOf c = insert (c post).slot (store.slotsOf c) := by
  have hext := tree.extends_imported hE hsb himp
  obtain ⟨-, hstates⟩ := himp.blocks_eq
  ext n
  constructor
  · rintro ⟨root, state, hstate, rfl⟩
    rw [hstates, AList.lookup_insert_eq] at hstate
    split_ifs at hstate
    · obtain rfl := Option.some.inj hstate
      exact Set.mem_insert _ _
    · exact Set.mem_insert_of_mem _ ⟨root, state, hstate, rfl⟩
  · rintro (rfl | ⟨root, state, hstate, rfl⟩)
    · refine ⟨sb.block.hashTreeRoot E, post, ?_, rfl⟩
      rw [hstates]
      exact AList.lookup_insert store.states
    · exact ⟨root, state, hext.states_lookup root state hstate, rfl⟩

/-- The checkpoints of the store are the highest ones of its states. -/
structure Store.Peaks (store : Store) : Prop where
  justified : IsGreatest (store.slotsOf State.latestJustified) store.latestJustified.slot
  finalized : IsGreatest (store.slotsOf State.latestFinalized) store.latestFinalized.slot

theorem Store.Peaks.frame (h : store.Peaks) (hsame : SameTree store store') : store'.Peaks := by
  obtain ⟨hj, hf⟩ := h
  constructor
  · rw [hsame.latestJustified, Store.slotsOf, hsame.states]
    exact hj
  · rw [hsame.latestFinalized, Store.slotsOf, hsame.states]
    exact hf

theorem Store.Peaks.imported {parent post : State} {head : H256} (hE : E.HashIdeal)
    (tree : store.Tree E g offered) (hsb : offered sb)
    (himp : Imported E store sb (sb.block.hashTreeRoot E) store' parent post head)
    (h : store.Peaks) : store'.Peaks := by
  have hmax : ∀ a b : Checkpoint, (if a.slot < b.slot then b else a).slot = max b.slot a.slot := by
    intro a b
    split_ifs with hlt
    · exact (max_eq_left hlt.le).symm
    · exact (max_eq_right (Nat.le_of_not_lt hlt)).symm
  have hcheckpoints : store'.latestJustified.slot =
        max post.latestJustified.slot store.latestJustified.slot ∧
      store'.latestFinalized.slot =
        max post.latestFinalized.slot store.latestFinalized.slot := by
    rw [himp.result, Store.castProposerVote_eq, Store.importBlock_eq]
    exact ⟨hmax _ _, hmax _ _⟩
  constructor
  · rw [hcheckpoints.1, tree.slotsOf_imported hE hsb himp]
    exact h.justified.insert _
  · rw [hcheckpoints.2, tree.slotsOf_imported hE hsb himp]
    exact h.finalized.insert _

end Checkpoints

/-! ## The invariant of the deliveries -/

/-- The store after the blocks of `arrived`, out of those that are to be delivered in all. The
    last two arguments are the ones of a flush in progress. -/
structure ArrivalInv (E : Env) (g : State) (delivered : List SignedBlockWithAttestation)
    (arrived : SignedBlockWithAttestation → Prop) (store : Store) (roots : List H256)
    (rest : List SignedBlockWithAttestation) : Prop where
  sound : store.Sound E g (· ∈ delivered)
  waiting : ∀ b, b ∈ store.queued ∨ b ∈ rest → b ∈ delivered
  covers : store.Covers E (fun _ => True) arrived roots rest
  peaks : store.Peaks

namespace ArrivalInv

variable {E : Env} {g : State} {delivered : List SignedBlockWithAttestation}
  {arrived : SignedBlockWithAttestation → Prop} {store store' : Store} {roots : List H256}
  {rest : List SignedBlockWithAttestation} {sb : SignedBlockWithAttestation}
  {time : ℕ} {validators : List Validator}

theorem frame (inv : ArrivalInv E g delivered arrived store roots rest)
    (hsame : SameTree store store') (hsound : store'.Sound E g (· ∈ delivered)) :
    ArrivalInv E g delivered arrived store' roots rest where
  sound := hsound
  waiting := by
    rw [Store.queued_congr hsame.blocksQueue]
    exact inv.waiting
  covers := inv.covers.frame hsame.blocks hsame.states hsame.blocksQueue
  peaks := inv.peaks.frame hsame

theorem mono {arrived' : SignedBlockWithAttestation → Prop}
    (inv : ArrivalInv E g delivered arrived store roots rest)
    (hsub : ∀ b, arrived' b → arrived b) :
    ArrivalInv E g delivered arrived' store roots rest :=
  { inv with covers := inv.covers.mono hsub }

variable (hE : E.HashIdeal) (hg : generateGenesisWithValidators E time validators = .ok g)

include hg in
theorem genesis {anchor : SignedBlockWithAttestation} (hanchor : anchor.block = genesisBlock E g)
    (config : Config) :
    ArrivalInv E g delivered (fun _ => False) (getForkchoiceStore E g anchor config) [] [] := by
  have hcheckpoints : g.latestJustified = ⟨0, 0⟩ ∧ g.latestFinalized = ⟨0, 0⟩ :=
    genesis_checkpoints hg
  -- the genesis state is the only one
  have hslots : ∀ c : State → Checkpoint,
      (getForkchoiceStore E g anchor config).slotsOf c = {(c g).slot} := by
    intro c
    ext n
    simp only [Store.slotsOf, getForkchoiceStore, AList.lookup_singleton_eq, Set.mem_ofPred_eq,
      Set.mem_singleton_iff]
    constructor
    · rintro ⟨root, state, hstate, rfl⟩
      split_ifs at hstate
      obtain rfl := Option.some.inj hstate
      rfl
    · rintro rfl
      exact ⟨anchor.block.hashTreeRoot E, g, by simp, rfl⟩
  have hslot : anchor.block.slot = 0 := by rw [hanchor]; rfl
  -- nothing was delivered, and nothing waits
  exact {
    sound := Store.Sound.genesis hg hanchor config
    waiting := by
      rintro b (hb | hb)
      · obtain ⟨root, blocks, hlookup, -⟩ := Store.mem_queued.mp hb
        exact absurd hlookup (by simp [getForkchoiceStore])
      · exact absurd hb (by simp)
    covers := {
      queue_keyed := fun root blocks h => absurd h (by simp [getForkchoiceStore])
      roots_stored := by simp
      rest_parent := by simp
      pending := fun root _ h => absurd h (AList.notMem_empty root)
      covered := fun b hb => absurd hb id }
    peaks := by
      constructor
      · rw [hslots]
        simp [getForkchoiceStore, anchorCheckpoint, hcheckpoints.1, hslot]
      · rw [hslots]
        simp [getForkchoiceStore, anchorCheckpoint, hcheckpoints.2, hslot] }

variable (hsettles : ∀ b ∈ delivered, Settles E g (· ∈ delivered) b)

include hE hg hsettles in
/-- A block in turn is processed. -/
theorem processed (inv : ArrivalInv E g delivered arrived store roots (sb :: rest)) :
    (store.processBlockInternal E sb (sb.block.hashTreeRoot E)).Yields fun after =>
      ArrivalInv E g delivered arrived after.state (pushRoot E sb roots after.result) rest := by
  have hsb : sb ∈ delivered := inv.waiting sb (by simp)
  obtain ⟨after, hafter, hsound⟩ :=
    inv.sound.processBlockInternal hg hE hsb (hsettles sb hsb)
  refine ⟨after, hafter, hsound, fun b hb => inv.waiting b ?_, ?_, ?_⟩
  · rw [Store.queued_congr (Store.processBlockInternal_queue hafter)] at hb
    exact hb.imp_right (List.mem_cons_of_mem sb)
  · exact inv.covers.processed hE inv.sound.tree hsb hafter
  · obtain ⟨s₁, r⟩ := after
    cases r with
    | ok u =>
      obtain ⟨parent, post, head, himp⟩ := Store.processBlockInternal_eq_ok hafter
      exact Store.Peaks.imported hE inv.sound.tree hsb himp inv.peaks
    | error msg =>
      obtain ⟨rfl, -⟩ := Store.processBlockInternal_eq_error hafter
      exact inv.peaks

include hE hg hsettles in
/-- A delivery returns, and the block has arrived. -/
theorem onBlock (inv : ArrivalInv E g delivered arrived store [] []) (hsb : sb ∈ delivered) :
    (store.onBlock E sb).Yields fun after =>
      ArrivalInv E g delivered (fun b => arrived b ∨ b = sb) after.state [] [] := by
  refine meets_false.mp (Store.onBlock_meets
    (I := ArrivalInv E g delivered fun b => arrived b ∨ b = sb) ?_ ?_ ?_ ?_ ?_ ?_)
  -- the rounds of the flush
  · intro s roots b rest hs
    exact meets_false.mpr (hs.processed hE hg hsettles)
  · intro s root roots hs hnone
    exact { hs with covers := hs.covers.skipped hnone }
  · intro s root roots blocks hs hlookup
    refine ⟨hs.sound.withQueue _, fun b hb => hs.waiting b ?_, hs.covers.taken hlookup, hs.peaks.1,
      hs.peaks.2⟩
    rcases hb with hb | hb
    · exact Or.inl (Store.queued_erase hb)
    · exact Or.inl (Store.mem_queued.mpr ⟨root, blocks, hlookup, hb⟩)
  -- the block is known, is queued, or is processed
  · intro hknown
    exact { inv with covers := inv.covers.delivered_known hknown }
  · intro _ hmissing _
    refine ⟨inv.sound.withQueue _, fun b hb => ?_, inv.covers.delivered_waiting hmissing,
      inv.peaks.1, inv.peaks.2⟩
    rcases Store.mem_queued_enqueue (by simpa using hb) with hb | rfl
    · exact inv.waiting b (Or.inl hb)
    · exact hsb
  · intro _ hparent
    refine ⟨inv.sound, fun b hb => ?_, inv.covers.delivered_now hparent, inv.peaks⟩
    rcases hb with hb | hb
    · exact inv.waiting b (Or.inl hb)
    · rw [List.mem_singleton.mp hb]
      exact hsb

include hE hg hsettles in
/-- Every call but block production returns. -/
theorem apply (inv : ArrivalInv E g delivered arrived store [] []) {op : StoreOp}
    (hdelivered : ∀ b ∈ op.delivered, b ∈ delivered)
    (hop : ∀ slot validatorIndex orders, op ≠ .produce slot validatorIndex orders) :
    (store.apply E op).Yields fun s =>
      ArrivalInv E g delivered (fun b => arrived b ∨ b ∈ op.delivered) s [] [] := by
  -- a call without a block keeps what has arrived
  have hquiet : ∀ s : Store, ArrivalInv E g delivered arrived s [] [] → op.delivered = [] →
      ArrivalInv E g delivered (fun b => arrived b ∨ b ∈ op.delivered) s [] [] := by
    intro s hs hnone
    rw [hnone]
    exact hs.mono fun b hb => hb.resolve_right (by simp)
  have hattestation : ∀ (sa : SignedAttestation) (isFromBlock : Bool),
      (store.onAttestation E sa isFromBlock).Yields fun after =>
        ArrivalInv E g delivered arrived after.state [] [] := by
    intro sa isFromBlock
    obtain ⟨after, hafter, hsound⟩ := inv.sound.onAttestation sa isFromBlock
    exact ⟨after, hafter, inv.frame (Store.onAttestation_frame hafter).1 hsound⟩
  cases op with
  | tick now hasProposal =>
    obtain ⟨s, hs, hsound⟩ := inv.sound.onTick hg hE now hasProposal
    exact ⟨s, hs, hquiet s (inv.frame (Store.onTick_sameTree hs) hsound) rfl⟩
  | attestation sa isFromBlock =>
    exact yields_bind (hattestation sa isFromBlock) fun after hs => yields_ok (hquiet _ hs rfl)
  | gossipAttestation sa =>
    exact yields_bind (hattestation sa false) fun after hs => yields_ok (hquiet _ hs rfl)
  | block sb =>
    refine yields_bind (inv.onBlock hE hg hsettles (hdelivered sb (by simp [StoreOp.delivered])))
      fun after hs => yields_ok ?_
    exact hs.mono fun b hb => hb.imp_right fun h => by simpa [StoreOp.delivered] using h
  | produce slot validatorIndex orders => exact absurd rfl (hop slot validatorIndex orders)

include hE hg hsettles in
theorem run {ops : List StoreOp} (inv : ArrivalInv E g delivered arrived store [] [])
    (hdelivered : ∀ b ∈ deliveredBlocks ops, b ∈ delivered)
    (hops : ∀ slot validatorIndex orders, StoreOp.produce slot validatorIndex orders ∉ ops) :
    (store.run E ops).Yields fun s =>
      ArrivalInv E g delivered (fun b => arrived b ∨ b ∈ deliveredBlocks ops) s [] [] := by
  induction ops generalizing store arrived with
  | nil => exact yields_ok (inv.mono fun b hb => hb.resolve_right (by simp [deliveredBlocks]))
  | cons op rest ih =>
    unfold Store.run
    rw [List.foldlM_cons]
    refine yields_bind (inv.apply hE hg hsettles
      (fun b hb => hdelivered b (by simp [deliveredBlocks, hb]))
      fun slot v o heq => hops slot v o (by simp [heq])) fun s hs => ?_
    refine (ih hs (fun b hb => hdelivered b ?_)
      fun slot v o hmem => hops slot v o (by simp [hmem])).imp
      fun s' hs' => hs'.mono fun b hb => ?_
    · simp only [deliveredBlocks, List.flatMap_cons, List.mem_append]
      exact Or.inr hb
    · simp only [deliveredBlocks, List.flatMap_cons, List.mem_append] at hb ⊢
      rwa [or_assoc]

end ArrivalInv

/-! ## The store after all deliveries -/

section Arrived

variable {E : Env} {g : State} {delivered : List SignedBlockWithAttestation} {store : Store}
  {time : ℕ} {validators : List Validator} {anchor : SignedBlockWithAttestation}

/-- The store holds exactly what the delivered blocks make acceptable. -/
structure Arrived (E : Env) (g : State) (delivered : List SignedBlockWithAttestation)
    (store : Store) : Prop where
  blocks_iff : ∀ root block, store.blocks.lookup root = some block ↔
    block.hashTreeRoot E = root ∧ ∃ state, Accepted E g (· ∈ delivered) block state
  states_iff : ∀ root state, store.states.lookup root = some state ↔
    ∃ block, block.hashTreeRoot E = root ∧ Accepted E g (· ∈ delivered) block state
  justified_max : IsGreatest
    { n | ∃ block state, Accepted E g (· ∈ delivered) block state ∧ state.latestJustified.slot = n }
    store.latestJustified.slot
  finalized_max : IsGreatest
    { n | ∃ block state, Accepted E g (· ∈ delivered) block state ∧ state.latestFinalized.slot = n }
    store.latestFinalized.slot
  queue_waits : ∀ parent blocks, store.blocksQueue.lookup parent = some blocks →
    parent ∉ store.blocks ∧ ∀ b ∈ blocks, b ∈ delivered ∧ b.block.parentRoot = parent

/-- An acceptable block whose deliveries have all arrived is stored. -/
theorem ArrivalInv.stored (hE : E.HashIdeal)
    (inv : ArrivalInv E g delivered (· ∈ delivered) store [] []) {block : Block} {state : State}
    (h : Accepted E g (· ∈ delivered) block state) :
    Accepted E g (store.Holds E (· ∈ delivered)) block state := by
  induction h with
  | anchor => exact Accepted.anchor
  | child sb hsb _ hroot htrans ih =>
    -- the parent is stored, so the block is not waiting, and not rejected
    have hparent := (inv.sound.tree.lookup_of_accepted hE ih).2
    rw [← hroot] at hparent
    refine Accepted.child sb ⟨hsb, ?_⟩ ih hroot htrans
    rcases inv.covers.decided_or_missing hsb trivial with hdec | hmissing
    · rcases hdec with hmem | hzero | ⟨parent', msg, hparent', hreject⟩
      · exact hmem
      · rw [hroot] at hzero
        exact absurd hzero (Block.hashTreeRoot_ne_zero hE _)
      · obtain rfl := Option.some.inj (hparent.symm.trans hparent')
        exact absurd (hreject.symm.trans htrans) (by simp)
    · exact absurd (AList.mem_iff_exists_lookup.mpr ⟨_, hparent⟩) hmissing

theorem ArrivalInv.arrived (hE : E.HashIdeal)
    (inv : ArrivalInv E g delivered (· ∈ delivered) store [] []) :
    Arrived E g delivered store := by
  have hdelivered : ∀ {block state}, Accepted E g (store.Holds E (· ∈ delivered)) block state →
      Accepted E g (· ∈ delivered) block state := fun h => h.mono fun _ hb => hb.1
  have hstates : ∀ root state, store.states.lookup root = some state ↔
      ∃ block, block.hashTreeRoot E = root ∧ Accepted E g (· ∈ delivered) block state := by
    intro root state
    constructor
    · intro h
      obtain ⟨block, -, hroot, hacc⟩ := inv.sound.tree.accepted_of_state h
      exact ⟨block, hroot, hdelivered hacc⟩
    · rintro ⟨block, rfl, hacc⟩
      exact (inv.sound.tree.lookup_of_accepted hE (inv.stored hE hacc)).2
  -- the checkpoints of the stored states are those of the accepted ones
  have hslots : ∀ c : State → Checkpoint, store.slotsOf c =
      { n | ∃ block state, Accepted E g (· ∈ delivered) block state ∧ (c state).slot = n } := by
    intro c
    ext n
    constructor
    · rintro ⟨root, state, hstate, hn⟩
      obtain ⟨block, -, hacc⟩ := (hstates root state).mp hstate
      exact ⟨block, state, hacc, hn⟩
    · rintro ⟨block, state, hacc, hn⟩
      exact ⟨_, state, (hstates _ state).mpr ⟨block, rfl, hacc⟩, hn⟩
  exact {
    blocks_iff := by
      intro root block
      constructor
      · intro h
        obtain ⟨state, -, hacc⟩ := inv.sound.tree.accepted root block h
        exact ⟨inv.sound.tree.keyed root block h, state, hdelivered hacc⟩
      · rintro ⟨rfl, state, hacc⟩
        exact (inv.sound.tree.lookup_of_accepted hE (inv.stored hE hacc)).1
    states_iff := hstates
    justified_max := by rw [← hslots State.latestJustified]; exact inv.peaks.justified
    finalized_max := by rw [← hslots State.latestFinalized]; exact inv.peaks.finalized
    queue_waits := by
      intro parent blocks hlookup
      refine ⟨fun hmem => ?_, fun b hb => ⟨?_, inv.covers.queue_keyed parent blocks hlookup b hb⟩⟩
      · -- a stored parent with blocks waiting would still be on the stack, which is empty
        have hqueue := AList.mem_iff_exists_lookup.mpr ⟨blocks, hlookup⟩
        exact absurd (inv.covers.pending parent trivial hqueue (inv.sound.tree.mem_iff.mp hmem))
          (by simp)
      · exact inv.waiting b (Or.inl (Store.mem_queued.mpr ⟨parent, blocks, hlookup, hb⟩)) }

/-- A run without block production returns if no state transition of a delivered block panics,
    and its store is the one of the delivered blocks. -/
theorem exists_arrived (hE : E.HashIdeal)
    (hg : generateGenesisWithValidators E time validators = .ok g)
    (hanchor : anchor.block = genesisBlock E g) (config : Config) {ops : List StoreOp}
    (hops : ∀ slot validatorIndex orders, StoreOp.produce slot validatorIndex orders ∉ ops)
    (hdelivered : ∀ b, b ∈ deliveredBlocks ops ↔ b ∈ delivered)
    (hsettles : ∀ b ∈ delivered, Settles E g (· ∈ delivered) b) :
    ((getForkchoiceStore E g anchor config).run E ops).Yields (Arrived E g delivered) := by
  have inv : ArrivalInv E g delivered (fun _ => False) (getForkchoiceStore E g anchor config)
    [] [] := ArrivalInv.genesis hg hanchor config
  refine (inv.run hE hg hsettles (fun b hb => (hdelivered b).mp hb) hops).imp fun s hs => ?_
  exact (hs.mono fun b hb => Or.inr ((hdelivered b).mpr hb)).arrived hE

/-- The order of arrival does not matter: the run ends with the store of the delivered blocks,
    and every other run that delivers the same blocks ends with the same blocks and states. -/
theorem arrival_order_does_not_matter (hE : E.HashIdeal)
    (hg : generateGenesisWithValidators E time validators = .ok g)
    (hanchor : anchor.block = genesisBlock E g) (config : Config) {ops : List StoreOp}
    (hops : ∀ slot validatorIndex orders, StoreOp.produce slot validatorIndex orders ∉ ops)
    (hsettles : ∀ b ∈ deliveredBlocks ops, Settles E g (· ∈ deliveredBlocks ops) b) :
    ∃ store, (getForkchoiceStore E g anchor config).run E ops = .ok store ∧
      Arrived E g (deliveredBlocks ops) store ∧
      ∀ config' ops',
        (∀ slot validatorIndex orders, StoreOp.produce slot validatorIndex orders ∉ ops') →
        (∀ b, b ∈ deliveredBlocks ops' ↔ b ∈ deliveredBlocks ops) →
        ∃ store', (getForkchoiceStore E g anchor config').run E ops' = .ok store' ∧
          ∀ root, store'.blocks.lookup root = store.blocks.lookup root ∧
            store'.states.lookup root = store.states.lookup root := by
  obtain ⟨store, hrun, harrived⟩ :=
    exists_arrived hE hg hanchor config hops (fun _ => Iff.rfl) hsettles
  refine ⟨store, hrun, harrived, fun config' ops' hops' hsame => ?_⟩
  obtain ⟨store', hrun', harrived'⟩ := exists_arrived hE hg hanchor config' hops' hsame hsettles
  refine ⟨store', hrun', fun root => ⟨Option.ext fun block => ?_, Option.ext fun state => ?_⟩⟩
  · exact (harrived'.blocks_iff root block).trans (harrived.blocks_iff root block).symm
  · exact (harrived'.states_iff root state).trans (harrived.states_iff root state).symm

end Arrived

/-! ## Two blocks in either order -/

namespace SoloChain

/-- The blocks at slots 2 and 3 in the order of the chain. -/
def inOrder : List StoreOp := [.block (block 2 1 2 []), .block (block 3 2 3 [])]

theorem accepted_state2 : Accepted env genesis (fun _ => True) (block 2 1 2 []).block state2 :=
  Accepted.child (block 2 1 2 []) trivial Accepted.anchor (by decide +kernel) (by decide +kernel)

/-- The state of their parent returns on each of the two blocks. -/
theorem settles {b : SignedBlockWithAttestation} (hb : b ∈ deliveredBlocks twoBlocks)
    (offered : SignedBlockWithAttestation → Prop) : Settles env genesis offered b := by
  intro parent state hacc hroot
  have hE : env.HashIdeal := Env.tabulated_hashIdeal _
  have hblocks : b = block 3 2 3 [] ∨ b = block 2 1 2 [] := by
    simpa [deliveredBlocks, twoBlocks, StoreOp.delivered] using hb
  rcases hblocks with rfl | rfl
  · -- the parent is the block at slot 2
    have hparent : parent = (block 2 1 2 []).block := Block.hashTreeRoot_injective hE
      (hroot.symm.trans (by decide +kernel))
    subst hparent
    rw [hacc.state_unique hE accepted_state2]
    exact Or.inl ⟨state3, by decide +kernel⟩
  · -- the parent is the genesis block
    have hparent : parent = genesisBlock env genesis := Block.hashTreeRoot_injective hE
      (hroot.symm.trans (by decide +kernel))
    subst hparent
    have hanchor : Accepted env genesis (fun _ => True) (genesisBlock env genesis) genesis :=
      Accepted.anchor
    rw [hacc.state_unique hE hanchor]
    exact Or.inl ⟨state2, by decide +kernel⟩

end SoloChain

/-- The block at slot 3 before its parent, with ticks in between, or after it. -/
theorem two_blocks_in_either_order :
    ∃ store store', GenesisVotes.init.run SoloChain.env SoloChain.twoBlocks = .ok store ∧
      GenesisVotes.init.run SoloChain.env SoloChain.inOrder = .ok store' ∧
      Arrived SoloChain.env SoloChain.genesis (deliveredBlocks SoloChain.twoBlocks) store ∧
      store'.states.lookup 3 = store.states.lookup 3 := by
  obtain ⟨store, hrun, harrived, hother⟩ := arrival_order_does_not_matter
    (Env.tabulated_hashIdeal _)
    (show generateGenesisWithValidators SoloChain.env 0 [{ pubkey := 7, index := 0 }] =
      .ok SoloChain.genesis from rfl) (show GenesisVotes.anchor.block = _ from rfl)
    { genesisTime := 0 } (show ∀ _ _ _, StoreOp.produce _ _ _ ∉ SoloChain.twoBlocks by
      simp [SoloChain.twoBlocks]) fun b hb => SoloChain.settles hb _
  obtain ⟨store', hrun', hsame⟩ := hother { genesisTime := 0 } SoloChain.inOrder
    (by simp [SoloChain.inOrder]) fun b => by
      simp [deliveredBlocks, SoloChain.twoBlocks, SoloChain.inOrder, StoreOp.delivered, or_comm]
  exact ⟨store, store', hrun, hrun', harrived, (hsame 3).2⟩

end ConsensusClient
