import ConsensusClient.Node.ImportedBlocks

/-!
# One-Time Keys

The key of a validator for an epoch may sign one message only. Two duties sign with the key of a
slot: the proposer signs its vote with the block at interval 0, and again with the other
attestations at interval 1. Both votes are computed from the store, so they agree as long as the
store shows the same blocks, head, safe target and checkpoints at both times. Ticks and
attestations do not change these in between, and blocks do.

## Main results

* `KeyInv.propose`, `KeyInv.attest`: the two duties that sign
* `KeyInv.step`: a round of the loop keeps the invariant of the keys
* `one_message_per_epoch`: no key signs twice, if no block is imported between the duties
* `epoch_two_signed_twice`: a block between them, and two messages for one epoch
-/

namespace ConsensusClient

/-! ## What a vote depends on -/

/-- The two stores give the same vote. -/
structure SameView (s s' : Store) : Prop where
  blocks : s'.blocks = s.blocks
  head : s'.head = s.head
  safeTarget : s'.safeTarget = s.safeTarget
  latestJustified : s'.latestJustified = s.latestJustified
  latestFinalized : s'.latestFinalized = s.latestFinalized

section View

variable {E : Env} {s s' : Store}

theorem SameView.refl (s : Store) : SameView s s := ⟨rfl, rfl, rfl, rfl, rfl⟩

theorem SameView.blockAt (h : SameView s s') (root : H256) : s'.blockAt root = s.blockAt root := by
  unfold Store.blockAt
  rw [h.blocks]

theorem SameView.walkToSafe (h : SameView s s') (safeSlot rounds : ℕ) (target : H256) :
    s'.walkToSafe safeSlot rounds target = s.walkToSafe safeSlot rounds target := by
  induction rounds generalizing target with
  | zero => rfl
  | succ rounds ih => simp only [Store.walkToSafe, h.blockAt, ih]

theorem SameView.walkToJustifiable (h : SameView s s') (fuel : ℕ) (target : H256) :
    s'.walkToJustifiable fuel target = s.walkToJustifiable fuel target := by
  induction fuel generalizing target with
  | zero => rfl
  | succ fuel ih => simp only [Store.walkToJustifiable, h.blockAt, h.latestFinalized, ih]

theorem SameView.produceAttestationData (h : SameView s s') (slot : ℕ) :
    s'.produceAttestationData slot = s.produceAttestationData slot := by
  have htarget : s'.getAttestationTarget = s.getAttestationTarget := by
    simp only [Store.getAttestationTarget, h.blockAt, h.walkToSafe, h.walkToJustifiable,
      h.safeTarget, h.head, h.blocks]
  unfold Store.produceAttestationData
  rw [htarget, h.blocks, h.head, h.latestJustified]

/-- The block is new to the store, and the state of its parent accepts it. -/
def Store.Imports (E : Env) (store : Store) (sb : SignedBlockWithAttestation) : Prop :=
  sb.block.hashTreeRoot E ∉ store.blocks ∧
    ∃ parent post, store.states.lookup sb.block.parentRoot = some parent ∧
      parent.stateTransition E sb true = .ok post

/-- A block that is not imported does not change the votes. -/
theorem Store.onBlock_sameView {sb : SignedBlockWithAttestation}
    {after : After Store (List SignedBlockWithAttestation)} (hnot : ¬ s.Imports E sb)
    (h : s.onBlock E sb = .ok after) : SameView s after.state := by
  cases Store.onBlock_delivery h with
  | known hknown => exact SameView.refl s
  | queued hnew hmissing msg => exact ⟨rfl, rfl, rfl, rfl, rfl⟩
  | rejected hnew hreject msg => exact SameView.refl s
  | imported s₁ parent post head f hnew himp hflush =>
    exact absurd ⟨hnew, parent, post, himp.parent_state, himp.transition⟩ hnot

end View

/-! ## Time -/

section Time

variable {E : Env} {store store' : Store}

theorem Store.Reaches.time_le (h : store.Reaches E store') : store.time ≤ store'.time := by
  obtain ⟨ops, h⟩ := h
  refine Store.run_induction (P := fun s => store.time ≤ s.time) ?_ le_rfl h
  intro pre op post s s' _ _ hs hop
  exact hs.trans (Store.apply_time_le hop)

end Time

/-! ## The invariant -/

/-- The current slot. -/
def Node.slot (node : Node) : ℕ := node.store.time / intervalsPerSlot

/-- The current interval of the slot. -/
def Node.interval (node : Node) : ℕ := node.store.time % intervalsPerSlot

/-- No epoch was used for two messages, and no epoch of the future was used. -/
structure SignedOnce (node : Node) : Prop where
  same : ∀ c ∈ node.signCalls, ∀ c' ∈ node.signCalls, c.epoch = c'.epoch →
    c.message = c'.message
  past : ∀ c ∈ node.signCalls, c.epoch ≤ node.slot

/-- What a running node knows about the epoch of the current slot. -/
structure KeyInv (E : Env) (node : Node) : Prop extends SignedOnce node where
  /-- At interval 0 only the proposal has used it. -/
  proposed : node.fault = none → node.interval = 0 → ∀ c ∈ node.signCalls,
    c.epoch = node.slot → node.lastProposalSlot = some node.slot
  /-- Until the attestations are made, it was used for the vote that the store gives now. -/
  pending : node.fault = none → node.interval ≤ 1 →
    node.lastAttestationSlot ≠ some node.slot → ∀ c ∈ node.signCalls, c.epoch = node.slot →
    ∃ data, node.store.produceAttestationData node.slot = .ok data ∧ c.message = E.hashData data

section Invariant

variable {E : Env} {node node' : Node}

/-- A node that has ended signs no more. -/
theorem SignedOnce.ended (h : SignedOnce node) (hcalls : node'.signCalls = node.signCalls)
    (htime : node'.store.time = node.store.time) (hfault : node'.fault ≠ none) :
    KeyInv E node' where
  same := by rw [hcalls]; exact h.same
  past := by
    unfold Node.slot
    rw [hcalls, htime]
    exact h.past
  proposed := fun hnone => absurd hnone hfault
  pending := fun hnone => absurd hnone hfault

theorem KeyInv.frame (inv : KeyInv E node) (hview : SameView node.store node'.store)
    (htime : node'.store.time = node.store.time) (hcalls : node'.signCalls = node.signCalls)
    (hproposal : node'.lastProposalSlot = node.lastProposalSlot)
    (hattestation : node'.lastAttestationSlot = node.lastAttestationSlot)
    (hfault : node'.fault = node.fault) : KeyInv E node' := by
  have hslot : node'.slot = node.slot := by
    unfold Node.slot
    rw [htime]
  have hinterval : node'.interval = node.interval := by
    unfold Node.interval
    rw [htime]
  constructor
  · exact ⟨by rw [hcalls]; exact inv.same, by rw [hcalls, hslot]; exact inv.past⟩
  · rw [hcalls, hslot, hinterval, hproposal, hfault]
    exact inv.proposed
  · rw [hcalls, hslot, hinterval, hattestation, hfault, hview.produceAttestationData]
    exact inv.pending

/-- A tick keeps the invariant: it stays in the two intervals, or it leaves the slot behind. -/
theorem KeyInv.tick (inv : KeyInv E node) {now : ℕ} {store : Store}
    (h : node.store.onTick now false = .ok store) : KeyInv E { node with store } := by
  have htime := Store.onTick_time_le h
  have hpast : ∀ c ∈ node.signCalls, c.epoch ≤ node.slot := inv.past
  -- a call for the slot after the tick was made in the same slot before it
  have hsame : ∀ c ∈ node.signCalls, c.epoch = Node.slot { node with store } →
      Node.slot { node with store } = node.slot := by
    intro c hc hepoch
    apply le_antisymm
    · rw [← hepoch]
      exact hpast c hc
    · exact Nat.div_le_div_right htime
  constructor
  · refine ⟨inv.same, fun c hc => (hpast c hc).trans ?_⟩
    exact Nat.div_le_div_right htime
  · intro hfault hinterval c hc hepoch
    have hslot := hsame c hc hepoch
    -- interval 0 after the tick is interval 0 before it
    have hzero : node.interval = 0 := by
      unfold Node.slot intervalsPerSlot at hslot
      unfold Node.interval intervalsPerSlot at hinterval ⊢
      simp only at hslot hinterval
      omega
    rw [hslot] at hepoch ⊢
    exact inv.proposed hfault hzero c hc hepoch
  · intro hfault hinterval hlast c hc hepoch
    have hslot := hsame c hc hepoch
    have hview : SameView node.store store := by
      rw [Store.onTick_quiet h hslot hinterval]
      exact ⟨rfl, rfl, rfl, rfl, rfl⟩
    have hone : node.interval ≤ 1 := by
      unfold Node.slot intervalsPerSlot at hslot
      unfold Node.interval intervalsPerSlot at hinterval ⊢
      simp only at hslot hinterval
      omega
    rw [hslot] at hepoch hlast ⊢
    rw [hview.produceAttestationData]
    exact inv.pending hfault hone hlast c hc hepoch

/-- New calls for the current slot, all for the vote that the store gives, join the log. -/
theorem SignedOnce.append (h : SignedOnce node) {calls : List SignCall}
    (hold : ∀ c ∈ node.signCalls, c.epoch = node.slot → ∃ data,
      node'.store.produceAttestationData node.slot = .ok data ∧ c.message = E.hashData data)
    (hnew : ∀ c ∈ calls, c.epoch = node.slot ∧ ∃ data,
      node'.store.produceAttestationData node.slot = .ok data ∧ c.message = E.hashData data)
    (hcalls : node'.signCalls = node.signCalls ++ calls) (hslot : node'.slot = node.slot) :
    SignedOnce node' := by
  -- all calls for the current slot carry the same message
  have hmessage : ∀ c ∈ node'.signCalls, c.epoch = node.slot → ∃ data,
      node'.store.produceAttestationData node.slot = .ok data ∧
        c.message = E.hashData data := by
    intro c hc hepoch
    rw [hcalls] at hc
    rcases List.mem_append.mp hc with hc | hc
    · exact hold c hc hepoch
    · exact (hnew c hc).2
  constructor
  · intro c hc c' hc' hepoch
    by_cases hcur : c.epoch = node.slot
    · obtain ⟨data, hdata, hm⟩ := hmessage c hc hcur
      obtain ⟨data', hdata', hm'⟩ := hmessage c' hc' (hepoch ▸ hcur)
      rw [hm, hm', Except.ok.inj (hdata.symm.trans hdata')]
    · -- a call for another slot is an old one
      have hmem : ∀ d ∈ node'.signCalls, d.epoch ≠ node.slot → d ∈ node.signCalls := by
        intro d hd hne
        rw [hcalls] at hd
        exact (List.mem_append.mp hd).resolve_right fun hd => hne (hnew d hd).1
      exact h.same c (hmem c hc hcur) c' (hmem c' hc' (hepoch ▸ hcur)) hepoch
  · intro c hc
    rw [hslot]
    rw [hcalls] at hc
    rcases List.mem_append.mp hc with hc | hc
    · exact h.past c hc
    · exact (hnew c hc).1.le

end Invariant

/-! ## Duties -/

section Duties

variable {E : Env} {vs : ValidatorService} {node : Node}

theorem epochOf_eq {slot : ℕ} (h : slot < 2 ^ 32) : epochOf slot = slot := Nat.mod_eq_of_lt h

/-- The calls of a proposal at the beginning of the slot: each signs the vote that the store
    gives afterwards, and the time does not move. -/
theorem ValidatorService.buildBlockProposal_calls {orders : IterationOrders} {proposerIndex : ℕ}
    {proposal : Proposal}
    (hinterval : node.interval = 0)
    (h : vs.buildBlockProposal E orders node.store node.slot proposerIndex = .ok proposal) :
    proposal.store.time = node.store.time ∧ ∀ c ∈ proposal.signed.calls,
      c.epoch = epochOf node.slot ∧ ∃ data,
        proposal.store.produceAttestationData node.slot = .ok data ∧
        c.message = E.hashData data := by
  obtain ⟨s₀, h₀, hcases⟩ := ValidatorService.buildBlockProposal_cases h
  -- the store is at the beginning of the slot already
  have htime : s₀.time = node.store.time := by
    rw [Store.getProposalHead_time h₀]
    unfold Node.slot intervalsPerSlot
    unfold Node.interval intervalsPerSlot at hinterval
    omega
  rcases hcases with ⟨built, hbuilt, hstore, hsigned, -⟩ | ⟨rfl, -⟩
  · refine ⟨by rw [hstore]; exact htime, fun c hc => ?_⟩
    obtain ⟨data, hdata, rfl⟩ := (ValidatorService.signBlock_eq_ok hsigned).1 c hc
    rw [Store.buildOnHead_slot hbuilt] at hdata ⊢
    exact ⟨rfl, data, hdata, rfl⟩
  · exact ⟨htime, by simp⟩

/-- The proposal uses the epoch of its slot for the first time. -/
theorem KeyInv.propose (inv : KeyInv E node) (hfault : node.fault = none)
    (hinterval : node.interval = 0) (hlast : node.lastProposalSlot ≠ some node.slot)
    (hbound : node.slot < 2 ^ 32) (proposerIndex later : ℕ) (orders : IterationOrders) :
    KeyInv E (node.propose E vs node.slot proposerIndex later orders) := by
  unfold Node.propose
  refine Node.call_induction (fun e => inv.toSignedOnce.ended rfl rfl (by simp))
    fun proposal hproposal => ?_
  obtain ⟨htime, hcalls⟩ := ValidatorService.buildBlockProposal_calls hinterval hproposal
  have hunused : ∀ c ∈ node.signCalls, c.epoch ≠ node.slot := fun c hc hepoch =>
    hlast (inv.proposed hfault hinterval c hc hepoch)
  -- the node once the proposal is marked as made
  have hmarked : KeyInv E { node with
      store := proposal.store
      signCalls := node.signCalls ++ proposal.signed.calls
      produced := node.produced ++ node.store.producedRoot E orders node.slot proposerIndex
      lastProposalSlot := some node.slot } := by
    have hslot : Node.slot { node with
        store := proposal.store
        signCalls := node.signCalls ++ proposal.signed.calls
        produced := node.produced ++ node.store.producedRoot E orders node.slot proposerIndex
        lastProposalSlot := some node.slot } = node.slot := by
      unfold Node.slot
      simp only [htime]
    rw [epochOf_eq hbound] at hcalls
    constructor
    · exact inv.toSignedOnce.append (E := E)
        (fun c hc hepoch => absurd hepoch (hunused c hc)) hcalls rfl hslot
    · intro _ _ c _ _
      rw [hslot]
    · intro _ _ _ c hc hepoch
      rw [hslot] at hepoch ⊢
      rcases List.mem_append.mp hc with hc | hc
      · exact absurd hepoch (hunused c hc)
      · exact (hcalls c hc).2
  simp only
  split
  · rename_i sb hsb
    -- the own block is known, so `on_block` does nothing but the tick
    rw [Node.processOwnBlock_eq (ValidatorService.buildBlockProposal_mem hproposal hsb)]
    refine Node.call_induction (fun e => ?_) fun store hstore => ?_
    · exact hmarked.toSignedOnce.ended rfl rfl (by simp)
    · exact (hmarked.tick hstore).frame (SameView.refl _) rfl rfl rfl rfl rfl
  · exact hmarked

/-- The own attestations are processed without signing, and marked as made at the end. -/
theorem Node.broadcast_keeps (E : Env) (slot : ℕ) (attestations : List SignedAttestation)
    (node : Node) :
    (Node.broadcast E slot attestations node).signCalls = node.signCalls ∧
      (Node.broadcast E slot attestations node).store.time = node.store.time ∧
      ((Node.broadcast E slot attestations node).fault = none →
        (Node.broadcast E slot attestations node).lastAttestationSlot = some slot) := by
  induction attestations generalizing node with
  | nil => exact ⟨rfl, rfl, fun _ => rfl⟩
  | cons sa rest ih =>
    unfold Node.broadcast Node.processAttestation
    refine Node.call_induction (P := fun n => n.signCalls = node.signCalls ∧
      n.store.time = node.store.time ∧ (n.fault = none → n.lastAttestationSlot = some slot))
      (fun e => ⟨rfl, rfl, fun hfault => absurd hfault (by simp)⟩) fun after hafter => ?_
    have htime := (Store.onAttestation_frame hafter).2.1
    simp only [if_true]
    split
    · obtain ⟨hcalls, htime', hlast⟩ := ih (Node.send { node with store := after.state }
        (.gossipAttestation sa))
      exact ⟨hcalls, htime'.trans htime, hlast⟩
    · obtain ⟨hcalls, htime', hlast⟩ := ih { node with store := after.state }
      exact ⟨hcalls, htime'.trans htime, hlast⟩

/-- The attestations use the epoch of the slot for the vote the proposal used it for. -/
theorem KeyInv.attest (inv : KeyInv E node) (hfault : node.fault = none)
    (hinterval : node.interval = 1) (hlast : node.lastAttestationSlot ≠ some node.slot)
    (hbound : node.slot < 2 ^ 32) : KeyInv E (node.attest E vs node.slot) := by
  unfold Node.attest
  refine Node.call_induction (fun e => inv.toSignedOnce.ended rfl rfl (by simp)) fun r hr => ?_
  have hnew := ValidatorService.createAttestations_calls hr
  -- the broadcast adds no call and stays in the interval
  obtain ⟨hcalls, htime, hmarked⟩ := Node.broadcast_keeps E node.slot r.2
    { node with signCalls := node.signCalls ++ r.1 }
  generalize Node.broadcast E node.slot r.2 { node with signCalls := node.signCalls ++ r.1 } = n
    at hcalls htime hmarked ⊢
  have hslot : n.slot = node.slot := by
    unfold Node.slot
    rw [htime]
  have hone : n.interval = 1 := by
    unfold Node.interval at hinterval ⊢
    rw [htime]
    exact hinterval
  have hsigned : SignedOnce { node with signCalls := node.signCalls ++ r.1 } := by
    -- an earlier call of the slot was for the vote that the store still gives
    refine inv.toSignedOnce.append (E := E) (inv.pending hfault hinterval.le hlast) ?_ rfl rfl
    intro c hc
    obtain ⟨data, hdata, hepoch, hmessage⟩ := hnew c hc
    exact ⟨hepoch.trans (epochOf_eq hbound), data, hdata, hmessage⟩
  constructor
  · refine ⟨by rw [hcalls]; exact hsigned.same, ?_⟩
    rw [hcalls, hslot]
    exact hsigned.past
  · intro _ hzero
    omega
  · intro hfault' _ hlast'
    rw [hslot] at hlast'
    exact absurd (hmarked hfault') hlast'

/-- The duties of an interval. -/
theorem KeyInv.duties (inv : KeyInv E node) (hfault : node.fault = none)
    (hbound : node.slot < 2 ^ 32) (later : ℕ) (orders : IterationOrders) :
    KeyInv E (node.duties E vs later orders) := by
  unfold Node.duties
  simp only
  split
  · rename_i hzero
    split_ifs with hlast
    · split
      · exact inv.propose hfault hzero hlast hbound _ later orders
      · exact inv
    · exact inv
  · rename_i hone
    split_ifs with hlast
    · exact inv.attest hfault hone hlast hbound
    · exact inv
  · exact inv

end Duties

/-! ## Runs -/

/-- The node has signed in the current slot, and its attestations of the slot are still to
    come. -/
def Node.AwaitsAttestation (node : Node) : Prop :=
  node.interval ≤ 1 ∧ node.lastAttestationSlot ≠ some node.slot ∧
    ∃ c ∈ node.signCalls, c.epoch = node.slot

/-- No block is imported between the signature of a proposal and the attestations of its slot. -/
def NoImportBeforeAttesting (E : Env) (node : Node) : ChainEvent → Prop
  | .message (.processBlock sb _) now =>
    ∀ store, node.store.onTick now false = .ok store → store.Imports E sb →
      ¬ Node.AwaitsAttestation { node with store }
  | _ => True

section Runs

variable {E : Env} {vs : Option ValidatorService} {node : Node}

/-- A block that is delivered: it is not imported, or the slot has no attestation to come. -/
theorem KeyInv.withBlocks (inv : KeyInv E node) {sb : SignedBlockWithAttestation}
    {after : After Store (List SignedBlockWithAttestation)}
    (hsb : node.store.Imports E sb → ¬ node.AwaitsAttestation)
    (h : node.store.onBlock E sb = .ok after) : KeyInv E (node.withBlocks after) := by
  have htime := Store.onBlock_time h
  by_cases himp : node.store.Imports E sb
  · -- the view may change, but the slot has no attestation to come
    have hslot : (node.withBlocks after).slot = node.slot := by
      unfold Node.slot Node.withBlocks
      rw [htime]
    have hinterval : (node.withBlocks after).interval = node.interval := by
      unfold Node.interval Node.withBlocks
      rw [htime]
    constructor
    · refine ⟨inv.same, ?_⟩
      rw [hslot]
      exact inv.past
    · rw [hslot, hinterval]
      exact inv.proposed
    · intro _ hone hlast c hc hepoch
      rw [hslot] at hlast hepoch
      rw [hinterval] at hone
      exact absurd ⟨hone, hlast, c, hc, hepoch⟩ (hsb himp)
  · exact inv.frame (Store.onBlock_sameView himp h) htime rfl rfl rfl rfl

/-- An attestation that is delivered does not change the vote of the slot. -/
theorem KeyInv.processAttestation (inv : KeyInv E node) (sa : SignedAttestation)
    (shouldGossip : Bool) : KeyInv E (node.processAttestation E sa shouldGossip id) := by
  unfold Node.processAttestation
  refine Node.call_induction (fun e => inv.toSignedOnce.ended rfl rfl (by simp))
    fun after hafter => ?_
  obtain ⟨htree, htime, hhead, hsafe⟩ := Store.onAttestation_frame hafter
  have hview : SameView node.store after.state :=
    ⟨htree.blocks, hhead, hsafe, htree.latestJustified, htree.latestFinalized⟩
  simp only [id]
  split
  · split_ifs
    · exact inv.frame hview htime rfl rfl rfl rfl
    · exact inv.frame hview htime rfl rfl rfl rfl
  · exact inv.frame hview htime rfl rfl rfl rfl

/-- A tick of the timer, with the duties of the interval it reaches. -/
theorem KeyInv.onTick (inv : KeyInv E node) (hfault : node.fault = none) {now later : ℕ}
    {orders : IterationOrders} (hbound : (node.onTick E vs now later orders).slot < 2 ^ 32) :
    KeyInv E (node.onTick E vs now later orders) := by
  unfold Node.onTick at hbound ⊢
  cases htick : node.store.onTick now false with
  | error e => exact inv.toSignedOnce.ended rfl rfl (Option.some_ne_none e)
  | ok store =>
    rw [htick] at hbound
    have inv₁ := inv.tick htick
    cases vs with
    | none => exact inv₁
    | some vs =>
      -- the duties run in a slot that is not later than the one in which they end
      refine inv₁.duties hfault (lt_of_le_of_lt ?_ hbound) later orders
      have hreaches : store.Reaches E (Node.duties E vs { node with store } later orders).store :=
        (Store.Reaches.survives E store).duties ⟨[], rfl⟩
      exact Nat.div_le_div_right hreaches.time_le

/-- A block message, processed in the slot that the wall clock shows. -/
theorem KeyInv.processBlock (inv : KeyInv E node) {sb : SignedBlockWithAttestation}
    {shouldGossip : Bool} {now : ℕ}
    (hevent : NoImportBeforeAttesting E node (.message (.processBlock sb shouldGossip) now)) :
    KeyInv E (node.processBlock E sb shouldGossip now) := by
  unfold Node.processBlock
  refine Node.call_induction (fun e => inv.toSignedOnce.ended rfl rfl (by simp))
    fun store hstore => ?_
  have inv₁ := inv.tick hstore
  refine Node.call_induction (fun e => inv₁.toSignedOnce.ended rfl rfl (by simp))
    fun after hafter => ?_
  have inv₂ := inv₁.withBlocks (hevent store hstore) hafter
  simp only
  split
  · split_ifs
    · exact inv₂.frame (SameView.refl _) rfl rfl rfl rfl rfl
    · exact inv₂
  · split_ifs
    · exact inv₂.frame (SameView.refl _) rfl rfl rfl rfl rfl
    · exact inv₂

/-- A round of the loop keeps the invariant, up to the last slot that has an epoch. -/
theorem KeyInv.step (inv : KeyInv E node) {event : ChainEvent}
    (hevent : NoImportBeforeAttesting E node event)
    (hbound : (node.step E vs event).slot < 2 ^ 32) : KeyInv E (node.step E vs event) := by
  cases hfault : node.fault with
  | some e =>
    -- the task has ended
    have hstep : node.step E vs event = node := by simp only [Node.step, hfault]
    rw [hstep]
    exact inv
  | none =>
    cases event with
    | tick now later orders =>
      have hstep : node.step E vs (.tick now later orders) = node.onTick E vs now later orders := by
        simp only [Node.step, hfault]
      rw [hstep] at hbound ⊢
      exact inv.onTick hfault hbound
    | message message now =>
      cases message with
      | processAttestation sa shouldGossip =>
        have hstep : node.step E vs (.message (.processAttestation sa shouldGossip) now) =
            node.processAttestation E sa shouldGossip id := by simp only [Node.step, hfault]
        rw [hstep]
        exact inv.processAttestation sa shouldGossip
      | processBlock sb shouldGossip =>
        have hstep : node.step E vs (.message (.processBlock sb shouldGossip) now) =
            node.processBlock E sb shouldGossip now := by simp only [Node.step, hfault]
        rw [hstep]
        exact inv.processBlock hevent

theorem KeyInv.start (E : Env) (store : Store) : KeyInv E (Node.start store) where
  same := by simp [Node.start]
  past := by simp [Node.start]
  proposed := by simp [Node.start]
  pending := by simp [Node.start]

/-- No key signs two messages for one epoch, in every run in which no block is imported between
    the signature of a proposal and the attestations of its slot. -/
theorem one_message_per_epoch {state : State} {block : SignedBlockWithAttestation}
    {config : Config} {events : List ChainEvent}
    (hrun : node = (Node.start (getForkchoiceStore E state block config)).run E vs events)
    (hslots : node.slot < 2 ^ 32)
    (hevents : (Node.start (getForkchoiceStore E state block config)).Always E vs
      (NoImportBeforeAttesting E) events) :
    ∀ c ∈ node.signCalls, ∀ c' ∈ node.signCalls, c.validatorIndex = c'.validatorIndex →
      c.epoch = c'.epoch → c.message = c'.message := by
  have hinv : node.slot < 2 ^ 32 → KeyInv E node := by
    rw [hrun]
    refine Node.run_induction (P := fun n => n.slot < 2 ^ 32 → KeyInv E n) ?_ hevents
      fun _ => KeyInv.start E _
    intro n event hevent hn hbound
    refine KeyInv.step (hn (lt_of_le_of_lt ?_ hbound)) hevent hbound
    -- the slot before the round is not later than the slot after it
    have hreaches : n.store.Reaches E (n.step E vs event).store := Node.step_reaches ⟨[], rfl⟩
    exact Nat.div_le_div_right hreaches.time_le
  intro c hc c' hc' _ hepoch
  exact (hinv hslots).same c hc c' hc' hepoch

end Runs

/-! ## A proposal and an attestation at slot 2 -/

namespace PairChain

/-- The proposal at slot 2 and the attestation a second later. -/
def duties : List ChainEvent := [.tick 8 8 .lastFirst, .tick 9 9 .lastFirst]

/-- The late block of the other validator after both. -/
def followed : List ChainEvent :=
  duties ++ [.message (.processBlock (foreign foreignSignature) true) 9]

/-- The same, with the block in between. -/
def interrupted : List ChainEvent :=
  [.tick 8 8 .lastFirst, .message (.processBlock (foreign foreignSignature) true) 8,
    .tick 9 9 .lastFirst]

/-- The vote for the late block at slot 2. -/
def lateVote : AttestationData := { data with head := ⟨3, 1⟩ }

end PairChain

/-- The block comes when the attestation of slot 2 has been signed. -/
theorem PairChain.followed_always :
    (Node.start init).Always env (some service) (NoImportBeforeAttesting env) followed := by
  refine ⟨trivial, trivial, ?_, trivial⟩
  rintro store htick - ⟨-, hlast, -⟩
  have htime := Store.tickTo_time htick
  apply hlast
  show ((Node.start init).run env (some service) duties).lastAttestationSlot =
    some (store.time / intervalsPerSlot)
  rw [htime]
  decide +kernel

/-- Both duties of slot 2 sign the same vote if a block is imported after them only. -/
theorem slot_two_signed_once :
    ∃ node, node = (Node.start PairChain.init).run PairChain.env (some PairChain.service)
        PairChain.followed ∧
      node.imported = [PairChain.foreign PairChain.foreignSignature] ∧
      node.signCalls = [⟨0, 2, 1⟩, ⟨0, 2, 1⟩] ∧
      ∀ c ∈ node.signCalls, ∀ c' ∈ node.signCalls, c.validatorIndex = c'.validatorIndex →
        c.epoch = c'.epoch → c.message = c'.message := by
  refine ⟨_, rfl, by decide +kernel, by decide +kernel, ?_⟩
  exact one_message_per_epoch rfl (by decide +kernel) PairChain.followed_always

/-- The block that arrives between the two duties becomes the head, and the key of epoch 2 signs
    a second vote. -/
theorem epoch_two_signed_twice :
    ∃ node, node = (Node.start PairChain.init).run PairChain.env (some PairChain.service)
        PairChain.interrupted ∧
      node.slot < 2 ^ 32 ∧
      ¬ ∀ c ∈ node.signCalls, ∀ c' ∈ node.signCalls, c.validatorIndex = c'.validatorIndex →
        c.epoch = c'.epoch → c.message = c'.message := by
  refine ⟨_, rfl, by decide +kernel, ?_⟩
  have hcalls : ((Node.start PairChain.init).run PairChain.env (some PairChain.service)
      PairChain.interrupted).signCalls =
      [⟨0, 2, PairChain.env.hashData PairChain.data⟩,
        ⟨0, 2, PairChain.env.hashData PairChain.lateVote⟩] := by decide +kernel
  rw [hcalls]
  intro h
  have hsame : PairChain.env.hashData PairChain.data =
      PairChain.env.hashData PairChain.lateVote :=
    h ⟨0, 2, PairChain.env.hashData PairChain.data⟩ (by simp)
      ⟨0, 2, PairChain.env.hashData PairChain.lateVote⟩ (by simp) rfl rfl
  have hideal : PairChain.env.HashIdeal := Env.tabulated_hashIdeal _
  exact absurd (hideal.data_injective hsame) (by decide)

end ConsensusClient
