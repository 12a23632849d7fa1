import ConsensusClient.ForkChoice.Run
import ConsensusClient.Validator.Service

/-!
# The Chain Task

Translation of the chain task of `src/main.rs`: a loop that owns the store, wakes up for the ticks
of a one-second timer and for the messages of the network, and performs the duties of the
validators of the node.

A panic ends the task, but not what it has sent and signed before. The node therefore records the
fault that ended it, together with three logs that statements about whole runs refer to: the calls
of `KeyManager::sign`, the blocks that `on_block` put into the store, and the roots of the blocks
that the node produced.

## Main results

* `Node.step`, `Node.run`: a round of the loop, and a run
* `Node.processOwnBlock_eq`: the task calls `on_block` for an own block that is stored
* `Node.run_induction`: the rule for runs
* `Node.run_reachedFromAnchor`: the store of a run is one that its public functions reach
-/

namespace ConsensusClient

/-- `ChainMessage` -/
inductive ChainMessage where
  | processBlock (sb : SignedBlockWithAttestation) (shouldGossip : Bool)
  | processAttestation (sa : SignedAttestation) (shouldGossip : Bool)

/-- `OutboundP2pRequest` -/
inductive OutboundP2pRequest where
  | gossipBlockWithAttestation (sb : SignedBlockWithAttestation)
  | gossipAttestation (sa : SignedAttestation)
  | requestBlocksByRoot (roots : List H256)

/-- What the task wakes up for, with the readings of the wall clock on the way: a tick reads it
    again when a block is proposed, and iterates over hash tables to build it. -/
inductive ChainEvent where
  | tick (now later : ℕ) (orders : IterationOrders)
  | message (message : ChainMessage) (now : ℕ)

/-- The variables of the task, and its logs. -/
structure Node where
  store : Store
  lastProposalSlot : Option ℕ
  lastAttestationSlot : Option ℕ
  outbound : List OutboundP2pRequest
  /-- The calls of `KeyManager::sign`. -/
  signCalls : List SignCall
  /-- The blocks that `on_block` put into the store. -/
  imported : List SignedBlockWithAttestation
  /-- The roots of the blocks that the node produced. -/
  produced : List H256
  /-- The panic that ended the task, if one did. -/
  fault : Option Fault

/-- The node at the start of the task. -/
def Node.start (store : Store) : Node where
  store := store
  lastProposalSlot := none
  lastAttestationSlot := none
  outbound := []
  signCalls := []
  imported := []
  produced := []
  fault := none

/-- Go on with the value of a call, or end where the call panics. -/
def Node.call {α : Type} (node : Node) (r : Res α) (k : α → Node) : Node :=
  match r with
  | .ok a => k a
  | .error e => { node with fault := some e }

/-! ## Handlers -/

/-- The node after `on_block`, up to what is sent. -/
def Node.withBlocks (node : Node) (after : After Store (List SignedBlockWithAttestation)) : Node :=
  { node with
    store := after.state
    imported := node.imported ++ after.result.toOption.getD [] }

/-- The node with one more request sent. -/
def Node.send (node : Node) (request : OutboundP2pRequest) : Node :=
  { node with outbound := node.outbound ++ [request] }

/-- The root of the block that `produce_block_with_signatures` adds, if it adds one. -/
def Store.producedRoot (E : Env) (orders : IterationOrders) (store : Store)
    (slot proposerIndex : ℕ) : List H256 :=
  match store.produceBlockWithSignatures E orders slot proposerIndex with
  | .ok ⟨_, .ok (root, _, _)⟩ => [root]
  | _ => []

/-- An own block is processed and gossiped. -/
def Node.processOwnBlock (E : Env) (node : Node) (slot : ℕ) (sb : SignedBlockWithAttestation)
    (later : ℕ) : Node :=
  -- synchronize the store time with the wall clock before processing the block
  node.call (node.store.onTick later false) fun store =>
    let node := { node with store }
    node.call (node.store.onBlock E sb) fun after =>
      let node := { node.withBlocks after with lastProposalSlot := some slot }
      match after.result with
      | .ok _ => node.send (.gossipBlockWithAttestation sb)
      | .error _ => node

/-- The proposal of a slot. -/
def Node.propose (E : Env) (vs : ValidatorService) (node : Node) (slot proposerIndex later : ℕ)
    (orders : IterationOrders) : Node :=
  node.call (vs.buildBlockProposal E orders node.store slot proposerIndex) fun proposal =>
    let node := { node with
      store := proposal.store
      signCalls := node.signCalls ++ proposal.signed.calls
      produced := node.produced ++ node.store.producedRoot E orders slot proposerIndex }
    match proposal.signed.result with
    | .ok sb => node.processOwnBlock E slot sb later
    | .error _ => { node with lastProposalSlot := some slot }

/-- An attestation is processed, and gossiped if it was accepted. -/
def Node.processAttestation (E : Env) (node : Node) (sa : SignedAttestation)
    (shouldGossip : Bool) (k : Node → Node) : Node :=
  node.call (node.store.onAttestation E sa false) fun after =>
    let node := { node with store := after.state }
    match after.result with
    | .ok _ => k (if shouldGossip then node.send (.gossipAttestation sa) else node)
    | .error _ => k node

/-- The loop over the own attestations of a slot. -/
def Node.broadcast (E : Env) (slot : ℕ) : List SignedAttestation → Node → Node
  | [], node => { node with lastAttestationSlot := some slot }
  | sa :: rest, node => node.processAttestation E sa true (Node.broadcast E slot rest)

/-- The attestations of a slot. -/
def Node.attest (E : Env) (vs : ValidatorService) (node : Node) (slot : ℕ) : Node :=
  node.call (vs.createAttestations E node.store slot) fun r =>
    Node.broadcast E slot r.2 { node with signCalls := node.signCalls ++ r.1 }

/-- The duties of the current interval. -/
def Node.duties (E : Env) (vs : ValidatorService) (node : Node) (later : ℕ)
    (orders : IterationOrders) : Node :=
  let slot := node.store.time / intervalsPerSlot
  match node.store.time % intervalsPerSlot with
  | 0 =>
    if node.lastProposalSlot ≠ some slot then
      match vs.getProposerForSlot slot with
      | some proposerIndex => node.propose E vs slot proposerIndex later orders
      | none => node
    else node
  | 1 => if node.lastAttestationSlot ≠ some slot then node.attest E vs slot else node
  -- intervals 2 and 3 are only logged
  | _ => node

/-- A tick of the timer. -/
def Node.onTick (E : Env) (vs : Option ValidatorService) (node : Node) (now later : ℕ)
    (orders : IterationOrders) : Node :=
  node.call (node.store.onTick now false) fun store =>
    let node := { node with store }
    match vs with
    | some vs => node.duties E vs later orders
    | none => node

/-- The start of the error text by which the task recognises a queued block. -/
def queuedText : String := "Err: (Fork-choice::Handlers::OnBlock) Block queued"

/-- `ChainMessage::ProcessBlock` -/
def Node.processBlock (E : Env) (node : Node) (sb : SignedBlockWithAttestation)
    (shouldGossip : Bool) (now : ℕ) : Node :=
  node.call (node.store.onTick now false) fun store =>
    let node := { node with store }
    node.call (node.store.onBlock E sb) fun after =>
      let node := node.withBlocks after
      match after.result with
      | .ok _ => if shouldGossip then node.send (.gossipBlockWithAttestation sb) else node
      | .error msg =>
        -- request the missing parent of a queued block
        if queuedText.toList <+: msg.toList ∧ sb.block.parentRoot ≠ 0 then
          node.send (.requestBlocksByRoot [sb.block.parentRoot])
        else node

/-- One round of the loop of the task. -/
def Node.step (E : Env) (vs : Option ValidatorService) (node : Node) (event : ChainEvent) : Node :=
  match node.fault with
  | some _ => node
  | none =>
    match event with
    | .tick now later orders => node.onTick E vs now later orders
    | .message (.processBlock sb shouldGossip) now => node.processBlock E sb shouldGossip now
    | .message (.processAttestation sa shouldGossip) _ =>
      node.processAttestation E sa shouldGossip id

/-- The node after a sequence of rounds. -/
def Node.run (E : Env) (vs : Option ValidatorService) (node : Node) (events : List ChainEvent) :
    Node :=
  events.foldl (Node.step E vs) node

/-- Every event of a run meets a condition on it and on the node it finds. -/
def Node.Always (E : Env) (vs : Option ValidatorService) (cond : Node → ChainEvent → Prop) :
    Node → List ChainEvent → Prop
  | _, [] => True
  | node, event :: rest =>
    cond node event ∧ Node.Always E vs cond (node.step E vs event) rest

/-! ## What a round can do -/

section Rounds

variable {E : Env} {vs : Option ValidatorService} {node : Node}

/-- A property of the node after a call: shown for the end of the task and for every value. -/
theorem Node.call_induction {α : Type} {P : Node → Prop} {r : Res α} {k : α → Node}
    (hfault : ∀ e, P { node with fault := some e }) (hok : ∀ a, r = .ok a → P (k a)) :
    P (node.call r k) := by
  cases r with
  | ok a => exact hok a rfl
  | error e => exact hfault e

/-- `on_block` returns early for a block that is stored. -/
theorem Store.onBlock_known {store : Store} {sb : SignedBlockWithAttestation}
    (h : sb.block.hashTreeRoot E ∈ store.blocks) : store.onBlock E sb = done store [] := by
  unfold Store.onBlock
  exact if_pos h

/-- The task calls `on_block` for an own block when the block is stored already, so this
    call changes nothing. -/
theorem Node.processOwnBlock_eq {slot later : ℕ} {sb : SignedBlockWithAttestation}
    (h : sb.block.hashTreeRoot E ∈ node.store.blocks) :
    node.processOwnBlock E slot sb later =
      node.call (node.store.onTick later false) fun store =>
        Node.send { node with store, lastProposalSlot := some slot }
          (.gossipBlockWithAttestation sb) := by
  unfold Node.processOwnBlock
  cases htick : node.store.onTick later false with
  | error e => rfl
  | ok store =>
    -- a tick does not remove blocks
    have hknown : sb.block.hashTreeRoot E ∈ store.blocks := by
      rw [(Store.onTick_sameTree htick).blocks]
      exact h
    simp only [Node.call, Store.onBlock_known hknown, done, Node.withBlocks, Node.send,
      Except.toOption, Option.getD_some, List.append_nil]

/-- The block that a proposal signs is stored. -/
theorem ValidatorService.buildBlockProposal_mem {orders : IterationOrders}
    {vs : ValidatorService} {store : Store} {slot proposerIndex : ℕ} {proposal : Proposal}
    {sb : SignedBlockWithAttestation}
    (h : vs.buildBlockProposal E orders store slot proposerIndex = .ok proposal)
    (hsb : proposal.signed.result = .ok sb) :
    sb.block.hashTreeRoot E ∈ proposal.store.blocks := by
  obtain ⟨s₀, -, hcases⟩ := ValidatorService.buildBlockProposal_cases h
  rcases hcases with ⟨built, -, hstore, hsigned, -⟩ | ⟨rfl, -⟩
  · rw [(ValidatorService.signBlock_eq_ok hsigned).2 sb hsb, hstore]
    exact (AList.mem_insert s₀.blocks).mpr (Or.inl rfl)
  · exact absurd hsb (by simp)

/-- The property survives what the task does by itself: bookkeeping, ticks, attestations and the
    production of a block. -/
structure Survives (E : Env) (P : Node → Prop) : Prop where
  same : ∀ n n' : Node, P n → n'.store = n.store → n'.imported = n.imported →
    n'.produced = n.produced → P n'
  tick : ∀ (n : Node) time store, n.store.onTick time false = .ok store → P n → P { n with store }
  attestation : ∀ (n : Node) sa after, n.store.onAttestation E sa false = .ok after → P n →
    P { n with store := after.state }
  produce : ∀ (n : Node) orders slot proposerIndex after,
    n.store.produceBlockWithSignatures E orders slot proposerIndex = .ok after → P n →
    P { n with
      store := after.state
      produced := n.produced ++ n.store.producedRoot E orders slot proposerIndex }

namespace Survives

variable {P : Node → Prop}

theorem processAttestation (survives : Survives E P) {sa : SignedAttestation}
    {shouldGossip : Bool} {k : Node → Node} (hk : ∀ n, P n → P (k n)) (h : P node) :
    P (node.processAttestation E sa shouldGossip k) := by
  unfold Node.processAttestation
  refine Node.call_induction (fun e => survives.same _ _ h rfl rfl rfl) fun after hafter => ?_
  have hP := survives.attestation node sa after hafter h
  simp only
  split
  · apply hk
    split_ifs
    · exact survives.same _ _ hP rfl rfl rfl
    · exact hP
  · exact hk _ hP

theorem broadcast (survives : Survives E P) {slot : ℕ} {attestations : List SignedAttestation}
    (h : P node) : P (Node.broadcast E slot attestations node) := by
  induction attestations generalizing node with
  | nil => exact survives.same _ _ h rfl rfl rfl
  | cons sa rest ih => exact survives.processAttestation (fun n hn => ih hn) h

theorem propose (survives : Survives E P) {vs : ValidatorService}
    {slot proposerIndex later : ℕ} {orders : IterationOrders} (h : P node) :
    P (node.propose E vs slot proposerIndex later orders) := by
  unfold Node.propose
  refine Node.call_induction (fun e => survives.same _ _ h rfl rfl rfl)
    fun proposal hproposal => ?_
  have hP : P { node with
      store := proposal.store
      signCalls := node.signCalls ++ proposal.signed.calls
      produced := node.produced ++ node.store.producedRoot E orders slot proposerIndex } := by
    obtain ⟨after, hafter, hstore⟩ : ∃ after,
        node.store.produceBlockWithSignatures E orders slot proposerIndex = .ok after ∧
        proposal.store = after.state := by
      obtain ⟨s₀, -, ⟨built, -, -, -, hafter⟩ | ⟨rfl, msg, hafter⟩⟩ :=
        ValidatorService.buildBlockProposal_cases hproposal
      · exact ⟨_, hafter, rfl⟩
      · exact ⟨_, hafter, rfl⟩
    -- the calls of the key manager are not the concern of the property
    rw [hstore]
    exact survives.same _ _ (survives.produce node orders slot proposerIndex after hafter h) rfl rfl
      rfl
  simp only
  split
  · -- the own block is stored, so processing it is a tick
    rename_i sb hsb
    rw [Node.processOwnBlock_eq (ValidatorService.buildBlockProposal_mem hproposal hsb)]
    refine Node.call_induction (fun e => survives.same _ _ hP rfl rfl rfl) fun store hstore => ?_
    exact survives.same _ _ (survives.tick _ later store hstore hP) rfl rfl rfl
  · exact survives.same _ _ hP rfl rfl rfl

theorem duties (survives : Survives E P) {vs : ValidatorService} {later : ℕ}
    {orders : IterationOrders} (h : P node) :
    P (node.duties E vs later orders) := by
  unfold Node.duties
  simp only
  split
  · split_ifs
    · split
      · exact survives.propose h
      · exact h
    · exact h
  · split_ifs
    · refine Node.call_induction (fun e => survives.same _ _ h rfl rfl rfl) fun r _ => ?_
      exact survives.broadcast (survives.same _ _ h rfl rfl rfl)
    · exact h
  · exact h

/-- What a round of the loop can do: the above, or `on_block` for a block that was delivered. -/
theorem step (survives : Survives E P) {event : ChainEvent}
    (hblock : ∀ sb shouldGossip now store after,
      event = .message (.processBlock sb shouldGossip) now →
      node.store.onTick now false = .ok store → store.onBlock E sb = .ok after → P node →
      P (Node.withBlocks { node with store } after))
    (h : P node) : P (node.step E vs event) := by
  unfold Node.step
  split
  · exact h
  cases event with
  | tick now later orders =>
    refine Node.call_induction (fun e => survives.same _ _ h rfl rfl rfl) fun store hstore => ?_
    have hP := survives.tick node now store hstore h
    cases vs with
    | none => exact hP
    | some vs => exact survives.duties hP
  | message message now =>
    cases message with
    | processAttestation sa shouldGossip => exact survives.processAttestation (fun _ hn => hn) h
    | processBlock sb shouldGossip =>
      refine Node.call_induction (fun e => survives.same _ _ h rfl rfl rfl) fun store hstore => ?_
      have hP := survives.tick node now store hstore h
      refine Node.call_induction (fun e => survives.same _ _ hP rfl rfl rfl)
        fun after hafter => ?_
      -- the store after `on_block`
      have hP' := hblock sb shouldGossip now store after rfl hstore hafter h
      -- what is sent afterwards does not matter
      simp only
      split
      · split_ifs
        · exact survives.same _ _ hP' rfl rfl rfl
        · exact hP'
      · split_ifs
        · exact survives.same _ _ hP' rfl rfl rfl
        · exact hP'

end Survives

/-- An invariant that a round keeps under a condition holds after every run that meets it. -/
theorem Node.run_induction {P : Node → Prop} {cond : Node → ChainEvent → Prop}
    (hstep : ∀ n event, cond n event → P n → P (n.step E vs event)) {events : List ChainEvent}
    (hcond : node.Always E vs cond events) (h : P node) : P (node.run E vs events) := by
  induction events generalizing node with
  | nil => exact h
  | cons event rest ih => exact ih hcond.2 (hstep node event hcond.1 h)

/-! ## Runs of the task are runs of the store -/

/-- The store is reached by calls of its public functions. -/
def Store.Reaches (E : Env) (s s' : Store) : Prop := ∃ ops, s.run E ops = .ok s'

theorem Store.Reaches.apply {s s₁ s₂ : Store} (h : s.Reaches E s₁) (op : StoreOp)
    (hop : s₁.apply E op = .ok s₂) : s.Reaches E s₂ := by
  obtain ⟨ops, hops⟩ := h
  refine ⟨ops ++ [op], ?_⟩
  unfold Store.run at hops ⊢
  rw [List.foldlM_append, hops, ok_bind, List.foldlM_cons, hop]
  rfl

/-- The task touches its store through the public functions only. -/
theorem Store.Reaches.survives (E : Env) (init : Store) :
    Survives E fun n => init.Reaches E n.store where
  same := by
    intro n n' hn hstore _ _
    rw [hstore]
    exact hn
  tick := fun n time store hstore hn => hn.apply (.tick time false) hstore
  attestation := fun n sa after hafter hn =>
    hn.apply (.attestation sa false) (bind_eq_ok.mpr ⟨after, hafter, rfl⟩)
  produce := fun n orders slot proposerIndex after hafter hn =>
    hn.apply (.produce slot proposerIndex orders) (bind_eq_ok.mpr ⟨after, hafter, rfl⟩)

theorem Node.step_reaches {init : Store} {event : ChainEvent}
    (h : init.Reaches E node.store) : init.Reaches E (node.step E vs event).store := by
  refine (Store.Reaches.survives E init).step ?_ h
  intro sb _ now store after _ hstore hafter hn
  have htick : init.Reaches E store := hn.apply (.tick now false) hstore
  exact htick.apply (.block sb) (bind_eq_ok.mpr ⟨after, hafter, rfl⟩)

/-- Every run of the task from an anchor leaves a store that the public functions reach. -/
theorem Node.run_reachedFromAnchor (E : Env) (vs : Option ValidatorService) (state : State)
    (block : SignedBlockWithAttestation) (config : Config) (events : List ChainEvent) :
    ∃ ops, ReachedFromAnchor E (getForkchoiceStore E state block config) ops
      ((Node.start (getForkchoiceStore E state block config)).run E vs events).store := by
  have hreach : ∀ (n : Node), (getForkchoiceStore E state block config).Reaches E n.store →
      (getForkchoiceStore E state block config).Reaches E (n.run E vs events).store := by
    intro n
    induction events generalizing n with
    | nil => exact id
    | cons event rest ih => exact fun hn => ih _ (Node.step_reaches hn)
  obtain ⟨ops, hops⟩ := hreach (Node.start (getForkchoiceStore E state block config)) ⟨[], rfl⟩
  exact ⟨ops, ⟨state, block, config, rfl⟩, hops⟩

end Rounds

end ConsensusClient
