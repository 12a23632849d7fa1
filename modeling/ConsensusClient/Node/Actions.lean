import ConsensusClient.ForkChoice.Checkpoints
import ConsensusClient.ForkChoice.Rules
import ConsensusClient.Node.OneTimeKeys

/-!
# The Actions of a Round

A round of the chain task is a sequence of actions, each of which changes the store by one call of
its public functions, or sends a message, or ends the task. Invariants of runs are shown for each
action once.

## Main results

* `Node.Act.step`: a property that every action keeps survives a round
* `Node.Act.reaches`: the store changes by calls of its public functions
* `Node.run_of_act`: the same for every run
-/

namespace ConsensusClient

/-! ## Actions -/

/-- The node after `on_attestation`, with what it passes on. -/
def Node.heard (node : Node) (sa : SignedAttestation) (shouldGossip : Bool)
    (after : After Store Unit) : Node :=
  { node with
    store := after.state
    outbound := node.outbound ++
      if after.result.isOk && shouldGossip then [.gossipAttestation sa] else [] }

/-- What the task sends after `on_block` for a block that was delivered. -/
def reactionTo (sb : SignedBlockWithAttestation) (shouldGossip : Bool) :
    Except String (List SignedBlockWithAttestation) → List OutboundP2pRequest
  | .ok _ => if shouldGossip then [.gossipBlockWithAttestation sb] else []
  | .error msg =>
    if queuedText.toList <+: msg.toList ∧ sb.block.parentRoot ≠ 0 then
      [.requestBlocksByRoot [sb.block.parentRoot]]
    else []

/-- The node after `on_block` for a block that was delivered, with what it sends. -/
def Node.received (node : Node) (sb : SignedBlockWithAttestation) (shouldGossip : Bool)
    (after : After Store (List SignedBlockWithAttestation)) : Node :=
  { node.withBlocks after with
    outbound := node.outbound ++ reactionTo sb shouldGossip after.result }

/-- The node after `build_block_proposal`. -/
def Node.withProposal (E : Env) (orders : IterationOrders) (node : Node) (proposerIndex : ℕ)
    (proposal : Proposal) : Node :=
  { node with
    store := proposal.store
    signCalls := node.signCalls ++ proposal.signed.calls
    produced := node.produced ++ node.store.producedRoot E orders node.slot proposerIndex }

/-- The conditions under which the task proposes a block. -/
structure Node.MayPropose (E : Env) (vs : Option ValidatorService) (orders : IterationOrders)
    (node : Node) (proposerIndex : ℕ) (proposal : Proposal) : Prop where
  running : node.fault = none
  not_proposed : node.lastProposalSlot ≠ some node.slot
  owner : ∃ service, vs = some service ∧
    service.getProposerForSlot node.slot = some proposerIndex ∧
    service.buildBlockProposal E orders node.store node.slot proposerIndex = .ok proposal

/-- The actions of the rounds of an event. -/
inductive Node.Act (E : Env) (vs : Option ValidatorService) (event : ChainEvent) :
    Node → Node → Prop
  /-- The task ends in a panic. -/
  | ended (n : Node) (e : Fault) : Act E vs event n { n with fault := some e }
  | ticked (n : Node) (time : ℕ) (store : Store) (hcall : n.store.onTick time false = .ok store) :
      Act E vs event n { n with store }
  /-- An own attestation, or one that was delivered. -/
  | heard (n : Node) (sa : SignedAttestation) (shouldGossip : Bool) (after : After Store Unit)
      (hcall : n.store.onAttestation E sa false = .ok after) :
      Act E vs event n (n.heard sa shouldGossip after)
  /-- The votes of the slot are signed. -/
  | signed (n : Node) (service : ValidatorService) (calls : List SignCall)
      (attestations : List SignedAttestation) (hvs : vs = some service)
      (hcall : service.createAttestations E n.store n.slot = .ok (calls, attestations)) :
      Act E vs event n { n with signCalls := n.signCalls ++ calls }
  | attested (n : Node) (slot : ℕ) : Act E vs event n { n with lastAttestationSlot := some slot }
  /-- A proposal without a block, or with one that could not be signed. -/
  | unsent (n : Node) (orders : IterationOrders) (proposerIndex : ℕ) (proposal : Proposal)
      (hmay : n.MayPropose E vs orders proposerIndex proposal) :
      Act E vs event n
        { n.withProposal E orders proposerIndex proposal with lastProposalSlot := some n.slot }
  /-- The clock panics after the proposal. -/
  | lost (n : Node) (orders : IterationOrders) (proposerIndex : ℕ) (proposal : Proposal) (e : Fault)
      (hmay : n.MayPropose E vs orders proposerIndex proposal) :
      Act E vs event n { n.withProposal E orders proposerIndex proposal with fault := some e }
  /-- The own block is sent, at a later reading of the clock. -/
  | sent (n : Node) (orders : IterationOrders) (proposerIndex : ℕ) (proposal : Proposal)
      (sb : SignedBlockWithAttestation) (later : ℕ) (store : Store)
      (hmay : n.MayPropose E vs orders proposerIndex proposal)
      (hsb : proposal.signed.result = .ok sb)
      (hcall : proposal.store.onTick later false = .ok store) :
      Act E vs event n
        { n.withProposal E orders proposerIndex proposal with
          store
          lastProposalSlot := some n.slot
          outbound := n.outbound ++ [.gossipBlockWithAttestation sb] }
  | delivered (n : Node) (sb : SignedBlockWithAttestation) (shouldGossip : Bool) (now : ℕ)
      (after : After Store (List SignedBlockWithAttestation))
      (hevent : event = .message (.processBlock sb shouldGossip) now)
      (hcall : n.store.onBlock E sb = .ok after) :
      Act E vs event n (n.received sb shouldGossip after)

/-- A block message is a tick and then the reaction to `on_block`. -/
theorem Node.processBlock_eq (E : Env) (node : Node) (sb : SignedBlockWithAttestation)
    (shouldGossip : Bool) (now : ℕ) :
    node.processBlock E sb shouldGossip now =
      node.call (node.store.onTick now false) fun store =>
        Node.call { node with store } (store.onBlock E sb) fun after =>
          Node.received { node with store } sb shouldGossip after := by
  unfold Node.processBlock Node.received reactionTo
  congr 1
  funext store
  simp only
  congr 1
  funext after
  obtain ⟨store', r⟩ := after
  cases r with
  | ok processed => cases shouldGossip <;> simp [Node.withBlocks, Node.send]
  | error msg =>
    simp only
    split_ifs
    · rfl
    · simp [Node.withBlocks]

/-! ## Rounds are sequences of actions -/

section Rounds

variable {E : Env} {vs : Option ValidatorService} {event : ChainEvent} {node : Node}
  {P : Node → Prop} (hact : ∀ n n', Node.Act E vs event n n' → P n → P n')

include hact

theorem Node.Act.processAttestation {sa : SignedAttestation} {shouldGossip : Bool}
    {k : Node → Node} (hk : ∀ n, P n → P (k n)) (h : P node) :
    P (node.processAttestation E sa shouldGossip k) := by
  unfold Node.processAttestation
  refine Node.call_induction (fun e => hact _ _ (.ended node e) h) fun after hafter => ?_
  have hheard := hact _ _ (.heard node sa shouldGossip after hafter) h
  unfold Node.heard at hheard
  obtain ⟨store, r⟩ := after
  cases r with
  | error msg => exact hk _ (by simpa [Except.isOk, Except.toBool] using hheard)
  | ok u =>
    cases shouldGossip with
    | false => exact hk _ (by simpa [Except.isOk, Except.toBool] using hheard)
    | true => exact hk _ (by simpa [Except.isOk, Except.toBool, Node.send] using hheard)

theorem Node.Act.broadcast {slot : ℕ} {attestations : List SignedAttestation} (h : P node) :
    P (Node.broadcast E slot attestations node) := by
  induction attestations generalizing node with
  | nil => exact hact _ _ (.attested node slot) h
  | cons sa rest ih => exact Node.Act.processAttestation hact (fun n hn => ih hn) h

theorem Node.Act.propose {service : ValidatorService} {proposerIndex later : ℕ}
    {orders : IterationOrders}
    (hvs : vs = some service) (hrunning : node.fault = none)
    (hlast : node.lastProposalSlot ≠ some node.slot)
    (howner : service.getProposerForSlot node.slot = some proposerIndex) (h : P node) :
    P (node.propose E service node.slot proposerIndex later orders) := by
  unfold Node.propose
  refine Node.call_induction (fun e => hact _ _ (.ended node e) h) fun proposal hproposal => ?_
  have hmay : node.MayPropose E vs orders proposerIndex proposal :=
    ⟨hrunning, hlast, service, hvs, howner, hproposal⟩
  simp only
  cases hresult : proposal.signed.result with
  | error msg => exact hact _ _ (.unsent node orders proposerIndex proposal hmay) h
  | ok sb =>
    simp only
    -- the own block is stored, so `on_block` returns early
    rw [Node.processOwnBlock_eq (ValidatorService.buildBlockProposal_mem hproposal hresult)]
    refine Node.call_induction
      (fun e => hact _ _ (.lost node orders proposerIndex proposal e hmay) h) fun store hstore => ?_
    exact hact _ _ (.sent node orders proposerIndex proposal sb later store hmay hresult hstore) h

theorem Node.Act.duties {service : ValidatorService} {later : ℕ} {orders : IterationOrders}
    (hvs : vs = some service) (hrunning : node.fault = none) (h : P node) :
    P (node.duties E service later orders) := by
  unfold Node.duties
  simp only
  split
  · split_ifs with hlast
    · split
      · rename_i proposerIndex howner
        exact Node.Act.propose hact hvs hrunning hlast howner h
      · exact h
    · exact h
  · split_ifs
    · refine Node.call_induction (fun e => hact _ _ (.ended node e) h) fun r hr => ?_
      exact Node.Act.broadcast hact (hact _ _ (.signed node service r.1 r.2 hvs hr) h)
    · exact h
  · exact h

theorem Node.Act.processBlock {sb : SignedBlockWithAttestation} {shouldGossip : Bool} {now : ℕ}
    (hevent : event = .message (.processBlock sb shouldGossip) now) (h : P node) :
    P (node.processBlock E sb shouldGossip now) := by
  rw [Node.processBlock_eq]
  refine Node.call_induction (fun e => hact _ _ (.ended node e) h) fun store hstore => ?_
  have hP := hact _ _ (.ticked node now store hstore) h
  refine Node.call_induction (fun e => hact _ _ (.ended _ e) hP) fun after hafter => ?_
  exact hact _ _ (.delivered _ sb shouldGossip now after hevent hafter) hP

/-- A property that every action keeps survives a round of the loop. -/
theorem Node.Act.step (h : P node) : P (node.step E vs event) := by
  unfold Node.step
  cases hrunning : node.fault with
  -- a task that has ended does nothing
  | some e => exact h
  | none =>
    simp only
    cases event with
    | tick now later orders =>
      -- the tick comes before the duties, if the node has any
      refine Node.call_induction (fun e => hact _ _ (.ended node e) h) fun store hstore => ?_
      have hP := hact _ _ (.ticked node now store hstore) h
      cases vs with
      | none => exact hP
      | some service => exact Node.Act.duties hact rfl hrunning hP
    | message message now =>
      cases message with
      | processAttestation sa shouldGossip =>
        exact Node.Act.processAttestation hact (fun _ hn => hn) h
      | processBlock sb shouldGossip => exact Node.Act.processBlock hact rfl h

end Rounds

/-! ## Actions and the store -/

section Stores

variable {E : Env} {vs : Option ValidatorService} {event : ChainEvent} {n n' : Node}

theorem Store.Reaches.refl (E : Env) (store : Store) : store.Reaches E store := ⟨[], rfl⟩

/-- The store after a proposal. -/
theorem Node.MayPropose.reaches {orders : IterationOrders} {proposerIndex : ℕ}
    {proposal : Proposal}
    (h : n.MayPropose E vs orders proposerIndex proposal) : n.store.Reaches E proposal.store := by
  obtain ⟨service, -, -, hproposal⟩ := h.owner
  obtain ⟨s₀, -, hcases⟩ := ValidatorService.buildBlockProposal_cases hproposal
  obtain ⟨after, hafter, hstore⟩ : ∃ after,
      n.store.produceBlockWithSignatures E orders n.slot proposerIndex = .ok after ∧
        proposal.store = after.state := by
    rcases hcases with ⟨built, -, -, -, hafter⟩ | ⟨hfail, msg, hafter⟩
    · exact ⟨_, hafter, rfl⟩
    · exact ⟨_, hafter, by rw [hfail]⟩
  rw [hstore]
  exact (Store.Reaches.refl E n.store).apply (.produce n.slot proposerIndex orders)
    (bind_eq_ok.mpr ⟨after, hafter, rfl⟩)

/-- An action changes the store by calls of its public functions. -/
theorem Node.Act.reaches (h : Node.Act E vs event n n') : n.store.Reaches E n'.store := by
  have hrefl := Store.Reaches.refl E n.store
  cases h with
  | ended e => exact hrefl
  | ticked time store hcall => exact hrefl.apply (.tick time false) hcall
  | heard sa shouldGossip after hcall =>
    exact hrefl.apply (.attestation sa false) (bind_eq_ok.mpr ⟨after, hcall, rfl⟩)
  | signed service calls attestations hvs hcall => exact hrefl
  | attested slot => exact hrefl
  | unsent orders proposerIndex proposal hmay => exact hmay.reaches
  | lost orders proposerIndex proposal e hmay => exact hmay.reaches
  | sent orders proposerIndex proposal sb later store hmay hsb hcall =>
    exact hmay.reaches.apply (.tick later false) hcall
  | delivered sb shouldGossip now after hevent hcall =>
    exact hrefl.apply (.block sb) (bind_eq_ok.mpr ⟨after, hcall, rfl⟩)

/-- A task that has ended does not go on. -/
theorem Node.Act.running (h : Node.Act E vs event n n') (hrunning : n'.fault = none) :
    n.fault = none := by
  cases h with
  | ended e => exact absurd hrunning (by simp)
  | lost orders proposerIndex proposal e hmay => exact hmay.running
  | unsent orders proposerIndex proposal hmay => exact hmay.running
  | sent orders proposerIndex proposal sb later store hmay hsb hcall => exact hmay.running
  | _ => exact hrunning

theorem Store.Reaches.advances (hE : E.HashIdeal) {s s' : Store} (hkeyed : s.Keyed E)
    (h : s.Reaches E s') : s.Advances s' := by
  obtain ⟨ops, hrun⟩ := h
  have hboth := Store.run_induction (P := fun t => t.Keyed E ∧ s.Advances t)
    (fun _ _ _ t t' _ _ ht hop => ?_) ⟨hkeyed, le_rfl, fun _ _ hb => hb⟩ hrun
  · exact hboth.2
  · have hstep := Store.apply_advances hE ht.1 hop
    refine ⟨ht.1.run (Store.run_singleton.mpr hop), ht.2.time_le.trans hstep.time_le, ?_⟩
    exact fun root block hb => hstep.blocks_lookup root block (ht.2.blocks_lookup root block hb)

theorem Store.Anchored.reaches {g : State} {time : ℕ} {validators : List Validator}
    (hg : generateGenesisWithValidators E time validators = .ok g) (hE : E.HashIdeal)
    {s s' : Store} (h : s.Anchored E g) (hreach : s.Reaches E s') : s'.Anchored E g := by
  obtain ⟨ops, hrun⟩ := hreach
  exact h.run hg hE hrun

end Stores

/-- A property that every action keeps holds after every run. -/
theorem Node.run_of_act {E : Env} {vs : Option ValidatorService} {P : Node → Prop}
    (hact : ∀ event n n', Node.Act E vs event n n' → P n → P n') {node : Node}
    (events : List ChainEvent) (h : P node) : P (node.run E vs events) := by
  induction events generalizing node with
  | nil => exact h
  | cons event rest ih => exact ih (Node.Act.step (hact event) h)

end ConsensusClient
