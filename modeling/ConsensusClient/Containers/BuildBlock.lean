import Mathlib.Data.Finset.Card
import Mathlib.Data.Finset.SDiff
import ConsensusClient.Containers.Chain
import ConsensusClient.Containers.Signatures

/-!
# Block Building

Translation of `State::build_block` and `State::compute_aggregated_signatures`: the fixed point
of collecting votes whose source is the justified checkpoint they themselves produce, and the
proofs for the collected votes, aggregated from gossip or covered by proofs of earlier blocks.
-/

namespace ConsensusClient

/-- `Iterator::max_by_key`, which takes the last of several maxima. -/
def maxByKey {α : Type} (key : α → ℕ) : List α → Option α
  | [] => none
  | x :: xs => some (xs.foldl (fun best y => if key y < key best then best else y) x)

/-! ## Proofs for collected votes -/

/-- The signatures collected for one group of votes in the first phase of
    `compute_aggregated_signatures`, and the validators without one. -/
structure GossipPhase where
  sigs : List Signature
  keys : List PublicKey
  ids : List ℕ
  remaining : Finset ℕ

/-- One round of the first phase. -/
def State.collectGossip (s : State) (gossipSignatures : HashMap SignatureKey Signature)
    (dataRoot : H256) (phase : GossipPhase) (vid : ℕ) : Res GossipPhase :=
  match gossipSignatures.lookup ⟨vid, dataRoot⟩ with
  | some sig => do
    let key ← okOr (s.validators[vid]?.map fun v => v.pubkey) s!"invalid validator id {vid}"
    pure { phase with
      sigs := phase.sigs ++ [sig], keys := phase.keys ++ [key], ids := phase.ids ++ [vid] }
  | none => pure { phase with remaining := insert vid phase.remaining }

/-- The first phase: signatures from gossip, or none at all without a gossip cache. -/
def State.gossipPhase (s : State) (gossipSignatures : Option (HashMap SignatureKey Signature))
    (dataRoot : H256) (ids : List ℕ) : Res GossipPhase :=
  match gossipSignatures with
  | some sigs => ids.foldlM (s.collectGossip sigs dataRoot) ⟨[], [], [], ∅⟩
  | none => pure ⟨[], [], [], ids.toFinset⟩

/-- An attestation of a block with its proof. -/
abbrev ProvedAttestation := AggregatedAttestation × AggregatedSignatureProof

/-- The aggregated gossip signatures of a group, if there are any. -/
def gossipProof (E : Env) (data : AttestationData) (phase : GossipPhase) :
    Res (List ProvedAttestation) :=
  if phase.ids = [] then pure []
  else do
    let participants ← AggregationBits.fromValidatorIndices phase.ids
    let proof ← AggregatedSignatureProof.aggregate E participants phase.keys phase.sigs
      (E.hashData data) (epochOf data.slot)
    pure [({ aggregationBits := participants, data }, proof)]

/-- A candidate proof with the remaining validators it covers. -/
def coverage (remaining : Finset ℕ) (proof : AggregatedSignatureProof) :
    Res (AggregatedSignatureProof × Finset ℕ) := do
  let ids ← proof.getParticipantIndices
  pure (proof, remaining ∩ ids.toFinset)

/-- The second phase: greedy cover of the remaining validators by proofs of earlier blocks. Each
    round covers at least one of them, so their number bounds the rounds. -/
def coverRemaining (E : Env) (order : SetOrder)
    (payloads : Option (HashMap SignatureKey (List AggregatedSignatureProof)))
    (data : AttestationData) : ℕ → Finset ℕ → Res (List ProvedAttestation)
  | 0, _ => .error .diverge
  | fuel + 1, remaining =>
    match payloads with
    | none => pure []
    | some map =>
      -- `remaining.iter().next()`: any of the remaining validators
      match (order remaining).val.head? with
      | none => pure []
      | some targetId =>
        match map.lookup ⟨targetId, E.hashData data⟩ with
        | none => pure []
        | some candidates =>
          if candidates = [] then pure []
          else do
            let covered ← candidates.mapM (coverage remaining)
            let best ← okOr (maxByKey (fun c => c.2.card) covered)
              "greedy algoritm failure: candidates were empty"
            -- stop where no candidate covers anybody new
            if best.2 = ∅ then pure []
            else do
              let ids ← best.1.getParticipantIndices
              let participants ← AggregationBits.fromValidatorIndices ids
              let rest ← coverRemaining E order payloads data fuel (remaining \ best.2)
              pure (({ aggregationBits := participants, data }, best.1) :: rest)

/-- The proofs for one group of votes. -/
def State.proveGroup (E : Env) (order : SetOrder) (s : State)
    (gossipSignatures : Option (HashMap SignatureKey Signature))
    (payloads : Option (HashMap SignatureKey (List AggregatedSignatureProof)))
    (group : AggregatedAttestation) : Res (List ProvedAttestation) := do
  let ids ← AggregationBits.toValidatorIndices group.aggregationBits
  let phase ← s.gossipPhase gossipSignatures (E.hashData group.data) ids
  let gossip ← gossipProof E group.data phase
  let covered ←
    coverRemaining E order payloads group.data (phase.remaining.card + 1) phase.remaining
  pure (gossip ++ covered)

/-- `State::compute_aggregated_signatures`, where every group has a set of its own, with its own
    order of iteration. -/
def State.computeAggregatedSignatures (E : Env) (orders : AttestationData → SetOrder) (s : State)
    (attestations : List Attestation)
    (gossipSignatures : Option (HashMap SignatureKey Signature))
    (payloads : Option (HashMap SignatureKey (List AggregatedSignatureProof))) :
    Res (List AggregatedAttestation × List AggregatedSignatureProof) := do
  let groups ← aggregateByData attestations
  let results ← groups.mapM fun group =>
    s.proveGroup E (orders group.data) gossipSignatures payloads group
  pure results.flatten.unzip

/-! ## The collection loop -/

/-- The arguments of `build_block` but the attestations to start with. -/
structure BuildArgs where
  slot : ℕ
  proposerIndex : ℕ
  parentRoot : H256
  availableAttestations : Option (List Attestation)
  knownBlockRoots : Option (List H256)
  gossipSignatures : Option (HashMap SignatureKey Signature)
  aggregatedPayloads : Option (HashMap SignatureKey (List AggregatedSignatureProof))

/-- The block with these votes and no state root yet. -/
def BuildArgs.candidate (args : BuildArgs) (attestations : List AggregatedAttestation) : Block where
  slot := args.slot
  proposerIndex := args.proposerIndex
  parentRoot := args.parentRoot
  stateRoot := 0
  body := { attestations }

/-- The post-state of the block with these votes. -/
def State.applyCandidate (E : Env) (s : State) (args : BuildArgs)
    (attestations : List AggregatedAttestation) : Res State := do
  let attestations ← pushAll validatorRegistryLimit [] attestations
  let advanced ← s.processSlots E args.slot
  advanced.processBlock E (args.candidate attestations)

/-- The filter of the collection loop: the vote extends the candidate set and can be proved. -/
def BuildArgs.collects (E : Env) (args : BuildArgs) (knownBlockRoots : List H256)
    (justified : Checkpoint) (attestations : List Attestation) (a : Attestation) : Bool :=
  let key : SignatureKey := ⟨a.validatorId, E.hashData a.data⟩
  decide (a.data.head.root ∈ knownBlockRoots) && decide (a.data.source = justified) &&
    !decide (a ∈ attestations) &&
    ((args.gossipSignatures.any fun sigs => decide (key ∈ sigs)) ||
      (args.aggregatedPayloads.any fun payloads => decide (key ∈ payloads)))

/-- The collection loop. A round that goes on adds a vote of the pool that was not collected
    before, so the size of the pool bounds the rounds. -/
def State.collect (E : Env) (s : State) (args : BuildArgs) :
    ℕ → List Attestation → Res (List Attestation)
  | 0, _ => .error .diverge
  | fuel + 1, attestations => do
    -- the candidate block tells which checkpoint the votes collected so far justify
    let aggregated ← aggregateByData attestations
    let post ← s.applyCandidate E args aggregated
    match args.availableAttestations, args.knownBlockRoots with
    | some pool, some known =>
      let new := pool.filter (args.collects E known post.latestJustified attestations)
      if new = [] then pure attestations else s.collect E args fuel (attestations ++ new)
    | _, _ => pure attestations

/-- What `build_block` returns. -/
structure BuiltBlock where
  block : Block
  post : State
  attestations : List AggregatedAttestation
  proofs : List AggregatedSignatureProof
  deriving DecidableEq

/-- `State::build_block` -/
def State.buildBlock (E : Env) (orders : AttestationData → SetOrder) (s : State)
    (args : BuildArgs) (initialAttestations : Option (List Attestation)) : Res BuiltBlock := do
  let pool := args.availableAttestations.getD []
  let collected ← s.collect E args (pool.length + 1) (initialAttestations.getD [])
  let (attestations, proofs) ←
    s.computeAggregatedSignatures E orders collected args.gossipSignatures args.aggregatedPayloads
  let post ← s.applyCandidate E args attestations
  let block := { args.candidate attestations with stateRoot := E.hashState post }
  pure { block, post, attestations, proofs }

/-! ## The built block and its post-state -/

section Built

variable {E : Env} {orders : AttestationData → SetOrder} {s : State} {args : BuildArgs}
  {initial : Option (List Attestation)} {built : BuiltBlock}

/-- The parts of a candidate that is accepted. -/
theorem State.applyCandidate_eq_ok {attestations : List AggregatedAttestation} {post : State}
    (h : s.applyCandidate E args attestations = .ok post) :
    ∃ advanced headed, s.processSlots E args.slot = .ok advanced ∧
      advanced.processBlockHeader E (args.candidate attestations) = .ok headed ∧
      hasDuplicateData E attestations = false ∧
      headed.processAttestations attestations = .ok post := by
  obtain ⟨pushed, hpushed, hslots⟩ := bind_eq_ok.mp h
  obtain ⟨advanced, hadvanced, hblock⟩ := bind_eq_ok.mp hslots
  obtain ⟨headed, hheaded, hbody⟩ := bind_eq_ok.mp hblock
  obtain ⟨_, hdup, hvotes⟩ := bind_eq_ok.mp hbody
  obtain rfl : pushed = attestations := by simpa using pushAll_eq_ok hpushed
  exact ⟨advanced, headed, hadvanced, hheaded, ensure_eq_ok.mp hdup, hvotes⟩

/-- The parts of a successful `build_block`. -/
theorem State.buildBlock_eq_ok (h : s.buildBlock E orders args initial = .ok built) :
    ∃ collected, s.collect E args ((args.availableAttestations.getD []).length + 1)
        (initial.getD []) = .ok collected ∧
      s.computeAggregatedSignatures E orders collected args.gossipSignatures
        args.aggregatedPayloads = .ok (built.attestations, built.proofs) ∧
      s.applyCandidate E args built.attestations = .ok built.post ∧
      built.block = { args.candidate built.attestations with
        stateRoot := E.hashState built.post } := by
  obtain ⟨collected, hcollected, h⟩ := bind_eq_ok.mp h
  obtain ⟨⟨attestations, proofs⟩, hproofs, h⟩ := bind_eq_ok.mp h
  obtain ⟨post, hpost, h⟩ := bind_eq_ok.mp h
  obtain rfl := Except.ok.inj h
  exact ⟨collected, hcollected, hproofs, hpost, rfl⟩

/-- A candidate that is accepted makes a block, once it carries the root of its post-state. -/
theorem State.applyCandidate_transition {attestations : List AggregatedAttestation} {post : State}
    (h : s.applyCandidate E args attestations = .ok post) {sb : SignedBlockWithAttestation}
    (hsb : sb.block = { args.candidate attestations with stateRoot := E.hashState post }) :
    s.stateTransition E sb true = .ok post := by
  obtain ⟨advanced, headed, hadvanced, hheaded, hdup, hvotes⟩ := State.applyCandidate_eq_ok h
  rw [State.stateTransition, hsb]
  refine bind_eq_ok.mpr ⟨(), rfl, bind_eq_ok.mpr ⟨advanced, hadvanced, ?_⟩⟩
  refine bind_eq_ok.mpr ⟨post, ?_, bind_eq_ok.mpr ⟨(), ensure_eq_ok.mpr rfl, rfl⟩⟩
  exact bind_eq_ok.mpr ⟨headed, hheaded, bind_eq_ok.mpr ⟨(), ensure_eq_ok.mpr hdup, hvotes⟩⟩

/-- The state transition accepts a built block, and computes the post-state of the builder. -/
theorem State.buildBlock_transition (h : s.buildBlock E orders args initial = .ok built)
    {sb : SignedBlockWithAttestation} (hsb : sb.block = built.block) :
    s.stateTransition E sb true = .ok built.post := by
  obtain ⟨-, -, -, hpost, hblock⟩ := State.buildBlock_eq_ok h
  exact State.applyCandidate_transition hpost (hsb.trans hblock)

/-- The built block has the slot and the parent root it was asked for. -/
theorem State.buildBlock_header (h : s.buildBlock E orders args initial = .ok built) :
    built.block.slot = args.slot ∧ built.block.parentRoot = args.parentRoot := by
  obtain ⟨-, -, -, -, hblock⟩ := State.buildBlock_eq_ok h
  rw [hblock]
  exact ⟨rfl, rfl⟩

end Built

end ConsensusClient
