import ConsensusClient.ForkChoice.Run

/-!
# The Validator Service

Translation of `validator/src`: the keys of the validators of a node, the proposal of a block and
the attestations of a slot. A call of `KeyManager::sign` uses up the one-time key of its epoch,
whether or not the signature is used afterwards, so the functions that sign return the calls they
made as well.
-/

namespace ConsensusClient

/-! ## Keys -/

/-- The secret keys that are loaded. -/
structure KeyManager where
  keys : HashMap ℕ SecretKey

/-- The arguments of a call of `KeyManager::sign`. -/
structure SignCall where
  validatorIndex : ℕ
  epoch : ℕ
  message : H256
  deriving DecidableEq

/-- `KeyManager::sign` -/
def KeyManager.sign (E : Env) (km : KeyManager) (call : SignCall) : Res Signature := do
  let key ← okOr (km.keys.lookup call.validatorIndex)
    s!"No key loaded for validator {call.validatorIndex}"
  SecretKey.sign E key call.message call.epoch

/-! ## Proposals -/

/-- The duties of a node. -/
structure ValidatorService where
  validatorIndices : List ℕ
  numValidators : ℕ
  keyManager : Option KeyManager

/-- `ValidatorService::get_proposer_for_slot` -/
def ValidatorService.getProposerForSlot (vs : ValidatorService) (slot : ℕ) : Option ℕ :=
  if vs.numValidators = 0 then none
  else if slot % vs.numValidators ∈ vs.validatorIndices then some (slot % vs.numValidators)
  else none

/-- A result, with the calls of `KeyManager::sign` made for it. -/
structure Signed (α : Type) where
  calls : List SignCall
  result : Except String α
  deriving DecidableEq

/-- The call by which `sign_block` signs the vote of the proposer. -/
def proposerCall (E : Env) (slot validatorIndex : ℕ) (data : AttestationData) : SignCall :=
  ⟨validatorIndex, epochOf slot, E.hashData data⟩

/-- The end of `sign_block`, once the vote of the proposer is known. -/
def ValidatorService.signProposal (E : Env) (vs : ValidatorService) (block : Block)
    (validatorIndex : ℕ) (proofs : List AggregatedSignatureProof) (data : AttestationData) :
    Res (Signed SignedBlockWithAttestation) :=
  match vs.keyManager with
  | none => .ok ⟨[], .error "unable to sign block - keymanager not configured"⟩
  | some km =>
    let call := proposerCall E block.slot validatorIndex data
    match context "failed to sign block" (km.sign E call) with
    | .error (.err msg) => .ok ⟨[call], .error msg⟩
    | .error e => .error e
    | .ok proposerSignature =>
      match context "invalid attestation signatures" (pushAll validatorRegistryLimit [] proofs) with
      | .error (.err msg) => .ok ⟨[call], .error msg⟩
      | .error e => .error e
      | .ok attestationSignatures =>
        .ok ⟨[call], .ok {
          message := { block, proposerAttestation := { validatorId := validatorIndex, data } }
          signature := { attestationSignatures, proposerSignature } }⟩

/-- `ValidatorService::sign_block` -/
def ValidatorService.signBlock (E : Env) (vs : ValidatorService) (store : Store) (block : Block)
    (validatorIndex : ℕ) (proofs : List AggregatedSignatureProof) :
    Res (Signed SignedBlockWithAttestation) :=
  match store.produceAttestationData block.slot with
  | .error (.err msg) => .ok ⟨[], .error msg⟩
  | .error e => .error e
  | .ok data => vs.signProposal E block validatorIndex proofs data

/-- What `build_block_proposal` leaves behind. -/
structure Proposal where
  store : Store
  signed : Signed SignedBlockWithAttestation

/-- `ValidatorService::build_block_proposal` -/
def ValidatorService.buildBlockProposal (E : Env) (orders : IterationOrders)
    (vs : ValidatorService) (store : Store) (slot proposerIndex : ℕ) : Res Proposal := do
  let after ← store.produceBlockWithSignatures E orders slot proposerIndex
  match after.result with
  | .error _ => pure ⟨after.state, [], .error "failed to produce block"⟩
  | .ok (_, block, proofs) => do
    -- the block is in the store by now, whether or not it can be signed
    let signed ← vs.signBlock E after.state block proposerIndex proofs
    pure ⟨after.state, signed⟩

/-! ## Attestations -/

/-- The vote of `create_attestations`, or none where the target lies before the source or the
    head is unknown. -/
def Store.attestationFor (store : Store) (slot : ℕ) : Res (Option AttestationData) := do
  let target ← store.getAttestationTarget
  if target.slot < store.latestJustified.slot then pure none
  else
    match store.blocks.lookup store.head with
    | none => pure none
    | some block =>
      pure (some {
        slot
        head := { root := store.head, slot := block.slot }
        target
        source := store.latestJustified })

/-- One round of the loop of `create_attestations`. -/
def ValidatorService.attest (E : Env) (vs : ValidatorService) (data : AttestationData) (idx : ℕ) :
    Res (List SignCall × List SignedAttestation) :=
  match vs.keyManager with
  | none => .ok ([], [{ validatorId := idx, message := data, signature := 0 }])
  | some km =>
    let call : SignCall := ⟨idx, epochOf data.slot, E.hashData data⟩
    match km.sign E call with
    | .ok signature => .ok ([call], [{ validatorId := idx, message := data, signature }])
    -- a validator whose signature fails is skipped
    | .error (.err _) => .ok ([call], [])
    | .error e => .error e

/-- `ValidatorService::create_attestations` -/
def ValidatorService.createAttestations (E : Env) (vs : ValidatorService) (store : Store)
    (slot : ℕ) : Res (List SignCall × List SignedAttestation) := do
  let vote ← store.attestationFor slot
  match vote with
  | none => pure ([], [])
  | some data => do
    let results ← vs.validatorIndices.mapM (vs.attest E data)
    pure (results.flatMap Prod.fst, results.flatMap Prod.snd)

/-! ## What the duties do -/

section Duties

variable {E : Env} {orders : IterationOrders} {vs : ValidatorService} {store : Store}
  {slot proposerIndex : ℕ}

/-- `sign_block` signs the vote of the proposer at most once, and signs for the block it was
    given. -/
theorem ValidatorService.signBlock_eq_ok {block : Block} {proofs : List AggregatedSignatureProof}
    {signed : Signed SignedBlockWithAttestation}
    (h : vs.signBlock E store block proposerIndex proofs = .ok signed) :
    (∀ call ∈ signed.calls, ∃ data, store.produceAttestationData block.slot = .ok data ∧
      call = proposerCall E block.slot proposerIndex data) ∧
    ∀ sb, signed.result = .ok sb → sb.block = block := by
  -- before the data is computed nothing is signed
  unfold ValidatorService.signBlock at h
  split at h
  · obtain rfl := Except.ok.inj h
    exact ⟨by simp, by simp⟩
  · exact absurd h (by simp)
  · rename_i data hdata
    -- from here on, the only call is the one for the data
    have hcall : ∀ call ∈ [proposerCall E block.slot proposerIndex data],
        ∃ data, store.produceAttestationData block.slot = .ok data ∧
          call = proposerCall E block.slot proposerIndex data := by
      intro call hcall
      exact ⟨data, hdata, List.mem_singleton.mp hcall⟩
    unfold ValidatorService.signProposal at h
    split at h
    · obtain rfl := Except.ok.inj h
      exact ⟨by simp, by simp⟩
    · simp only at h
      split at h
      · obtain rfl := Except.ok.inj h
        exact ⟨hcall, by simp⟩
      · exact absurd h (by simp)
      · split at h
        · obtain rfl := Except.ok.inj h
          exact ⟨hcall, by simp⟩
        · exact absurd h (by simp)
        · obtain rfl := Except.ok.inj h
          refine ⟨hcall, fun sb hsb => ?_⟩
          obtain rfl := Except.ok.inj hsb
          rfl

/-- A signed block has the vote of its proposer for the slot of the block, the signature of this
    vote, and the proofs that were handed in. -/
theorem ValidatorService.signBlock_result {block : Block} {proofs : List AggregatedSignatureProof}
    {signed : Signed SignedBlockWithAttestation} {sb : SignedBlockWithAttestation}
    (h : vs.signBlock E store block proposerIndex proofs = .ok signed)
    (hsb : signed.result = .ok sb) :
    ∃ km data sig, vs.keyManager = some km ∧ store.produceAttestationData block.slot = .ok data ∧
      km.sign E (proposerCall E block.slot proposerIndex data) = .ok sig ∧
      sb = ⟨⟨block, ⟨proposerIndex, data⟩⟩, ⟨proofs, sig⟩⟩ := by
  unfold ValidatorService.signBlock at h
  -- every other way out returns an error or panics
  split at h
  · obtain rfl := Except.ok.inj h
    exact absurd hsb (by simp)
  · exact absurd h (by simp)
  · rename_i data hdata
    unfold ValidatorService.signProposal at h
    split at h
    · obtain rfl := Except.ok.inj h
      exact absurd hsb (by simp)
    · rename_i km hkm
      simp only at h
      split at h
      · obtain rfl := Except.ok.inj h
        exact absurd hsb (by simp)
      · exact absurd h (by simp)
      · rename_i sig hsig
        split at h
        · obtain rfl := Except.ok.inj h
          exact absurd hsb (by simp)
        · exact absurd h (by simp)
        · rename_i pushed hpushed
          obtain rfl := Except.ok.inj h
          obtain rfl := Except.ok.inj hsb
          have hpushed : pushed = proofs := by simpa using pushAll_eq_ok (context_eq_ok.mp hpushed)
          exact ⟨km, data, sig, hkm, hdata, context_eq_ok.mp hsig, by rw [hpushed]⟩

/-- A proposal moves to the proposal head; there it adds a block and signs it, or fails without a
    signature. -/
theorem ValidatorService.buildBlockProposal_cases {proposal : Proposal}
    (h : vs.buildBlockProposal E orders store slot proposerIndex = .ok proposal) :
    ∃ s₀, store.getProposalHead slot = .ok s₀ ∧
      ((∃ built, s₀.buildOnHead E orders slot proposerIndex = .ok built ∧
        proposal.store = s₀.insertBlock (built.block.hashTreeRoot E) built.block built.post ∧
        vs.signBlock E proposal.store built.block proposerIndex built.proofs =
          .ok proposal.signed ∧
        store.produceBlockWithSignatures E orders slot proposerIndex = .ok ⟨proposal.store,
          .ok (built.block.hashTreeRoot E, built.block, built.proofs)⟩) ∨
      (proposal = ⟨s₀, [], .error "failed to produce block"⟩ ∧
        ∃ msg, store.produceBlockWithSignatures E orders slot proposerIndex =
          .ok ⟨s₀, .error msg⟩)) := by
  obtain ⟨after, hafter, h⟩ := bind_eq_ok.mp h
  obtain ⟨s₀, h₀, hcases⟩ := Store.produceBlockWithSignatures_eq_ok hafter
  refine ⟨s₀, h₀, ?_⟩
  rcases hcases with ⟨built, hbuilt, rfl⟩ | ⟨msg, rfl⟩
  · obtain ⟨signed, hsigned, h⟩ := bind_eq_ok.mp h
    obtain rfl := Except.ok.inj h
    exact Or.inl ⟨built, hbuilt, rfl, hsigned, hafter⟩
  · exact Or.inr ⟨(Except.ok.inj h).symm, msg, hafter⟩

theorem Store.produceAttestationData_slot {data : AttestationData}
    (h : store.produceAttestationData slot = .ok data) : data.slot = slot := by
  obtain ⟨head, -, h⟩ := bind_eq_ok.mp h
  obtain ⟨target, -, h⟩ := bind_eq_ok.mp h
  obtain rfl := Except.ok.inj h
  rfl

/-- The vote of `create_attestations` is the one of `produce_attestation_data`. -/
theorem Store.attestationFor_eq_some {data : AttestationData}
    (h : store.attestationFor slot = .ok (some data)) :
    store.produceAttestationData slot = .ok data := by
  obtain ⟨target, htarget, h⟩ := bind_eq_ok.mp h
  split_ifs at h
  · exact absurd (Except.ok.inj h) (by simp)
  · cases hhead : store.blocks.lookup store.head with
    | none =>
      rw [hhead] at h
      exact absurd (Except.ok.inj h) (by simp)
    | some block =>
      rw [hhead] at h
      obtain rfl := Option.some.inj (Except.ok.inj h)
      unfold Store.produceAttestationData
      rw [hhead, htarget]
      rfl

/-- Each validator signs the vote of the slot. -/
theorem ValidatorService.createAttestations_calls {r : List SignCall × List SignedAttestation}
    (h : vs.createAttestations E store slot = .ok r) :
    ∀ call ∈ r.1, ∃ data, store.produceAttestationData slot = .ok data ∧
      call.epoch = epochOf slot ∧ call.message = E.hashData data := by
  obtain ⟨vote, hvote, h⟩ := bind_eq_ok.mp h
  cases vote with
  | none =>
    obtain rfl := Except.ok.inj h
    simp
  | some data =>
    obtain ⟨results, hresults, h⟩ := bind_eq_ok.mp h
    obtain rfl := Except.ok.inj h
    have hdata := Store.attestationFor_eq_some hvote
    have hslot : data.slot = slot := Store.produceAttestationData_slot hdata
    intro call hcall
    obtain ⟨result, hresult, hcall⟩ := List.mem_flatMap.mp hcall
    obtain ⟨idx, -, hidx⟩ := (mem_mapM_iff hresults).mp hresult
    refine ⟨data, hdata, ?_⟩
    -- without a key manager there is no call, and otherwise there is one
    unfold ValidatorService.attest at hidx
    split at hidx
    · obtain rfl := Except.ok.inj hidx
      exact absurd hcall (by simp)
    · simp only at hidx
      rw [← hslot]
      split at hidx
      · obtain rfl := Except.ok.inj hidx
        obtain rfl := List.mem_singleton.mp hcall
        exact ⟨rfl, rfl⟩
      · obtain rfl := Except.ok.inj hidx
        obtain rfl := List.mem_singleton.mp hcall
        exact ⟨rfl, rfl⟩
      · exact absurd hidx (by simp)

end Duties

end ConsensusClient
