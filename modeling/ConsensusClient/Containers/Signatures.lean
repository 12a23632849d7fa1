import ConsensusClient.Containers.State

/-!
# Signatures of a Block

Translation of `xmss/src` and of the functions of `containers/src` that check signatures. The
values of the `xmss` crate are byte strings that are decoded when they are used, and a string
that does not decode makes the call panic.
-/

namespace ConsensusClient

/-! ## XMSS -/

/-- `PublicKey::as_lean` -/
def PublicKey.asLean (E : Env) (key : PublicKey) : Res PublicKey :=
  if E.decodesPublicKey key then .ok key else crash "PublicKey was instantiated incorrectly"

/-- `Signature::as_lean` -/
def Signature.asLean (E : Env) (signature : Signature) : Res Signature :=
  if E.decodesSignature signature then .ok signature
  else crash "signature internal representation must be valid leansig signature"

/-- `AggregatedSignature::as_lean` -/
def AggregatedSignature.asLean (E : Env) (proof : AggregatedSignature) :
    Res AggregatedSignature :=
  if E.decodesProof proof then .ok proof
  else crash "AggregatedSignature was not constructed properly"

/-- `Signature::verify` -/
def Signature.verify (E : Env) (signature : Signature) (key : PublicKey) (epoch : ℕ)
    (message : H256) : Res Unit := do
  let key ← PublicKey.asLean E key
  let signature ← Signature.asLean E signature
  ensure (E.xmssVerify key epoch message signature = true) "invalid signature"

/-- `SecretKey::sign` -/
def SecretKey.sign (E : Env) (key : SecretKey) (message : H256) (epoch : ℕ) : Res Signature :=
  okOr (E.xmssSign key message epoch) "failed to sign message"

/-- `AggregatedSignature::aggregate` -/
def AggregatedSignature.aggregate (E : Env) (keys : List PublicKey)
    (signatures : List Signature) (message : H256) (epoch : ℕ) : Res AggregatedSignature := do
  let keys ← keys.mapM (PublicKey.asLean E)
  let signatures ← signatures.mapM (Signature.asLean E)
  ensure (keys.length = signatures.length)
    s!"public key & signature count mismatch ({keys.length} != {signatures.length})"
  okOr (E.xmssAggregate keys signatures message epoch) "aggregation failed"

/-- `AggregatedSignature::verify` -/
def AggregatedSignature.verify (E : Env) (proof : AggregatedSignature) (keys : List PublicKey)
    (message : H256) (epoch : ℕ) : Res Unit := do
  let keys ← keys.mapM (PublicKey.asLean E)
  let proof ← AggregatedSignature.asLean E proof
  ensure (E.xmssVerifyAggregated keys message proof epoch = true) "invalid aggregated signature"

/-! ## Proofs of aggregated attestations -/

namespace AggregatedSignatureProof

/-- `AggregatedSignatureProof::aggregate` -/
def aggregate (E : Env) (participants : AggregationBits) (keys : List PublicKey)
    (signatures : List Signature) (message : H256) (epoch : ℕ) :
    Res AggregatedSignatureProof := do
  let proofData ← AggregatedSignature.aggregate E keys signatures message epoch
  pure { participants, proofData }

/-- `AggregatedSignatureProof::get_participant_indices` -/
def getParticipantIndices (proof : AggregatedSignatureProof) : Res (List ℕ) :=
  AggregationBits.toValidatorIndices proof.participants

/-- `AggregatedSignatureProof::verify` -/
def verify (E : Env) (proof : AggregatedSignatureProof) (keys : List PublicKey)
    (message : H256) (epoch : ℕ) : Res Unit :=
  AggregatedSignature.verify E proof.proofData keys message epoch

end AggregatedSignatureProof

/-! ## Verification of a block -/

/-- `slot.0 as u32` -/
def epochOf (slot : ℕ) : ℕ := slot % 2 ^ 32

/-- One round of the attestation loop of `verify_signatures`. -/
def verifyAggregated (E : Env) (validators : List Validator) (a : AggregatedAttestation)
    (proof : AggregatedSignatureProof) : Res Unit := do
  let ids ← AggregationBits.toValidatorIndices a.aggregationBits
  ids.forM fun id => ensure (id < validators.length)
    s!"validator index {id} out of range (max {validators.length})"
  let keys ← ids.mapM fun id =>
    okOr (validators[id]?.map fun v => v.pubkey) "index out of bounds"
  context "attestation aggregated signature verification failed"
    (proof.verify E keys (E.hashData a.data) (epochOf a.data.slot))

/-- `SignedBlockWithAttestation::verify_signatures` -/
def SignedBlockWithAttestation.verifySignatures (E : Env) (sb : SignedBlockWithAttestation)
    (parentState : State) : Res Unit := do
  let attestations := sb.block.body.attestations
  let proofs := sb.signature.attestationSignatures
  ensure (attestations.length = proofs.length)
    s!"attestation signature count mismatch: {attestations.length} attestations vs {proofs.length} signatures"
  let validators := parentState.validators
  (attestations.zip proofs).forM fun p => verifyAggregated E validators p.1 p.2
  let proposer := sb.message.proposerAttestation
  ensure (proposer.validatorId < validators.length)
    s!"proposer index {proposer.validatorId} out of range (max {validators.length})"
  let validator ← okOr validators[proposer.validatorId]?
    s!"proposer {proposer.validatorId} not found in state"
  context "Proposer signature verification failed"
    (Signature.verify E sb.signature.proposerSignature validator.pubkey
      (epochOf proposer.data.slot) (E.hashData proposer.data))

/-- Verification reads nothing of the parent state but the registry. -/
theorem SignedBlockWithAttestation.verifySignatures_congr (E : Env)
    (sb : SignedBlockWithAttestation) {s s' : State} (h : s.validators = s'.validators) :
    sb.verifySignatures E s = sb.verifySignatures E s' := by
  unfold SignedBlockWithAttestation.verifySignatures
  rw [h]

end ConsensusClient
