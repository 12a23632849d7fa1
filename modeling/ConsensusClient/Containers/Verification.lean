import ConsensusClient.Containers.Pending
import ConsensusClient.Containers.Signatures

/-!
# What Verification of a Block Establishes

`verify_signatures` and the state transition are two passes over one signed block: the first
checks proofs against the registry, the second counts bits. This module says exactly when
verification accepts, when it panics, and what the two passes together guarantee about the votes
that are counted and about the validator that signed the block.

## Main results

* `SignedBlockWithAttestation.verifySignatures_eq_ok`: when verification accepts
* `verifySignatures_returns_iff`: when it returns at all
* `counted_votes_signed`: every vote that a verified block adds was signed by its validator
* `only_proposer_signs_iff`: when a block cannot be accepted under another signer
-/

namespace ConsensusClient

/-! ## Keys and signatures -/

section Xmss

variable {E : Env}

theorem PublicKey.asLean_eq_ok {key key' : PublicKey} :
    PublicKey.asLean E key = .ok key' ↔ E.decodesPublicKey key = true ∧ key = key' := by
  unfold PublicKey.asLean
  split_ifs with h
  · simp [h]
  · simp [h]

theorem Signature.asLean_eq_ok {sig sig' : Signature} :
    Signature.asLean E sig = .ok sig' ↔ E.decodesSignature sig = true ∧ sig = sig' := by
  unfold Signature.asLean
  split_ifs with h
  · simp [h]
  · simp [h]

theorem AggregatedSignature.asLean_eq_ok {proof proof' : AggregatedSignature} :
    AggregatedSignature.asLean E proof = .ok proof' ↔
      E.decodesProof proof = true ∧ proof = proof' := by
  unfold AggregatedSignature.asLean
  split_ifs with h
  · simp [h]
  · simp [h]

/-- A list of keys is decoded to itself, if each of them decodes. -/
theorem mapM_asLean_eq_ok {keys keys' : List PublicKey} :
    keys.mapM (PublicKey.asLean E) = .ok keys' ↔
      (∀ key ∈ keys, E.decodesPublicKey key = true) ∧ keys = keys' := by
  simp only [mapM_eq_ok, PublicKey.asLean_eq_ok, List.forall₂_and_left, List.forall₂_eq_eq_eq]

/-- A key that does not decode makes the call panic. -/
theorem panics_mapM_decoding {keys : List PublicKey} {key : PublicKey} (hkey : key ∈ keys)
    (h : ¬ E.decodesPublicKey key = true) : (keys.mapM (PublicKey.asLean E)).Panics := by
  induction keys with
  | nil => exact absurd hkey (by simp)
  | cons k keys ih =>
    rw [List.mapM_cons]
    by_cases hk : E.decodesPublicKey k = true
    · -- the first key decodes, so it is another one
      have hmem : key ∈ keys := by
        rcases List.mem_cons.mp hkey with rfl | hmem
        · exact absurd hk h
        · exact hmem
      rw [PublicKey.asLean_eq_ok.mpr ⟨hk, rfl⟩, ok_bind]
      exact panics_bind (ih hmem)
    · apply panics_bind
      exact ⟨_, if_neg hk⟩

/-- `AggregatedSignature::verify` accepts a proof that decodes, for keys that decode. -/
theorem AggregatedSignature.verify_eq_ok {proof : AggregatedSignature} {keys : List PublicKey}
    {message : H256} {epoch : ℕ} :
    AggregatedSignature.verify E proof keys message epoch = .ok () ↔
      (∀ key ∈ keys, E.decodesPublicKey key = true) ∧ E.decodesProof proof = true ∧
        E.xmssVerifyAggregated keys message proof epoch = true := by
  unfold AggregatedSignature.verify
  simp only [bind_eq_ok, mapM_asLean_eq_ok, AggregatedSignature.asLean_eq_ok, ensure_eq_ok]
  constructor
  · rintro ⟨_, ⟨hkeys, rfl⟩, _, ⟨hproof, rfl⟩, h⟩
    exact ⟨hkeys, hproof, h⟩
  · rintro ⟨hkeys, hproof, h⟩
    exact ⟨keys, ⟨hkeys, rfl⟩, proof, ⟨hproof, rfl⟩, h⟩

/-- It panics on every other key and proof. -/
theorem AggregatedSignature.returns_verify_iff {proof : AggregatedSignature}
    {keys : List PublicKey} {message : H256} {epoch : ℕ} :
    (AggregatedSignature.verify E proof keys message epoch).Returns ↔
      (∀ key ∈ keys, E.decodesPublicKey key = true) ∧ E.decodesProof proof = true := by
  unfold AggregatedSignature.verify
  by_cases hkeys : ∀ key ∈ keys, E.decodesPublicKey key = true
  · rw [mapM_asLean_eq_ok.mpr ⟨hkeys, rfl⟩, ok_bind]
    by_cases hproof : E.decodesProof proof = true
    · rw [AggregatedSignature.asLean_eq_ok.mpr ⟨hproof, rfl⟩, ok_bind]
      exact iff_of_true (returns_ensure _ _) ⟨hkeys, hproof⟩
    · refine iff_of_false (fun h => ?_) fun h => hproof h.2
      exact h.not_panics (panics_bind ⟨_, if_neg hproof⟩)
  · refine iff_of_false (fun h => ?_) fun h => hkeys h.1
    push Not at hkeys
    obtain ⟨key, hkey, hnot⟩ := hkeys
    exact h.not_panics (panics_bind (panics_mapM_decoding hkey hnot))

theorem Signature.returns_verify_iff {sig : Signature} {key : PublicKey} {epoch : ℕ}
    {message : H256} :
    (Signature.verify E sig key epoch message).Returns ↔
      E.decodesPublicKey key = true ∧ E.decodesSignature sig = true := by
  unfold Signature.verify
  by_cases hkey : E.decodesPublicKey key = true
  · rw [PublicKey.asLean_eq_ok.mpr ⟨hkey, rfl⟩, ok_bind]
    by_cases hsig : E.decodesSignature sig = true
    · rw [Signature.asLean_eq_ok.mpr ⟨hsig, rfl⟩, ok_bind]
      exact iff_of_true (returns_ensure _ _) ⟨hkey, hsig⟩
    · refine iff_of_false (fun h => ?_) fun h => hsig h.2
      exact h.not_panics (panics_bind ⟨_, if_neg hsig⟩)
  · refine iff_of_false (fun h => ?_) fun h => hkey h.1
    exact h.not_panics (panics_bind ⟨_, if_neg hkey⟩)

end Xmss

/-! ## One attestation and its proof -/

/-- The keys of the validators with the indices `ids`, in this order. -/
def registeredKeys (validators : List Validator) (ids : List ℕ) : List PublicKey :=
  ids.filterMap fun id => validators[id]?.map fun v => v.pubkey

/-- The proof passes its round of the attestation loop. -/
structure ProofVerifies (E : Env) (validators : List Validator) (a : AggregatedAttestation)
    (proof : AggregatedSignatureProof) : Prop where
  nonempty : AggregationBits.setIndices a.aggregationBits ≠ []
  registered : ∀ v ∈ AggregationBits.setIndices a.aggregationBits, v < validators.length
  verified : proof.verify E
    (registeredKeys validators (AggregationBits.setIndices a.aggregationBits))
    (E.hashData a.data) (epochOf a.data.slot) = .ok ()

/-- The round does not panic: the attestation names a validator, and where all it names are
    registered, their keys and the proof decode. -/
def ProofDecodes (E : Env) (validators : List Validator) (a : AggregatedAttestation)
    (proof : AggregatedSignatureProof) : Prop :=
  AggregationBits.setIndices a.aggregationBits ≠ [] ∧
    ((∀ v ∈ AggregationBits.setIndices a.aggregationBits, v < validators.length) →
      (∀ key ∈ registeredKeys validators (AggregationBits.setIndices a.aggregationBits),
        E.decodesPublicKey key = true) ∧ E.decodesProof proof.proofData = true)

section Attestations

variable {E : Env} {validators : List Validator} {a : AggregatedAttestation}
  {proof : AggregatedSignatureProof}

theorem mem_registeredKeys {ids : List ℕ} {key : PublicKey} :
    key ∈ registeredKeys validators ids ↔
      ∃ v ∈ ids, ∃ validator, validators[v]? = some validator ∧ validator.pubkey = key := by
  simp [registeredKeys]

/-- The keys of registered validators are found. -/
theorem mapM_registered {ids : List ℕ} (h : ∀ v ∈ ids, v < validators.length) :
    ids.mapM (fun id => okOr (validators[id]?.map fun v => v.pubkey) "index out of bounds") =
      .ok (registeredKeys validators ids) := by
  induction ids with
  | nil => rfl
  | cons v ids ih =>
    rw [List.forall_mem_cons] at h
    rw [List.mapM_cons, ih h.2, List.getElem?_eq_getElem h.1]
    simp [registeredKeys, okOr, h.1]

/-- What is left of a round once the indices passed. -/
theorem verifyAggregated_of_registered
    (hne : AggregationBits.setIndices a.aggregationBits ≠ [])
    (hreg : ∀ v ∈ AggregationBits.setIndices a.aggregationBits, v < validators.length) :
    verifyAggregated E validators a proof =
      context "attestation aggregated signature verification failed" (proof.verify E
        (registeredKeys validators (AggregationBits.setIndices a.aggregationBits))
        (E.hashData a.data) (epochOf a.data.slot)) := by
  unfold verifyAggregated
  rw [toValidatorIndices_eq_ok.mpr ⟨rfl, hne⟩, ok_bind,
    forM_eq_ok (u := ()) |>.mpr fun v hv => ensure_of (hreg v hv), ok_bind, mapM_registered hreg,
    ok_bind]

theorem verifyAggregated_eq_ok :
    verifyAggregated E validators a proof = .ok () ↔ ProofVerifies E validators a proof := by
  constructor
  · intro h
    have hcopy := h
    obtain ⟨ids, hids, h⟩ := bind_eq_ok.mp h
    obtain ⟨rfl, hne⟩ := toValidatorIndices_eq_ok.mp hids
    obtain ⟨_, hreg, -⟩ := bind_eq_ok.mp h
    have hreg : ∀ v ∈ AggregationBits.setIndices a.aggregationBits, v < validators.length :=
      fun v hv => ensure_eq_ok.mp (forM_eq_ok.mp hreg v hv)
    rw [verifyAggregated_of_registered hne hreg, context_eq_ok] at hcopy
    exact ⟨hne, hreg, hcopy⟩
  · intro h
    rw [verifyAggregated_of_registered h.nonempty h.registered, context_eq_ok]
    exact h.verified

theorem returns_verifyAggregated_iff :
    (verifyAggregated E validators a proof).Returns ↔ ProofDecodes E validators a proof := by
  unfold ProofDecodes
  by_cases hne : AggregationBits.setIndices a.aggregationBits = []
  · -- no bit is set: the assertion of `to_validator_indices` fails
    refine iff_of_false (fun h => ?_) fun h => h.1 hne
    exact h.not_panics (panics_bind ⟨_, if_pos hne⟩)
  · by_cases hreg : ∀ v ∈ AggregationBits.setIndices a.aggregationBits, v < validators.length
    · rw [verifyAggregated_of_registered hne hreg, returns_context_iff]
      simp only [ne_eq, hne, not_false_eq_true, true_and, AggregatedSignatureProof.verify,
        AggregatedSignature.returns_verify_iff]
      exact ⟨fun h _ => h, fun h => h hreg⟩
    · -- an index out of range ends the round with an error
      refine iff_of_true ?_ ⟨hne, fun h => absurd h hreg⟩
      unfold verifyAggregated
      rw [toValidatorIndices_eq_ok.mpr ⟨rfl, hne⟩, ok_bind]
      refine returns_bind (returns_forM_iff.mpr fun _ _ _ _ _ => returns_ensure _ _) ?_
      intro _ hpass
      exact absurd (fun v hv => ensure_eq_ok.mp (forM_eq_ok.mp hpass v hv)) hreg

end Attestations

/-! ## The signed block -/

/-- The vote verifies under the key of the validator it names. -/
def VoteVerifies (E : Env) (validators : List Validator) (vote : Attestation) (sig : Signature) :
    Prop :=
  ∃ validator, validators[vote.validatorId]? = some validator ∧
    Signature.verify E sig validator.pubkey (epochOf vote.data.slot) (E.hashData vote.data) = .ok ()

section SignedBlock

variable {E : Env} {s : State} {sb : SignedBlockWithAttestation}

/-- Verification accepts a block whose attestations have one valid proof each, and whose proposer
    attestation is signed by the validator it names. -/
theorem SignedBlockWithAttestation.verifySignatures_eq_ok :
    sb.verifySignatures E s = .ok () ↔
      List.Forall₂ (ProofVerifies E s.validators) sb.block.body.attestations
        sb.signature.attestationSignatures ∧
      VoteVerifies E s.validators sb.message.proposerAttestation
        sb.signature.proposerSignature := by
  rw [List.forall₂_iff_zip]
  unfold SignedBlockWithAttestation.verifySignatures VoteVerifies
  simp only [bind_eq_ok, ensure_eq_ok, okOr_eq_ok, context_eq_ok, forM_eq_ok,
    verifyAggregated_eq_ok]
  constructor
  · rintro ⟨_, hlen, _, hproofs, _, -, validator, hvalidator, hsig⟩
    exact ⟨⟨hlen, fun hab => hproofs _ hab⟩, validator, hvalidator, hsig⟩
  · rintro ⟨⟨hlen, hproofs⟩, validator, hvalidator, hsig⟩
    have hlt := (List.getElem?_eq_some_iff.mp hvalidator).1
    exact ⟨(), hlen, (), fun p hp => hproofs hp, (), hlt, validator, hvalidator, hsig⟩

/-- Verification returns exactly when every proof it comes to names a validator and decodes,
    together with the keys it is checked against, and, after the last proof, so do the signature
    and the key of the proposer attestation. -/
theorem verifySignatures_returns_iff :
    (sb.verifySignatures E s).Returns ↔
      (sb.block.body.attestations.length = sb.signature.attestationSignatures.length →
        (∀ pre p post, sb.block.body.attestations.zip sb.signature.attestationSignatures =
            pre ++ p :: post → (∀ q ∈ pre, ProofVerifies E s.validators q.1 q.2) →
          ProofDecodes E s.validators p.1 p.2) ∧
        ((∀ p ∈ sb.block.body.attestations.zip sb.signature.attestationSignatures,
            ProofVerifies E s.validators p.1 p.2) →
          ∀ validator, s.validators[sb.message.proposerAttestation.validatorId]? =
              some validator →
            E.decodesPublicKey validator.pubkey = true ∧
              E.decodesSignature sb.signature.proposerSignature = true)) := by
  unfold SignedBlockWithAttestation.verifySignatures
  by_cases hlen : sb.block.body.attestations.length = sb.signature.attestationSignatures.length
  · simp only [ensure_of hlen, ok_bind]
    rw [returns_seq_iff, returns_forM_iff, forall_prop_of_true hlen]
    simp only [returns_verifyAggregated_iff, verifyAggregated_eq_ok, forM_eq_ok]
    refine and_congr Iff.rfl (imp_congr Iff.rfl ?_)
    -- the proposer's part: a missing validator is an error
    cases hget : s.validators[sb.message.proposerAttestation.validatorId]? with
    | none =>
      refine iff_of_true (returns_bind (returns_ensure _ _) fun _ _ => ?_) (by simp)
      exact returns_bind (returns_okOr _ _) fun validator h => by simp at h
    | some validator =>
      have hlt := (List.getElem?_eq_some_iff.mp hget).1
      simp only [ensure_of hlt, ok_bind, okOr, returns_context_iff, Signature.returns_verify_iff,
        Option.some.injEq, forall_eq']
  · refine iff_of_true ?_ fun h => absurd h hlen
    refine returns_bind (returns_ensure _ _) fun _ h => ?_
    exact absurd (ensure_eq_ok.mp h) hlen

end SignedBlock

/-! ## Envelopes of one block -/

namespace ShortTally

/-- The vote that the proposer attestation at slot 2 carries. -/
def proposerVote : AttestationData := ⟨2, ⟨2, 1⟩, ⟨2, 1⟩, ⟨1, 0⟩⟩

/-- The vote of validator 0 in the body of the block at slot 2. -/
def bodyVote : AttestationData := ⟨1, ⟨2, 1⟩, ⟨2, 1⟩, ⟨1, 0⟩⟩

/-- The proof for the vote in the body. -/
def bodyProof : AggregatedSignatureProof where
  participants := [true]
  proofData := Nat.pair (toySignature 7 1 (env.hashData bodyVote)) 0

/-- The block at slot 2, whose proposer is validator 0, with a proposer attestation of `v` that is
    signed under the key `key`. -/
def envelope (v key : ℕ) : SignedBlockWithAttestation where
  message := {
    block := (Sample.block 2 2 2 3 votes2).block
    proposerAttestation := ⟨v, proposerVote⟩ }
  signature := {
    attestationSignatures := [bodyProof]
    proposerSignature := toySignature key 2 (env.hashData proposerVote) }

/-- The block at slot 2 with an attestation in which no bit is set. -/
def emptyEnvelope : SignedBlockWithAttestation where
  message := {
    block := (Sample.block 2 2 2 3 [Sample.vote [false] ⟨1, 0⟩ ⟨2, 1⟩]).block
    proposerAttestation := ⟨0, proposerVote⟩ }
  signature := (envelope 0 7).signature

end ShortTally

/-- An attestation in which no bit is set makes verification panic. -/
theorem verification_panics_without_voters :
    (ShortTally.emptyEnvelope.verifySignatures ShortTally.env ShortTally.state1).Panics :=
  ⟨"Aggregated attestation must reference at least one validator", by decide +kernel⟩

/-! ## Counted votes are signed -/

/-- Validator `v` is registered, and its key signed the vote `data`. -/
def SignedVote (Signed : PublicKey → H256 → ℕ → Prop) (E : Env) (validators : List Validator)
    (v : ℕ) (data : AttestationData) : Prop :=
  ∃ validator, validators[v]? = some validator ∧
    Signed validator.pubkey (E.hashData data) (epochOf data.slot)

/-- Validator `v` has a vote in the tally of `root`. -/
def VoteLoop.HasVote (l : VoteLoop) (root : H256) (v : ℕ) : Prop :=
  ∃ tally, l.justifications.lookup root = some tally ∧ tally[v]? = some true

/-- One of the votes is a signed vote of `v` for `root`. -/
def SignedAmong (Signed : PublicKey → H256 → ℕ → Prop) (E : Env) (validators : List Validator)
    (votes : List AggregatedAttestation) (root : H256) (v : ℕ) : Prop :=
  ∃ a ∈ votes, a.data.target.root = root ∧ v ∈ AggregationBits.setIndices a.aggregationBits ∧
    SignedVote Signed E validators v a.data

/-- Every vote that the vote loop takes from `votes` is signed, when the loop of `s` starts with
    the variables `l₀` and ends with `l`. -/
structure CountsSigned (Signed : PublicKey → H256 → ℕ → Prop) (E : Env) (s : State)
    (votes : List AggregatedAttestation) (l₀ l : VoteLoop) : Prop where
  /-- The bits that a round sets are those of validators that signed the vote of this round. -/
  set : ∀ pre a rest l₁ tally, votes = pre ++ a :: rest →
    pre.foldlM s.processAttestation l₀ = .ok l₁ → s.Tallied l₁ a tally →
    ∀ v, tally[v]? = some true → (s.tallyOf l₁ a.data.target.root)[v]? ≠ some true →
      v ∈ AggregationBits.setIndices a.aggregationBits ∧ SignedVote Signed E s.validators v a.data
  /-- The bits that count when a round compares its tally with two thirds were there before the
      block, or are those of validators that signed a vote of the block for this target. -/
  counted : ∀ pre a rest l₁ tally, votes = pre ++ a :: rest →
    pre.foldlM s.processAttestation l₀ = .ok l₁ → s.Tallied l₁ a tally →
    ∀ v, tally[v]? = some true → l₀.HasVote a.data.target.root v ∨
      SignedAmong Signed E s.validators (pre ++ [a]) a.data.target.root v
  /-- So are the bits of the tallies that the block leaves behind. -/
  stored : ∀ root v, l.HasVote root v →
    l₀.HasVote root v ∨ SignedAmong Signed E s.validators votes root v

section Counting

variable {E : Env} {s : State} {l l' : VoteLoop} {a : AggregatedAttestation}

/-- A bit that is set after casting votes was set before, or is one of them. -/
theorem castVotes_getElem? {tally tally' : List Bool} {ids : List ℕ} {v : ℕ}
    (h : castVotes tally ids = .ok tally') (hv : tally'[v]? = some true) :
    tally[v]? = some true ∨ v ∈ ids := by
  have hV : BitsOf tally.length tally
      ((Finset.range tally.length).filter fun u => tally[u]? = some true) := by
    refine ⟨rfl, fun u => ?_⟩
    simp only [Finset.mem_filter, Finset.mem_range, iff_and_self]
    intro hu
    exact (List.getElem?_eq_some_iff.mp hu).1
  have hmem := ((castVotes_eq_ok hV h).1.mem_iff v).mp hv
  rcases Finset.mem_union.mp hmem with hmem | hmem
  · exact Or.inl (Finset.mem_filter.mp hmem).2
  · exact Or.inr (List.mem_toFinset.mp hmem)

/-- A bit of the tally before a round is a vote of the variables of the loop. -/
theorem VoteLoop.hasVote_of_tallyOf {root : H256} {v : ℕ}
    (h : (s.tallyOf l root)[v]? = some true) : l.HasVote root v := by
  unfold State.tallyOf at h
  cases hlookup : l.justifications.lookup root with
  | some tally =>
    rw [hlookup] at h
    exact ⟨tally, hlookup, h⟩
  | none =>
    rw [hlookup, Option.getD_none, List.getElem?_replicate] at h
    exact absurd h (by split_ifs <;> simp)

/-- A tally after a round is one from before, or the one the round computed. -/
theorem State.Round.lookup (h : s.Round l a l') {root : H256} {tally : List Bool}
    (hl : l'.justifications.lookup root = some tally) :
    l.justifications.lookup root = some tally ∨
      root = a.data.target.root ∧ s.Tallied l a tally := by
  -- storing a tally writes one entry, and justifying its target erases that entry
  have hjust : ∀ (t : List Bool) (window : JustifiedSlots),
      (l.justifiedBy a t window).justifications.lookup root = some tally →
      l.justifications.lookup root = some tally := by
    intro t window ht
    by_cases hroot : root = a.data.target.root
    · rw [hroot] at ht
      exact absurd ht (by simp [VoteLoop.justifiedBy, VoteLoop.markJustified])
    · simpa [VoteLoop.justifiedBy, VoteLoop.markJustified, VoteLoop.storeTally,
        AList.lookup_erase_ne hroot, AList.lookup_insert_ne hroot] using ht
  cases h with
  | skipped => exact Or.inl hl
  | tallied t htal =>
    by_cases hroot : root = a.data.target.root
    · subst hroot
      obtain rfl : t = tally := by simpa [VoteLoop.storeTally] using hl
      exact Or.inr ⟨rfl, htal⟩
    · exact Or.inl (by simpa [VoteLoop.storeTally, AList.lookup_insert_ne hroot] using hl)
  | justified t htal hq window => exact Or.inl (hjust t window hl)
  | refinalized t htal hq window => exact Or.inl (hjust t window hl)
  | finalized t htal hq window =>
    obtain ⟨hl, -⟩ := AList.lookup_retain_eq_some.mp hl
    exact Or.inl (hjust t window hl)

/-- A vote in a tally after some rounds was there before them, or was cast in one of them. -/
theorem State.hasVote_foldlM {votes : List AggregatedAttestation} {root : H256} {v : ℕ}
    (h : votes.foldlM s.processAttestation l = .ok l') (hv : l'.HasVote root v) :
    l.HasVote root v ∨ ∃ a ∈ votes, a.data.target.root = root ∧
      v ∈ AggregationBits.setIndices a.aggregationBits := by
  refine foldlM_induction (I := fun l' => l'.HasVote root v → l.HasVote root v ∨
    ∃ a ∈ votes, a.data.target.root = root ∧
      v ∈ AggregationBits.setIndices a.aggregationBits) ?_ Or.inl h hv
  intro pre a post l₁ l₂ hsplit _ ih hround ⟨tally, hlookup, hbit⟩
  rcases (State.processAttestation_round hround).lookup hlookup with hold | ⟨rfl, htal⟩
  · exact ih ⟨tally, hold, hbit⟩
  · rcases castVotes_getElem? htal.cast hbit with hbefore | hid
    · exact ih (VoteLoop.hasVote_of_tallyOf hbefore)
    · exact Or.inr ⟨a, by simp [hsplit], rfl, hid⟩

/-- If all bits of the votes are bits of signed votes, the loop counts signed votes only. -/
theorem CountsSigned.of_forall {Signed : PublicKey → H256 → ℕ → Prop}
    {votes : List AggregatedAttestation}
    (hsigned : ∀ a ∈ votes, ∀ v ∈ AggregationBits.setIndices a.aggregationBits,
      SignedVote Signed E s.validators v a.data)
    (h : votes.foldlM s.processAttestation l = .ok l') :
    CountsSigned Signed E s votes l l' where
  set := by
    intro pre a rest l₁ tally hsplit _ htal v hbit hnew
    rcases castVotes_getElem? htal.cast hbit with hbefore | hid
    · exact absurd hbefore hnew
    · exact ⟨hid, hsigned a (by simp [hsplit]) v hid⟩
  counted := by
    intro pre a rest l₁ tally hsplit hpre htal v hbit
    rcases castVotes_getElem? htal.cast hbit with hbefore | hid
    · -- the vote was in the tally before the round, so an earlier round cast it
      rcases State.hasVote_foldlM hpre (VoteLoop.hasVote_of_tallyOf hbefore) with
        hstart | ⟨b, hb, hroot, hid⟩
      · exact Or.inl hstart
      · exact Or.inr ⟨b, by simp [hb], hroot, hid, hsigned b (by simp [hsplit, hb]) v hid⟩
    · exact Or.inr ⟨a, by simp, rfl, hid, hsigned a (by simp [hsplit]) v hid⟩
  stored := by
    intro root v hv
    rcases State.hasVote_foldlM h hv with hstart | ⟨a, ha, hroot, hid⟩
    · exact Or.inl hstart
    · exact Or.inr ⟨a, ha, hroot, hid, hsigned a ha v hid⟩

end Counting

section SignedVotes

variable {E : Env} {s s' : State} {sb : SignedBlockWithAttestation}

/-- A verified proof is a proof of the signatures of all validators with a set bit. -/
theorem ProofVerifies.signedVote {Signed : PublicKey → H256 → ℕ → Prop}
    {validators : List Validator} {a : AggregatedAttestation} {proof : AggregatedSignatureProof}
    (hsound : ∀ proof keys message epoch,
      AggregatedSignature.verify E proof keys message epoch = .ok () →
      ∀ key ∈ keys, Signed key message epoch)
    (h : ProofVerifies E validators a proof) {v : ℕ}
    (hv : v ∈ AggregationBits.setIndices a.aggregationBits) :
    SignedVote Signed E validators v a.data := by
  obtain ⟨validator, hget⟩ : ∃ validator, validators[v]? = some validator :=
    ⟨_, List.getElem?_eq_getElem (h.registered v hv)⟩
  refine ⟨validator, hget, ?_⟩
  exact hsound _ _ _ _ h.verified _ (mem_registeredKeys.mpr ⟨v, hv, _, hget, rfl⟩)

/-- Slots and header leave the stored tallies as they are. -/
theorem State.unflatten_beforeVotes {s₁ s₂ : State} {slot : ℕ} {block : Block}
    (h₁ : s.processSlots E slot = .ok s₁) (h₂ : s₁.processBlockHeader E block = .ok s₂) :
    s₂.unflatten = s.unflatten ∧ s₂.validators = s.validators := by
  obtain ⟨-, header, -, rfl⟩ := State.processSlots_frame h₁
  obtain ⟨rfl, -⟩ := State.processBlockHeader_eq_ok h₂
  exact ⟨rfl, rfl⟩

/-- The votes that a verified block adds to the tallies, or to a justification, are votes that
    registered validators signed. -/
theorem counted_votes_signed {Signed : PublicKey → H256 → ℕ → Prop}
    (hsound : ∀ proof keys message epoch,
      AggregatedSignature.verify E proof keys message epoch = .ok () →
      ∀ key ∈ keys, Signed key message epoch)
    (hverify : sb.verifySignatures E s = .ok ())
    (htransition : s.stateTransition E sb true = .ok s') :
    ∃ s₁ s₂ l₀ l, s.processSlots E sb.block.slot = .ok s₁ ∧
      s₁.processBlockHeader E sb.block = .ok s₂ ∧ s₂.validators = s.validators ∧
      s₂.voteLoop = .ok l₀ ∧ s.unflatten = .ok l₀.justifications ∧
      sb.block.body.attestations.foldlM s₂.processAttestation l₀ = .ok l ∧ s' = s₂.withVotes l ∧
      CountsSigned Signed E s₂ sb.block.body.attestations l₀ l := by
  obtain ⟨s₁, s₂, h₁, h₂, -, hvotes, -⟩ := State.stateTransition_eq_ok htransition
  obtain ⟨l₀, l, hl₀, hrun, hresult⟩ := State.processAttestations_eq_ok hvotes
  obtain ⟨htallies, hvalidators⟩ := State.unflatten_beforeVotes h₁ h₂
  have hstart : s.unflatten = .ok l₀.justifications := by
    obtain ⟨_, -, h⟩ := bind_eq_ok.mp hl₀
    obtain ⟨justifications, hj, h⟩ := bind_eq_ok.mp h
    obtain rfl := Except.ok.inj h
    rw [← htallies, hj]
  refine ⟨s₁, s₂, l₀, l, h₁, h₂, hvalidators, hl₀, hstart, hrun, hresult, ?_⟩
  apply CountsSigned.of_forall _ hrun
  rw [hvalidators]
  -- verification has checked every attestation of the body
  obtain ⟨hproofs, -⟩ := SignedBlockWithAttestation.verifySignatures_eq_ok.mp hverify
  intro a ha v hv
  obtain ⟨i, hi, rfl⟩ := List.getElem_of_mem ha
  exact (List.forall₂_iff_get.mp hproofs |>.2 i hi (hproofs.length_eq ▸ hi)).signedVote hsound hv

end SignedVotes

namespace ShortTally

/-- What the holders of the keys have signed: the key, the message and the epoch. -/
def signedLog : List (PublicKey × H256 × ℕ) := [(7, env.hashData bodyVote, 1)]

/-- The environment in which a proof is accepted for keys that signed only. -/
def soundEnv : Env :=
  { env with
    xmssVerifyAggregated := fun keys message _ epoch =>
      keys.all fun key => decide ((key, message, epoch) ∈ signedLog) }

/-- Its proofs are sound. -/
theorem soundEnv_sound (proof : AggregatedSignature) (keys : List PublicKey) (message : H256)
    (epoch : ℕ) (h : AggregatedSignature.verify soundEnv proof keys message epoch = .ok ()) :
    ∀ key ∈ keys, (key, message, epoch) ∈ signedLog := by
  obtain ⟨-, -, hall⟩ := AggregatedSignature.verify_eq_ok.mp h
  simpa [soundEnv] using hall

theorem envelope_verified : (envelope 0 7).verifySignatures soundEnv state1 = .ok () := by
  decide +kernel

theorem envelope_accepted :
    state1.stateTransition soundEnv (envelope 0 7) true = .ok state2 := by
  decide +kernel

end ShortTally

/-- The vote that the block at slot 2 adds is the one that validator 0 signed. -/
theorem vote_of_slot_two_signed :
    ∃ s₁ s₂ l₀ l, ShortTally.state1.processSlots ShortTally.soundEnv 2 = .ok s₁ ∧
      s₁.processBlockHeader ShortTally.soundEnv (ShortTally.envelope 0 7).block = .ok s₂ ∧
      s₂.validators = ShortTally.state1.validators ∧ s₂.voteLoop = .ok l₀ ∧
      ShortTally.state1.unflatten = .ok l₀.justifications ∧
      ShortTally.votes2.foldlM s₂.processAttestation l₀ = .ok l ∧
      ShortTally.state2 = s₂.withVotes l ∧
      CountsSigned (fun key message epoch => (key, message, epoch) ∈ ShortTally.signedLog)
        ShortTally.soundEnv s₂ ShortTally.votes2 l₀ l :=
  counted_votes_signed ShortTally.soundEnv_sound ShortTally.envelope_verified
    ShortTally.envelope_accepted

/-! ## The validator that signed the block -/

/-- The same block and proofs in an envelope with another proposer attestation. -/
def SignedBlockWithAttestation.resigned (sb : SignedBlockWithAttestation) (vote : Attestation)
    (sig : Signature) : SignedBlockWithAttestation where
  message := { sb.message with proposerAttestation := vote }
  signature := { sb.signature with proposerSignature := sig }

section Proposer

variable {E : Env} {s s' : State} {sb : SignedBlockWithAttestation}

/-- The state transition checks the proposer index of the block against its slot. -/
theorem State.stateTransition_proposer (h : s.stateTransition E sb true = .ok s') :
    sb.block.proposerIndex = sb.block.slot % s.validators.length := by
  obtain ⟨s₁, s₂, h₁, h₂, -, -, -⟩ := State.stateTransition_eq_ok h
  obtain ⟨-, header, -, rfl⟩ := State.processSlots_frame h₁
  obtain ⟨-, -, -, -, hproposer, -⟩ := State.processBlockHeader_eq_ok h₂
  exact hproposer.symm

/-- An accepted block is accepted in every envelope whose proposer attestation is signed by the
    validator it names, whichever registered validator that is. -/
theorem SignedBlockWithAttestation.verifySignatures_resigned {vote : Attestation}
    {sig : Signature} (hverify : sb.verifySignatures E s = .ok ()) :
    (sb.resigned vote sig).verifySignatures E s = .ok () ↔
      VoteVerifies E s.validators vote sig := by
  rw [verifySignatures_eq_ok]
  exact and_iff_right (verifySignatures_eq_ok.mp hverify).1

/-- Of an accepted block, every accepted envelope names the proposer of the slot exactly when no
    other registered validator has a vote with a valid signature. -/
theorem only_proposer_signs_iff (hverify : sb.verifySignatures E s = .ok ())
    (htransition : s.stateTransition E sb true = .ok s') :
    (∀ vote sig, (sb.resigned vote sig).verifySignatures E s = .ok () →
      s.stateTransition E (sb.resigned vote sig) true = .ok s' →
      vote.validatorId = sb.block.proposerIndex ∧
        sb.block.proposerIndex = sb.block.slot % s.validators.length) ↔
    ∀ v validator, s.validators[v]? = some validator → v ≠ sb.block.slot % s.validators.length →
      ∀ data sig, Signature.verify E sig validator.pubkey (epochOf data.slot) (E.hashData data) ≠
        .ok () := by
  have hproposer := State.stateTransition_proposer htransition
  simp only [SignedBlockWithAttestation.verifySignatures_resigned hverify]
  constructor
  · intro h v validator hget hne data sig hsig
    have hv := h ⟨v, data⟩ sig ⟨validator, hget, hsig⟩ htransition
    exact hne (hv.1.trans hv.2)
  · rintro h vote sig ⟨validator, hget, hsig⟩ -
    refine ⟨?_, hproposer⟩
    by_contra hne
    exact h vote.validatorId validator hget (hproposer ▸ hne) vote.data sig hsig

end Proposer

/-- The block at slot 2 of the chain with one validator, signed by it. -/
def SoloChain.envelope : SignedBlockWithAttestation where
  message := {
    block := (SoloChain.block 2 1 2 []).block
    proposerAttestation := ⟨0, ShortTally.proposerVote⟩ }
  signature := {
    attestationSignatures := []
    proposerSignature := toySignature 7 2 (SoloChain.env.hashData ShortTally.proposerVote) }

/-- Validator 1 signs the block at slot 2, of which validator 0 is the proposer, and it is
    accepted. -/
theorem block_signed_by_another_validator :
    (ShortTally.envelope 1 8).verifySignatures ShortTally.env ShortTally.state1 = .ok () ∧
      ShortTally.state1.stateTransition ShortTally.env (ShortTally.envelope 1 8) true =
        .ok ShortTally.state2 ∧
      (ShortTally.envelope 1 8).block.proposerIndex = 0 ∧
      (ShortTally.envelope 1 8).message.proposerAttestation.validatorId = 1 := by
  decide +kernel

theorem SoloChain.envelope_verified : envelope.verifySignatures env genesis = .ok () := by
  decide +kernel

theorem SoloChain.envelope_accepted :
    genesis.stateTransition env envelope true = .ok state2 := by
  decide +kernel

/-- In a registry with one validator, nobody else can sign its proposals. -/
theorem solo_block_signed_by_proposer :
    SoloChain.envelope.block.proposerIndex = 0 ∧
      ∀ vote sig, (SoloChain.envelope.resigned vote sig).verifySignatures SoloChain.env
          SoloChain.genesis = .ok () →
        SoloChain.genesis.stateTransition SoloChain.env (SoloChain.envelope.resigned vote sig)
          true = .ok SoloChain.state2 →
        vote.validatorId = 0 ∧ 0 = 2 % 1 := by
  refine ⟨rfl, (only_proposer_signs_iff SoloChain.envelope_verified
    SoloChain.envelope_accepted).mpr ?_⟩
  intro v validator hget hne
  have hlt : v < 1 := (List.getElem?_eq_some_iff.mp hget).1
  exact absurd (Nat.lt_one_iff.mp hlt) hne

end ConsensusClient
