import ConsensusClient.Containers.Proofs
import ConsensusClient.ForkChoice.Authenticity

/-!
# The Proof Cache

`process_block_internal` keeps the proofs of a block for later block building, under the set bits
of the attestation of the body. Block building reads the participants inside the proof. Nothing
ties the two together: `verify_signatures` checks a proof against the bits of the body and does
not look at its participants. This module says exactly which proofs the cache has after a run,
and when each of them covers the validators it is stored for.

## Main results

* `ReachedFromAnchor.cacheOf`: the proofs of the cache are those of the processed blocks
* `proof_cache_sound_iff`: when each of them covers the validators it is stored for
* `cached_proof_misses_validator`: a verified block with a proof that does not
-/

namespace ConsensusClient

/-- The block carries the proof for the vote of a validator with this data. -/
def SignedBlockWithAttestation.Carries (E : Env) (sb : SignedBlockWithAttestation)
    (key : SignatureKey) (proof : AggregatedSignatureProof) : Prop :=
  ∃ (i : ℕ) (a : AggregatedAttestation), sb.block.body.attestations[i]? = some a ∧
    sb.signature.attestationSignatures[i]? = some proof ∧
    key.validatorId ∈ AggregationBits.setIndices a.aggregationBits ∧
    key.dataRoot = E.hashData a.data

/-- Every validator with a set bit in an attestation of the body is a participant of its proof. -/
def SignedBlockWithAttestation.ProofsCoverBits (sb : SignedBlockWithAttestation) : Prop :=
  ∀ (i : ℕ) (a : AggregatedAttestation) (proof : AggregatedSignatureProof),
    sb.block.body.attestations[i]? = some a →
    sb.signature.attestationSignatures[i]? = some proof →
    ∀ v ∈ AggregationBits.setIndices a.aggregationBits,
      v ∈ AggregationBits.setIndices proof.participants

/-- Every proof of the cache has the validator it is stored for among its participants. -/
def Store.ProofsSound (store : Store) : Prop :=
  ∀ key proof, store.aggregatedPayloads.Lists key proof →
    ∃ ids, proof.getParticipantIndices = .ok ids ∧ key.validatorId ∈ ids

/-- The cache has the proofs of the processed blocks and no others. -/
def Store.CacheOf (E : Env) (processed : List SignedBlockWithAttestation) (store : Store) : Prop :=
  ∀ key proof, store.aggregatedPayloads.Lists key proof ↔
    ∃ sb ∈ processed, sb.Carries E key proof

/-! ## One block -/

section Block

variable {E : Env} {sb : SignedBlockWithAttestation} {key : SignatureKey}
  {proof : AggregatedSignatureProof}

/-- A proof is added under each validator with a set bit. -/
theorem lists_cacheProof {proofs : List AggregatedSignatureProof}
    (payloads : HashMap SignatureKey (List AggregatedSignatureProof))
    (a : AggregatedAttestation × ℕ) :
    (cacheProof E proofs payloads a).Lists key proof ↔ payloads.Lists key proof ∨
      proofs[a.2]? = some proof ∧ key.validatorId ∈ AggregationBits.setIndices a.1.aggregationBits ∧
        key.dataRoot = E.hashData a.1.data := by
  unfold cacheProof
  cases hproof : proofs[a.2]? with
  | none => simp
  | some p =>
    -- under each of the validators, the proof is pushed
    refine (AList.lists_foldl (Q := fun v => key = ⟨v, E.hashData a.1.data⟩ ∧ proof = p)
      (fun m v => AList.lists_push) _ _).trans (or_congr_right ?_)
    obtain ⟨v, root⟩ := key
    constructor
    · rintro ⟨u, hu, hkey, rfl⟩
      obtain ⟨rfl, rfl⟩ := SignatureKey.mk.inj hkey
      exact ⟨rfl, hu, rfl⟩
    · rintro ⟨hp, hv, rfl⟩
      exact ⟨v, hv, rfl, (Option.some.inj hp).symm⟩

theorem lists_cacheProofs (store : Store) :
    (store.cacheProofs E sb).aggregatedPayloads.Lists key proof ↔
      store.aggregatedPayloads.Lists key proof ∨ sb.Carries E key proof := by
  refine (AList.lists_foldl (fun m a => lists_cacheProof m a) _ _).trans (or_congr_right ?_)
  constructor
  · rintro ⟨⟨a, i⟩, hmem, hproof, hv, hroot⟩
    exact ⟨i, a, List.mk_mem_zipIdx_iff_getElem?.mp hmem, hproof, hv, hroot⟩
  · rintro ⟨i, a, hmem, hproof, hv, hroot⟩
    exact ⟨(a, i), List.mk_mem_zipIdx_iff_getElem?.mpr hmem, hproof, hv, hroot⟩

/-- Participants of a proof are returned, unless there are none. -/
theorem exists_participant_iff {v : ℕ} :
    (∃ ids, proof.getParticipantIndices = .ok ids ∧ v ∈ ids) ↔
      v ∈ AggregationBits.setIndices proof.participants := by
  unfold AggregatedSignatureProof.getParticipantIndices
  constructor
  · rintro ⟨ids, hids, hv⟩
    obtain ⟨rfl, -⟩ := toValidatorIndices_eq_ok.mp hids
    exact hv
  · intro hv
    exact ⟨_, toValidatorIndices_eq_ok.mpr ⟨rfl, List.ne_nil_of_mem hv⟩, hv⟩

/-- The proofs of a block cover its bits exactly when each of them covers the validators for whose
    votes the block carries it. -/
theorem SignedBlockWithAttestation.proofsCoverBits_iff (E : Env) :
    sb.ProofsCoverBits ↔ ∀ key proof, sb.Carries E key proof →
      key.validatorId ∈ AggregationBits.setIndices proof.participants := by
  constructor
  · rintro h key proof ⟨i, a, ha, hproof, hv, -⟩
    exact h i a proof ha hproof _ hv
  · intro h i a proof ha hproof v hv
    exact h ⟨v, E.hashData a.data⟩ proof ⟨i, a, ha, hproof, hv, rfl⟩

end Block

/-! ## Runs -/

namespace Store.CacheOf

variable {E : Env} {processed : List SignedBlockWithAttestation} {store store' : Store}
  {ops : List StoreOp}

theorem frame (h : store.CacheOf E processed)
    (hcache : store'.aggregatedPayloads = store.aggregatedPayloads) :
    store'.CacheOf E processed := by
  unfold Store.CacheOf
  rw [hcache]
  exact h

theorem moved (h : store.CacheOf E processed) (hmoved : store.MovedTo store') :
    store'.CacheOf E processed := by
  unfold Store.MovedTo at hmoved
  rw [hmoved]
  exact h.frame rfl

theorem imported (h : store.CacheOf E processed) {sb : SignedBlockWithAttestation} {root : H256}
    {parent post : State} {head : H256} (himp : Imported E store sb root store' parent post head) :
    store'.CacheOf E (processed ++ [sb]) := by
  have hcache : store'.aggregatedPayloads = (store.cacheProofs E sb).aggregatedPayloads := by
    rw [himp.result, Store.castProposerVote_eq, Store.importBlock_eq]
    rfl
  intro key proof
  rw [hcache, lists_cacheProofs, h key proof]
  simp only [List.mem_append, List.mem_singleton, or_and_right, exists_or, exists_eq_left]

theorem onBlock (h : store.CacheOf E processed) {sb : SignedBlockWithAttestation}
    {r : Except String (List SignedBlockWithAttestation)}
    (hcall : store.onBlock E sb = .ok ⟨store', r⟩) :
    store'.CacheOf E (processed ++ r.toOption.getD []) := by
  refine (Store.onBlock_induction (Q := fun _ => True)
    (P := fun s more => s.CacheOf E (processed ++ more))
    (fun s more queue hs => hs.frame rfl) ?_ trivial (by simpa using h) (fun _ _ => trivial)
    hcall).1
  intro s more sb s' parent post head _ hs himp
  rw [← List.append_assoc]
  exact hs.imported himp

/-- Only blocks that are processed change the cache. -/
theorem apply (h : store.CacheOf E processed) {op : StoreOp}
    (happly : store.apply E op = .ok store') :
    store'.CacheOf E (processed ++ store.processedBy E op) := by
  -- a vote does not touch the cache
  have hattestation : ∀ {sa isFromBlock} {after : After Store Unit},
      store.onAttestation E sa isFromBlock = .ok after → after.state.CacheOf E processed := by
    intro sa isFromBlock after hafter
    rcases Store.onAttestation_eq_ok hafter with ⟨-, hstate⟩ | ⟨-, hstate⟩
    · apply h.frame
      rw [hstate]
      cases isFromBlock <;> rfl
    · rw [hstate]
      exact h
  cases Store.apply_step happly with
  | tick time hasProposal s hcall =>
    simpa [Store.processedBy] using h.moved (Store.onTick_movedTo hcall)
  | attestation sa isFromBlock after hcall => simpa [Store.processedBy] using hattestation hcall
  | gossipAttestation sa after hcall => simpa [Store.processedBy] using hattestation hcall
  | block sb s r hcall =>
    rw [Store.processedBy_block hcall]
    exact h.onBlock hcall
  | produced slot validatorIndex orders s₀ built hcall hbuilt =>
    simp only [Store.processedBy, List.append_nil]
    exact (h.moved (Store.getProposalHead_movedTo hcall)).frame rfl
  | unproduced slot validatorIndex orders s₀ hcall =>
    simpa [Store.processedBy] using h.moved (Store.getProposalHead_movedTo hcall)

theorem run (h : store.CacheOf E processed) (hrun : store.run E ops = .ok store') :
    store'.CacheOf E (processed ++ store.processed E ops) :=
  Store.runLog_induction (P := fun processed s => s.CacheOf E processed)
    (fun _ _ _ _ hs hop => hs.apply hop) h hrun

end Store.CacheOf

section Soundness

variable {E : Env} {init store : Store} {ops : List StoreOp}

/-- A new store has no proofs, and a run adds those of its blocks. -/
theorem ReachedFromAnchor.cacheOf (h : ReachedFromAnchor E init ops store) :
    store.CacheOf E (init.processed E ops) := by
  obtain ⟨state, block, config, rfl⟩ := h.anchor
  have hinit : (getForkchoiceStore E state block config).CacheOf E [] := by
    intro key proof
    exact iff_of_false AList.not_lists_empty (by simp)
  simpa using hinit.run h.run

/-- The proofs of the cache are sound exactly when those of all processed blocks cover the bits
    of their attestations. Then every proof stored for a remaining validator covers it in the
    greedy cover. -/
theorem proof_cache_sound_iff (h : ReachedFromAnchor E init ops store) :
    (store.ProofsSound ↔ ∀ sb ∈ init.processed E ops, sb.ProofsCoverBits) ∧
      (store.ProofsSound → ∀ (data : AttestationData) (remaining : Finset ℕ) (v : ℕ)
        (candidates : List AggregatedSignatureProof), v ∈ remaining →
        store.aggregatedPayloads.lookup ⟨v, E.hashData data⟩ = some candidates →
        ∃ covered, candidates.mapM (coverage remaining) = .ok covered ∧
          ∀ c ∈ covered, v ∈ c.2) := by
  have hcache := h.cacheOf
  constructor
  · simp only [Store.ProofsSound, exists_participant_iff, hcache _ _,
      SignedBlockWithAttestation.proofsCoverBits_iff E]
    constructor
    · intro hsound sb hsb key proof hcarries
      exact hsound key proof ⟨sb, hsb, hcarries⟩
    · rintro hall key proof ⟨sb, hsb, hcarries⟩
      exact hall sb hsb key proof hcarries
  · intro hsound data remaining v candidates hv hlookup
    -- a sound proof stored for a validator names him
    have hcovers : ∀ p ∈ candidates, ∃ c, coverage remaining p = .ok c ∧ v ∈ c.2 := by
      intro p hp
      obtain ⟨ids, hids, hmem⟩ := hsound _ p ⟨candidates, hlookup, hp⟩
      refine ⟨(p, remaining ∩ ids.toFinset), ?_, by simpa [hv] using hmem⟩
      rw [coverage, hids]
      rfl
    obtain ⟨covered, hcovered⟩ := exists_mapM_iff.mpr fun p hp =>
      (hcovers p hp).imp fun c hc => hc.1
    refine ⟨covered, hcovered, fun c hc => ?_⟩
    obtain ⟨p, hp, hpc⟩ := (mem_mapM_iff hcovered).mp hc
    obtain ⟨c', hpc', hv'⟩ := hcovers p hp
    rwa [Except.ok.inj (hpc.symm.trans hpc')]

end Soundness

/-! ## A proof with other participants -/

namespace ShortTally

/-- The block at slot 1, signed by its proposer. -/
def firstBlock : SignedBlockWithAttestation where
  message := {
    block := (Sample.block 2 1 1 2 []).block
    proposerAttestation := ⟨1, bodyVote⟩ }
  signature := {
    attestationSignatures := []
    proposerSignature := toySignature 8 1 (env.hashData bodyVote) }

/-- The block at slot 2, with the vote of validator 0 and its proof, which says that it is of
    these participants. -/
def relabelled (participants : AggregationBits) : SignedBlockWithAttestation :=
  { envelope 0 7 with
    signature := { (envelope 0 7).signature with
      attestationSignatures := [{ bodyProof with participants }] } }

/-- The store of a node that has seen the genesis block only. -/
def init : Store :=
  getForkchoiceStore env genesis (Sample.block 2 0 0 1 []) { genesisTime := 0 }

def deliveries (participants : AggregationBits) : List StoreOp :=
  [.block firstBlock, .block (relabelled participants)]

end ShortTally

/-- The proof says that it is of validator 0, whose vote it proves. -/
theorem proof_of_slot_two_is_sound : ∃ store,
    ReachedFromAnchor ShortTally.env ShortTally.init (ShortTally.deliveries [true]) store ∧
      store.aggregatedPayloads.Lists ⟨0, ShortTally.env.hashData ShortTally.bodyVote⟩
        ShortTally.bodyProof ∧ store.ProofsSound := by
  have h : (ShortTally.init.run ShortTally.env (ShortTally.deliveries [true])).toOption.map
      (fun s => s.aggregatedPayloads.lookup ⟨0, ShortTally.env.hashData ShortTally.bodyVote⟩) =
        some (some [ShortTally.bodyProof]) := by
    decide +kernel
  have hprocessed : ShortTally.init.processed ShortTally.env (ShortTally.deliveries [true]) =
      [ShortTally.firstBlock, ShortTally.relabelled [true]] := by
    decide +kernel
  obtain ⟨store, hrun, hlookup⟩ := exists_ok_of_map h
  have hreach : ReachedFromAnchor ShortTally.env ShortTally.init (ShortTally.deliveries [true])
      store := ⟨⟨_, _, _, rfl⟩, hrun⟩
  refine ⟨store, hreach, ⟨_, hlookup, by simp⟩, (proof_cache_sound_iff hreach).1.mpr ?_⟩
  -- the first block carries no votes, and the second one carries this proof
  rw [hprocessed, List.forall_mem_cons, List.forall_mem_singleton]
  constructor
  · intro i a proof ha
    exact absurd ha
      (by simp [ShortTally.firstBlock, Sample.block, SignedBlockWithAttestation.block])
  · intro i a proof ha hproof v hv
    cases i with
    | zero =>
      obtain rfl := Option.some.inj ha
      obtain rfl := Option.some.inj hproof
      exact hv
    | succ i => exact absurd ha (by simp [ShortTally.relabelled, ShortTally.envelope,
        ShortTally.votes2, Sample.block, SignedBlockWithAttestation.block])

/-- Both blocks pass the verification, but the proof of the second one says that it is of
    validator 1. It is stored for validator 0. -/
theorem cached_proof_misses_validator : ∃ store proof,
    ShortTally.firstBlock.verifySignatures ShortTally.env ShortTally.genesis = .ok () ∧
      (ShortTally.relabelled [false, true]).verifySignatures ShortTally.env ShortTally.state1 =
        .ok () ∧
      ReachedFromAnchor ShortTally.env ShortTally.init (ShortTally.deliveries [false, true])
        store ∧
      ShortTally.init.processed ShortTally.env (ShortTally.deliveries [false, true]) =
        [ShortTally.firstBlock, ShortTally.relabelled [false, true]] ∧
      store.aggregatedPayloads.Lists ⟨0, ShortTally.env.hashData ShortTally.bodyVote⟩ proof ∧
      proof.getParticipantIndices = .ok [1] := by
  have h : (ShortTally.init.run ShortTally.env (ShortTally.deliveries [false, true])).toOption.map
      (fun s => s.aggregatedPayloads.lookup ⟨0, ShortTally.env.hashData ShortTally.bodyVote⟩) =
        some (some [{ ShortTally.bodyProof with participants := [false, true] }]) := by
    decide +kernel
  obtain ⟨store, hrun, hlookup⟩ := exists_ok_of_map h
  exact ⟨store, _, by decide +kernel, by decide +kernel, ⟨⟨_, _, _, rfl⟩, hrun⟩, by decide +kernel,
    ⟨_, hlookup, List.mem_singleton_self _⟩, by decide +kernel⟩

end ConsensusClient
