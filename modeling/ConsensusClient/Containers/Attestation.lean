import Mathlib.Data.List.Basic
import ConsensusClient.Containers.Basic

/-!
# Aggregation of Attestations

Translation of the functions of `containers/src/attestation.rs`: participation bitlists and the
grouping of single attestations by their data.
-/

namespace ConsensusClient

/-! ## Participation bits -/

/-- Positions of the set bits, in increasing order. -/
def AggregationBits.setIndices (bits : AggregationBits) : List ℕ :=
  (bits.zipIdx.filter (fun p => p.1)).map (fun p => p.2)

/-- `AggregationBits::to_validator_indices` -/
def AggregationBits.toValidatorIndices (bits : AggregationBits) : Res (List ℕ) :=
  if AggregationBits.setIndices bits = [] then
    crash "Aggregated attestation must reference at least one validator"
  else .ok (AggregationBits.setIndices bits)

/-- `AggregationBits::from_validator_indices` -/
def AggregationBits.fromValidatorIndices (indices : List ℕ) : Res AggregationBits :=
  if indices = [] then crash "Aggregated attestation must reference at least one validator"
  else
    let maxId := indices.foldl max 0
    if maxId < validatorRegistryLimit then
      .ok (indices.foldl (fun bits i => bits.set i true) (List.replicate (maxId + 1) false))
    else crash "Validator index out of range for aggregation bits"

/-! ## Grouping by data -/

/-- One round of the grouping loop of `aggregate_by_data`. -/
def addToGroups (groups : List (AttestationData × List ℕ)) (a : Attestation) :
    List (AttestationData × List ℕ) :=
  match groups with
  | [] => [(a.data, [a.validatorId])]
  | (data, ids) :: rest =>
    if data = a.data then (data, ids ++ [a.validatorId]) :: rest
    else (data, ids) :: addToGroups rest a

/-- `AggregatedAttestation::aggregate_by_data` -/
def aggregateByData (attestations : List Attestation) : Res (List AggregatedAttestation) :=
  (attestations.foldl addToGroups []).mapM fun g => do
    let bits ← AggregationBits.fromValidatorIndices g.2
    pure { aggregationBits := bits, data := g.1 }

/-- The loop of `has_duplicate_data`, with the roots seen so far. -/
def hasDuplicateRoot (seen : List H256) : List H256 → Bool
  | [] => false
  | root :: rest => if root ∈ seen then true else hasDuplicateRoot (root :: seen) rest

/-- `AggregatedAttestation::has_duplicate_data` -/
def hasDuplicateData (E : Env) (attestations : List AggregatedAttestation) : Bool :=
  hasDuplicateRoot [] (attestations.map fun a => E.hashData a.data)

/-! ## Set bits -/

/-- A position is listed exactly when its bit is set. -/
theorem mem_setIndices {bits : AggregationBits} {v : ℕ} :
    v ∈ AggregationBits.setIndices bits ↔ bits[v]? = some true := by
  unfold AggregationBits.setIndices
  constructor
  · intro h
    obtain ⟨⟨b, i⟩, hp, rfl⟩ := List.mem_map.mp h
    obtain ⟨hmem, hb⟩ := List.mem_filter.mp hp
    have hget := List.mem_zipIdx_iff_getElem?.mp hmem
    simp only at hb
    rw [hget, hb]
  · intro h
    refine List.mem_map.mpr ⟨(true, v), List.mem_filter.mpr ⟨?_, rfl⟩, rfl⟩
    exact List.mem_zipIdx_iff_getElem?.mpr h

/-- The indices are read off without a panic exactly when some bit is set. -/
theorem toValidatorIndices_eq_ok {bits : AggregationBits} {ids : List ℕ} :
    AggregationBits.toValidatorIndices bits = .ok ids ↔
      ids = AggregationBits.setIndices bits ∧ ids ≠ [] := by
  unfold AggregationBits.toValidatorIndices
  split_ifs with h
  · simp only [crash_ne_ok, false_iff, not_and, ne_eq, not_not]
    intro hi
    rw [hi, h]
  · simp only [Except.ok.injEq]
    constructor
    · rintro rfl; exact ⟨rfl, h⟩
    · rintro ⟨rfl, _⟩; rfl

end ConsensusClient
