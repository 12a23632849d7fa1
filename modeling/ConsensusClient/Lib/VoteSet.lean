import Mathlib.Data.Finset.Card
import Mathlib.Data.Finset.Range
import Mathlib.Data.Finset.Max

/-!
# Vote Sets and Quorums

Sets of voters out of `n`, represented by bit vectors of length `n`, and two-thirds quorums of
them. Two quorums share at least a third of the voters.

## Main results

* `BitsOf.count_eq_card`: the set bits of a vector count its voters
* `Quorum.inter`: two quorums of two thirds share a third
-/

/-! ## Bit vectors as sets -/

/-- The bit vector `bits` of length `n` has exactly the bits of `V` set. -/
structure BitsOf (n : ℕ) (bits : List Bool) (V : Finset ℕ) : Prop where
  length_eq : bits.length = n
  mem_iff : ∀ v, bits[v]? = some true ↔ v ∈ V

namespace BitsOf

variable {n : ℕ} {bits : List Bool} {V : Finset ℕ}

/-- The cleared vector is the empty set. -/
theorem replicate_false (n : ℕ) : BitsOf n (List.replicate n false) ∅ := by
  refine ⟨List.length_replicate, fun v => ?_⟩
  rw [List.getElem?_replicate]
  split_ifs <;> simp

/-- Members of a represented set are below its length. -/
theorem lt_of_mem (h : BitsOf n bits V) {v : ℕ} (hv : v ∈ V) : v < n := by
  have hget := (h.mem_iff v).mpr hv
  rw [← h.length_eq]
  exact (List.getElem?_eq_some_iff.mp hget).1

/-- Setting a bit inserts its position. -/
theorem set_true (h : BitsOf n bits V) {v : ℕ} (hv : v < n) :
    BitsOf n (bits.set v true) (insert v V) := by
  refine ⟨by rw [List.length_set, h.length_eq], fun u => ?_⟩
  have hlen := h.length_eq
  rw [List.getElem?_set, Finset.mem_insert, ← h.mem_iff u]
  split_ifs with h1 h2
  · simp [h1]
  · omega
  · constructor
    · exact Or.inr
    · rintro (rfl | hu)
      · exact absurd rfl h1
      · exact hu

/-- The set bits of a vector, counted one position at a time. -/
private theorem count_true_eq_card (bits : List Bool) :
    bits.count true = ((Finset.range bits.length).filter fun v => bits[v]? = some true).card := by
  induction bits using List.reverseRecOn with
  | nil => rfl
  | append_singleton l b ih =>
    have hsame : (Finset.range l.length).filter (fun v => (l ++ [b])[v]? = some true) =
        (Finset.range l.length).filter fun v => l[v]? = some true := by
      apply Finset.filter_congr
      intro v hv
      rw [List.getElem?_append_left (Finset.mem_range.mp hv)]
    rw [List.count_append, ih, List.length_append, List.length_singleton,
      Finset.range_add_one, Finset.filter_insert, hsame, List.getElem?_concat_length]
    cases b with
    | false => simp
    | true => simp

/-- The number of set bits is the size of the set. -/
theorem count_eq_card (h : BitsOf n bits V) : bits.count true = V.card := by
  rw [count_true_eq_card]
  congr 1
  ext v
  rw [Finset.mem_filter, h.mem_iff v, Finset.mem_range]
  constructor
  · exact And.right
  · intro hv
    refine ⟨?_, hv⟩
    rw [h.length_eq]
    exact h.lt_of_mem hv

end BitsOf

/-! ## Quorums -/

/-- At least two thirds of `n` voters. -/
def Quorum (n : ℕ) (V : Finset ℕ) : Prop := 2 * n ≤ 3 * V.card

instance (n : ℕ) (V : Finset ℕ) : Decidable (Quorum n V) :=
  inferInstanceAs (Decidable (2 * n ≤ 3 * V.card))

theorem Quorum.mono {n : ℕ} {V W : Finset ℕ} (h : Quorum n V) (hVW : V ⊆ W) : Quorum n W := by
  have hcard := Finset.card_le_card hVW
  unfold Quorum at *
  omega

/-- Two quorums of the same `n` voters have a third of the voters in common. -/
theorem Quorum.inter {n : ℕ} {V W : Finset ℕ} (hV : Quorum n V) (hW : Quorum n W)
    (hVn : V ⊆ Finset.range n) (hWn : W ⊆ Finset.range n) : n ≤ 3 * (V ∩ W).card := by
  have hunion : (V ∪ W).card ≤ n := by
    have := Finset.card_le_card (Finset.union_subset hVn hWn)
    rwa [Finset.card_range] at this
  have hsum := Finset.card_union_add_card_inter V W
  unfold Quorum at *
  omega

/-- Of at least one voter, nobody is no quorum. -/
theorem not_quorum_empty {n : ℕ} (hn : 0 < n) : ¬ Quorum n ∅ := by
  unfold Quorum
  rw [Finset.card_empty]
  omega
