import Mathlib.Data.List.AList
import Mathlib.Data.List.Sigma

/-!
# Finite Maps with an Iteration Order

Additions to Mathlib's `AList`, used as the model of a hash map whose iteration order is the
order of its entries. `retain` keeps the entries that satisfy a test, and `Lists` looks into a
map whose values are lists.
-/

namespace AList

variable {K V : Type} [DecidableEq K]

/-- `HashMap::retain` -/
def retain (p : K → V → Bool) (m : AList (fun _ : K => V)) : AList (fun _ : K => V) where
  entries := m.entries.filter fun e => p e.1 e.2
  nodupKeys := m.nodupKeys.sublist List.filter_sublist

/-- A key is looked up to a value exactly when the pair is an entry. -/
theorem lookup_eq_some_iff {m : AList (fun _ : K => V)} {k : K} {v : V} :
    m.lookup k = some v ↔ (⟨k, v⟩ : Sigma fun _ : K => V) ∈ m.entries :=
  mem_lookup_iff

theorem lookup_retain_eq_some {m : AList (fun _ : K => V)} {p : K → V → Bool} {k : K} {v : V} :
    (m.retain p).lookup k = some v ↔ m.lookup k = some v ∧ p k v = true := by
  rw [lookup_eq_some_iff, lookup_eq_some_iff]
  exact List.mem_filter

theorem mem_iff_exists_lookup {m : AList (fun _ : K => V)} {k : K} :
    k ∈ m ↔ ∃ v, m.lookup k = some v := by
  rw [← lookup_isSome, Option.isSome_iff_exists]

theorem mem_retain {m : AList (fun _ : K => V)} {p : K → V → Bool} {k : K} :
    k ∈ m.retain p ↔ ∃ v, m.lookup k = some v ∧ p k v = true := by
  rw [mem_iff_exists_lookup]
  simp only [lookup_retain_eq_some]

/-- Lookup after an insertion, both cases at once. -/
theorem lookup_insert_eq {m : AList (fun _ : K => V)} {k k' : K} {v : V} :
    (m.insert k' v).lookup k = if k = k' then some v else m.lookup k := by
  split_ifs with h
  · subst h; exact lookup_insert m
  · exact lookup_insert_ne h

/-- Lookup in a map with one entry. -/
theorem lookup_singleton_eq {k k' : K} {v : V} :
    (singleton k' v : AList (fun _ : K => V)).lookup k = if k = k' then some v else none := by
  rw [← insert_empty, lookup_insert_eq, lookup_empty]

/-- Lookup after a removal, both cases at once. -/
theorem lookup_erase_eq {m : AList (fun _ : K => V)} {k k' : K} :
    (m.erase k').lookup k = if k = k' then none else m.lookup k := by
  split_ifs with h
  · subst h; exact lookup_erase k m
  · exact lookup_erase_ne h

/-- Removing a key undoes its insertion. -/
theorem erase_insert {m : AList (fun _ : K => V)} {k : K} {v : V} :
    (m.insert k v).erase k = m.erase k := by
  apply AList.ext
  show ((m.insert k v).entries.kerase k) = m.entries.kerase k
  rw [entries_insert]
  exact List.kerase_cons_eq rfl

/-- Lookup in a left-biased union (`HashMap::extend` of `m₂` by `m₁`). -/
theorem lookup_union_eq {m₁ m₂ : AList (fun _ : K => V)} {k : K} :
    (m₁ ∪ m₂).lookup k = (m₁.lookup k).orElse fun _ => m₂.lookup k := by
  by_cases h : k ∈ m₁
  · obtain ⟨v, hv⟩ := mem_iff_exists_lookup.mp h
    rw [lookup_union_left h, hv]; rfl
  · rw [lookup_union_right h, lookup_eq_none.mpr h]; rfl

/-! ## Maps to lists -/

/-- `x` is in the list stored under `k`. -/
def Lists (m : AList (fun _ : K => List V)) (k : K) (x : V) : Prop :=
  ∃ xs, m.lookup k = some xs ∧ x ∈ xs

theorem not_lists_empty {k : K} {x : V} : ¬ (∅ : AList (fun _ : K => List V)).Lists k x := by
  rintro ⟨xs, hxs, -⟩
  exact absurd hxs (by simp)

/-- `HashMap::entry` with an empty default, and a push. -/
theorem lists_push {m : AList (fun _ : K => List V)} {k k' : K} {x y : V} :
    (m.insert k' ((m.lookup k').getD [] ++ [y])).Lists k x ↔ m.Lists k x ∨ k = k' ∧ x = y := by
  unfold Lists
  rw [lookup_insert_eq]
  split_ifs with hk
  · subst hk
    cases m.lookup k with
    | none => simp
    | some xs => simp
  · simp [hk]

theorem lists_of_erase {m : AList (fun _ : K => List V)} {k k' : K} {x : V}
    (h : (m.erase k').Lists k x) : m.Lists k x := by
  obtain ⟨xs, hxs, hx⟩ := h
  rw [lookup_erase_eq] at hxs
  split_ifs at hxs
  exact ⟨xs, hxs, hx⟩

/-- A loop that adds to the lists. -/
theorem lists_foldl {I : Type} {f : AList (fun _ : K => List V) → I → AList (fun _ : K => List V)}
    {k : K} {x : V} {Q : I → Prop} (hstep : ∀ m i, (f m i).Lists k x ↔ m.Lists k x ∨ Q i)
    (is : List I) (m : AList (fun _ : K => List V)) :
    (is.foldl f m).Lists k x ↔ m.Lists k x ∨ ∃ i ∈ is, Q i := by
  induction is generalizing m with
  | nil => simp
  | cons i is ih =>
    rw [List.foldl_cons, ih, hstep, or_assoc]
    simp

end AList
