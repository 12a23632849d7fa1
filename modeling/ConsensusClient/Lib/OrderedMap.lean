import Mathlib.Data.List.Basic
import Mathlib.Order.Lattice

/-!
# Maps Ordered by Their Keys

A map whose entries stand in increasing order of their keys, as the model of a B-tree map. The
order is part of the map, so that two maps with the same entries are equal.
-/

/-- `BTreeMap` -/
@[ext] structure BTreeMap (K V : Type) [LinearOrder K] where
  entries : List (K × V)
  /-- Each key occurs once, and the keys increase. -/
  sorted : entries.Pairwise fun e e' => e.1 < e'.1

namespace BTreeMap

variable {K V : Type} [LinearOrder K]

instance [DecidableEq V] : DecidableEq (BTreeMap K V) :=
  fun m m' => decidable_of_iff (m.entries = m'.entries) BTreeMap.ext_iff.symm

/-- `BTreeMap::keys` -/
def keys (m : BTreeMap K V) : List K := m.entries.map Prod.fst

/-- `BTreeMap::get` -/
def get (m : BTreeMap K V) (k : K) : Option V := (m.entries.find? fun e => e.1 = k).map Prod.snd

/-- Puts a value at the place of its key; a value that stands there is replaced. -/
def insertEntry (k : K) (v : V) : List (K × V) → List (K × V)
  | [] => [(k, v)]
  | e :: rest =>
    if k < e.1 then (k, v) :: e :: rest
    else if k = e.1 then (k, v) :: rest
    else e :: insertEntry k v rest

theorem mem_insertEntry {k : K} {v : V} {entries : List (K × V)} {e : K × V}
    (h : e ∈ insertEntry k v entries) : e = (k, v) ∨ e ∈ entries := by
  induction entries with
  | nil => exact Or.inl (by simpa [insertEntry] using h)
  | cons head rest ih =>
    rw [insertEntry] at h
    split_ifs at h
    · exact List.mem_cons.mp h
    · rcases List.mem_cons.mp h with h | h
      · exact Or.inl h
      · exact Or.inr (List.mem_cons_of_mem _ h)
    · rcases List.mem_cons.mp h with h | h
      · exact Or.inr (h ▸ List.mem_cons_self)
      · rcases ih h with h | h
        · exact Or.inl h
        · exact Or.inr (List.mem_cons_of_mem _ h)

theorem pairwise_insertEntry (k : K) (v : V) {entries : List (K × V)}
    (h : entries.Pairwise fun e e' => e.1 < e'.1) :
    (insertEntry k v entries).Pairwise fun e e' => e.1 < e'.1 := by
  induction entries with
  | nil => simp [insertEntry]
  | cons head rest ih =>
    obtain ⟨hhead, hrest⟩ := List.pairwise_cons.mp h
    rw [insertEntry]
    split_ifs with hlt heq
    · -- the new key comes first
      refine List.pairwise_cons.mpr ⟨fun e he => ?_, h⟩
      rcases List.mem_cons.mp he with rfl | he
      · exact hlt
      · exact hlt.trans (hhead e he)
    · exact List.pairwise_cons.mpr ⟨fun e he => heq ▸ hhead e he, hrest⟩
    · -- it goes somewhere behind the head
      refine List.pairwise_cons.mpr ⟨fun e he => ?_, ih hrest⟩
      rcases mem_insertEntry he with rfl | he
      · exact lt_of_le_of_ne (not_lt.mp hlt) (Ne.symm heq)
      · exact hhead e he

/-- `BTreeMap::insert` -/
def insert (m : BTreeMap K V) (k : K) (v : V) : BTreeMap K V where
  entries := insertEntry k v m.entries
  sorted := pairwise_insertEntry k v m.sorted

instance : EmptyCollection (BTreeMap K V) := ⟨⟨[], List.Pairwise.nil⟩⟩

/-- `BTreeMap::from_iter`: of two entries with one key the later one stays. -/
def ofList (entries : List (K × V)) : BTreeMap K V :=
  entries.foldl (fun m e => m.insert e.1 e.2) ∅

/-! ## Keys and values -/

theorem mem_keys {m : BTreeMap K V} {k : K} : k ∈ m.keys ↔ ∃ v, (k, v) ∈ m.entries := by
  simp [keys]

theorem pairwise_keys (m : BTreeMap K V) : m.keys.Pairwise (· < ·) :=
  List.pairwise_map.mpr m.sorted

theorem find_key_eq_some_iff {entries : List (K × V)} {k : K} {v : V}
    (h : entries.Pairwise fun e e' => e.1 < e'.1) :
    (entries.find? fun e => e.1 = k).map Prod.snd = some v ↔ (k, v) ∈ entries := by
  induction entries with
  | nil => simp
  | cons e rest ih =>
    obtain ⟨hhead, hrest⟩ := List.pairwise_cons.mp h
    rw [List.find?_cons, List.mem_cons]
    by_cases hk : e.1 = k
    · -- no later entry has this key
      have hlater : (k, v) ∉ rest := fun hmem => (hhead _ hmem).ne hk
      simp [hk, hlater, Prod.ext_iff, eq_comm]
    · have hne : (k, v) ≠ e := fun heq => hk (heq ▸ rfl)
      simp [hk, hne, ih hrest]

/-- A key is looked up to a value exactly when the pair is an entry. -/
theorem get_eq_some_iff {m : BTreeMap K V} {k : K} {v : V} :
    m.get k = some v ↔ (k, v) ∈ m.entries :=
  find_key_eq_some_iff m.sorted

/-! ## Collecting entries in order -/

/-- A key above all others goes to the end. -/
theorem insertEntry_of_lt {k : K} {v : V} {entries : List (K × V)}
    (h : ∀ e ∈ entries, e.1 < k) : insertEntry k v entries = entries ++ [(k, v)] := by
  induction entries with
  | nil => rfl
  | cons head rest ih =>
    have hhead := h head List.mem_cons_self
    rw [insertEntry, if_neg hhead.not_gt, if_neg hhead.ne', List.cons_append,
      ih fun e he => h e (List.mem_cons_of_mem _ he)]

theorem entries_foldl_insert {entries : List (K × V)} {m : BTreeMap K V}
    (h : (m.entries ++ entries).Pairwise fun e e' => e.1 < e'.1) :
    (entries.foldl (fun m e => m.insert e.1 e.2) m).entries = m.entries ++ entries := by
  induction entries generalizing m with
  | nil => simp
  | cons e rest ih =>
    -- the entry is above those collected before it
    have hlast : (m.insert e.1 e.2).entries = m.entries ++ [e] :=
      insertEntry_of_lt fun e' he' => (List.pairwise_append.mp h).2.2 e' he' e List.mem_cons_self
    rw [List.foldl_cons, ih, hlast, List.append_assoc, List.singleton_append]
    rw [hlast, List.append_assoc]
    exact h

/-- Entries collected in the order of their keys stay as they are. -/
theorem entries_ofList {entries : List (K × V)} (h : entries.Pairwise fun e e' => e.1 < e'.1) :
    (ofList entries).entries = entries :=
  entries_foldl_insert (m := ∅) h

end BTreeMap
