import Mathlib.Data.List.Induction
import Mathlib.Data.List.TakeWhile
import Mathlib.Tactic.Ring

/-!
# Cutting and Joining Sequences

Three ways in which a flat sequence stands for structured data: pieces of one size written one
after the other, parts with a separator between them, and the bytes of a number. Each is
described by when the reader gives back what the writer was given.

## Main results

* `fullPieces_flatten`: pieces of one size are read back, and a short rest is skipped
* `splitOn_eq_iff`: the parts of a split are the parts joined by the separator
* `ofBigEndian_bigEndian`, `bigEndian_ofBigEndian`: a number and its digits
-/

/-! ## Pieces of one size -/

section Pieces

variable {α : Type*} {n : ℕ}

/-- The pieces of `n` elements; the last one is shorter if `n` does not divide the length. -/
def pieces (n : ℕ) (xs : List α) : List (List α) :=
  (List.range ((xs.length + n - 1) / n)).map fun i => (xs.drop (i * n)).take n

/-- The pieces that have `n` elements. -/
def fullPieces (n : ℕ) (xs : List α) : List (List α) :=
  (pieces n xs).filter fun piece => piece.length = n

/-- A full piece at the front is the first one. -/
theorem pieces_append {piece rest : List α} (hn : 0 < n) (hpiece : piece.length = n) :
    pieces n (piece ++ rest) = piece :: pieces n rest := by
  have hcount : ((piece ++ rest).length + n - 1) / n = (rest.length + n - 1) / n + 1 := by
    rw [List.length_append, hpiece, show n + rest.length + n - 1 = rest.length + n - 1 + n by omega,
      Nat.add_div_right _ hn]
  unfold pieces
  rw [hcount, List.range_succ_eq_map, List.map_cons, List.map_map]
  congr 1
  · simp [List.take_left' hpiece]
  · apply List.map_congr_left
    intro i _
    simp only [Function.comp_apply]
    -- the later pieces start after the first one
    rw [show (i + 1) * n = piece.length + i * n by rw [hpiece]; ring,
      List.drop_length_add_append]

/-- No piece of a short sequence is full. -/
theorem fullPieces_of_lt {rest : List α} (h : rest.length < n) : fullPieces n rest = [] := by
  unfold fullPieces pieces
  rw [List.filter_eq_nil_iff]
  intro piece hpiece
  obtain ⟨i, -, rfl⟩ := List.mem_map.mp hpiece
  simp only [List.length_take, List.length_drop, decide_eq_true_eq]
  omega

/-- Full pieces, written one after the other, are read back, and what is left over is skipped. -/
theorem fullPieces_flatten (hn : 0 < n) {parts : List (List α)} {rest : List α}
    (hparts : ∀ piece ∈ parts, piece.length = n) (hrest : rest.length < n) :
    fullPieces n (parts.flatten ++ rest) = parts := by
  induction parts with
  | nil => exact fullPieces_of_lt hrest
  | cons piece parts ih =>
    have hpiece := hparts piece List.mem_cons_self
    have htail := ih fun p hp => hparts p (List.mem_cons_of_mem _ hp)
    unfold fullPieces at htail ⊢
    rw [List.flatten_cons, List.append_assoc, pieces_append hn hpiece, List.filter_cons, htail]
    simp [hpiece]

/-- Every sequence is made of full pieces and a rest. -/
theorem exists_pieces (hn : 0 < n) (xs : List α) :
    ∃ parts rest, xs = List.flatten parts ++ rest ∧ (∀ piece ∈ parts, piece.length = n) ∧
      rest.length < n := by
  -- by induction on the length, one piece at a time
  induction hlen : xs.length using Nat.strong_induction_on generalizing xs with
  | _ len ih =>
    by_cases hshort : xs.length < n
    · exact ⟨[], xs, rfl, by simp, hshort⟩
    · obtain ⟨parts, rest, hsplit, hparts, hrest⟩ :=
        ih (xs.drop n).length (by rw [List.length_drop]; omega) (xs.drop n) rfl
      refine ⟨xs.take n :: parts, rest, ?_, ?_, hrest⟩
      · rw [List.flatten_cons, List.append_assoc, ← hsplit, List.take_append_drop]
      · intro piece hpiece
        rcases List.mem_cons.mp hpiece with rfl | hpiece
        · rw [List.length_take]
          omega
        · exact hparts piece hpiece

theorem length_flatten_pieces {parts : List (List α)}
    (hparts : ∀ piece ∈ parts, piece.length = n) : parts.flatten.length = parts.length * n := by
  induction parts with
  | nil => simp
  | cons piece parts ih =>
    rw [List.flatten_cons, List.length_append, hparts piece List.mem_cons_self,
      ih fun p hp => hparts p (List.mem_cons_of_mem _ hp), List.length_cons]
    ring

theorem length_fullPieces (hn : 0 < n) (xs : List α) :
    (fullPieces n xs).length = xs.length / n := by
  obtain ⟨parts, rest, rfl, hparts, hrest⟩ := exists_pieces hn xs
  rw [fullPieces_flatten hn hparts hrest, List.length_append, length_flatten_pieces hparts,
    Nat.mul_comm, Nat.mul_add_div hn, Nat.div_eq_of_lt hrest, Nat.add_zero]

end Pieces

/-! ## Parts with a separator -/

section Separator

variable {α : Type*} [DecidableEq α] {a : α} {xs ys : List α}

/-- No part contains the separator. -/
theorem not_mem_of_mem_splitOn {part : List α} (h : part ∈ xs.splitOn a) : a ∉ part := by
  induction xs generalizing part with
  | nil =>
    obtain rfl : part = [] := by simpa using h
    simp
  | cons x xs ih =>
    rw [List.splitOn_cons_eq_if_modifyHead] at h
    split_ifs at h with hx
    · rcases List.mem_cons.mp h with rfl | h
      · simp
      · exact ih h
    · -- the element joins the first part
      cases hparts : xs.splitOn a with
      | nil => exact absurd hparts (List.splitOn_ne_nil a xs)
      | cons head tail =>
        rw [hparts] at h ih
        rw [List.modifyHead_cons] at h
        rcases List.mem_cons.mp h with rfl | h
        · have hne : a ≠ x := by
            rintro rfl
            simp at hx
          simp [hne, ih List.mem_cons_self]
        · exact ih (List.mem_cons_of_mem _ h)

/-- What is split into the parts is the parts joined by the separator. -/
theorem splitOn_eq_iff {parts : List (List α)} (hne : parts ≠ []) :
    xs.splitOn a = parts ↔ (∀ part ∈ parts, a ∉ part) ∧ xs = [a].intercalate parts := by
  constructor
  · rintro rfl
    exact ⟨fun part hpart => not_mem_of_mem_splitOn hpart, (List.intercalate_splitOn a).symm⟩
  · rintro ⟨hparts, rfl⟩
    exact List.splitOn_intercalate a hparts hne

/-- What is left after the leading separators are dropped. -/
theorem dropWhile_eq_iff :
    xs.dropWhile (· == a) = ys ↔ ys.head? ≠ some a ∧ ∃ n, xs = List.replicate n a ++ ys := by
  constructor
  · rintro rfl
    constructor
    · intro hhead
      -- the first element that is left is not dropped
      have hnot := List.head?_dropWhile_not (· == a) xs
      rw [hhead] at hnot
      simp at hnot
    · refine ⟨(xs.takeWhile (· == a)).length, ?_⟩
      -- all that is dropped equals `a`
      have hall : xs.takeWhile (· == a) = List.replicate (xs.takeWhile (· == a)).length a := by
        rw [List.eq_replicate_iff]
        exact ⟨rfl, fun b hb => by simpa using List.mem_takeWhile_imp hb⟩
      rw [← hall, List.takeWhile_append_dropWhile]
  · rintro ⟨hhead, n, rfl⟩
    rw [List.dropWhile_append_of_pos (by simp)]
    cases ys with
    | nil => rfl
    | cons y ys =>
      have hy : y ≠ a := by simpa using hhead
      simp [hy]

end Separator

/-! ## Numbers as bytes -/

section BigEndian

/-- The `n` digits of a number to the base 256, the highest one first. -/
def bigEndian (n x : ℕ) : List UInt8 :=
  (List.range n).map fun i => UInt8.ofNat (x / 256 ^ (n - 1 - i))

/-- The number with these digits. -/
def ofBigEndian (bytes : List UInt8) : ℕ := bytes.foldl (fun x byte => x * 256 + byte.toNat) 0

@[simp] theorem length_bigEndian (n x : ℕ) : (bigEndian n x).length = n := by simp [bigEndian]

theorem bigEndian_succ (n x : ℕ) :
    bigEndian (n + 1) x = bigEndian n (x / 256) ++ [UInt8.ofNat x] := by
  unfold bigEndian
  rw [List.range_succ, List.map_append]
  congr 1
  · apply List.map_congr_left
    intro i hi
    have hlt : i < n := List.mem_range.mp hi
    rw [Nat.div_div_eq_div_mul, ← pow_succ', show n + 1 - 1 - i = n - 1 - i + 1 by omega]
  · simp

theorem ofBigEndian_concat (bytes : List UInt8) (byte : UInt8) :
    ofBigEndian (bytes ++ [byte]) = ofBigEndian bytes * 256 + byte.toNat := by
  simp [ofBigEndian]

/-- The digits of a number give it back, up to those that do not fit. -/
theorem ofBigEndian_bigEndian (n x : ℕ) : ofBigEndian (bigEndian n x) = x % 256 ^ n := by
  induction n generalizing x with
  | zero => simp [bigEndian, ofBigEndian, Nat.mod_one]
  | succ n ih =>
    rw [bigEndian_succ, ofBigEndian_concat, ih, pow_succ', Nat.mod_mul]
    simp
    ring

theorem ofBigEndian_lt (bytes : List UInt8) : ofBigEndian bytes < 256 ^ bytes.length := by
  induction bytes using List.reverseRecOn with
  | nil => simp [ofBigEndian]
  | append_singleton bytes byte ih =>
    rw [ofBigEndian_concat, List.length_append, List.length_singleton, pow_succ]
    have hbyte := byte.toNat_lt
    omega

/-- The number of a list of digits has these digits. -/
theorem bigEndian_ofBigEndian (bytes : List UInt8) :
    bigEndian bytes.length (ofBigEndian bytes) = bytes := by
  induction bytes using List.reverseRecOn with
  | nil => rfl
  | append_singleton bytes byte ih =>
    have hbyte := byte.toNat_lt
    have hdiv : (ofBigEndian bytes * 256 + byte.toNat) / 256 = ofBigEndian bytes := by omega
    have hlast : UInt8.ofNat (ofBigEndian bytes * 256 + byte.toNat) = byte := by
      apply UInt8.toNat_inj.mp
      rw [UInt8.toNat_ofNat']
      omega
    rw [List.length_append, List.length_singleton, bigEndian_succ, ofBigEndian_concat, hdiv, ih,
      hlast]

end BigEndian
