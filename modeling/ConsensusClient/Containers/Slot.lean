import Mathlib.Tactic.Ring
import ConsensusClient.Lib.Outcome

/-!
# Slots and Justifiability

Translation of `containers/src/slot.rs`. A slot is a `u64`; the model uses a natural number,
since no operation of the chain wraps around on slots below the history limit `2^18`.

`isJustifiableAfter` takes square roots in double precision. The two float operations it
uses, the cast from `u64` and `sqrt` followed by the cast back, are written out here as
round-to-nearest on 53 significant bits.
-/

namespace ConsensusClient

/-! ## Double precision -/

/-- `x as f64` for a `u64` `x`: the nearest integer with at most 53 significant bits, ties to
    the even significand. -/
def f64OfU64 (x : ℕ) : ℕ :=
  if x < 2 ^ 53 then x
  else
    let sh := Nat.log2 x - 52
    let q := x / 2 ^ sh
    let rem := x % 2 ^ sh
    let half := 2 ^ (sh - 1)
    if half < rem ∨ (rem = half ∧ q % 2 = 1) then (q + 1) * 2 ^ sh else q * 2 ^ sh

/-- Digit-by-digit integer square root: `r` is the part found so far, `i` binary digits remain. -/
def isqrtAux (x : ℕ) : ℕ → ℕ → ℕ
  | 0, r => r
  | i + 1, r =>
    if (r + 2 ^ i) * (r + 2 ^ i) ≤ x then isqrtAux x i (r + 2 ^ i) else isqrtAux x i r

/-- Integer square root of a number below `2^108`. -/
def isqrt (x : ℕ) : ℕ := isqrtAux x 54 0

/-- `x.sqrt() as u64` for an integer-valued double `x < 2^104`: the square root is rounded to 53
    significant bits (a tie cannot occur) and then truncated. -/
def f64SqrtAsU64 (x : ℕ) : ℕ :=
  let e := 52 - Nat.log2 x / 2
  let scaled := x * 4 ^ e
  let q := isqrt scaled
  let rounded := if q * q + q < scaled then q + 1 else q
  rounded / 2 ^ e

/-- `(x as f64).sqrt() as u64` -/
def sqrtAsU64 (x : ℕ) : ℕ := f64SqrtAsU64 (f64OfU64 x)

/-! ## Slot arithmetic -/

/-- `Slot::justified_index_after`: position of `slot` in a window that starts right after
    `finalizedSlot`, if it lies in it. -/
def justifiedIndexAfter (slot finalizedSlot : ℕ) : Option ℕ :=
  if finalizedSlot + 1 ≤ slot then some (slot - (finalizedSlot + 1)) else none

/-- The three rules of `Slot::is_justifiable_after`, on the distance to the finalized slot. -/
def justifiableDistance (delta : ℕ) : Bool :=
  if delta ≤ 5 then true
  else
    let sqrt := sqrtAsU64 delta
    if sqrt * sqrt = delta then true
    else
      let test := 4 * delta + 1
      let testSqrt := sqrtAsU64 test
      decide (testSqrt * testSqrt = test ∧ testSqrt % 2 = 1)

/-- `Slot::is_justifiable_after`; the assertion fails on a slot before the finalized one. -/
def isJustifiableAfter (slot finalized : ℕ) : Res Bool :=
  if finalized ≤ slot then .ok (justifiableDistance (slot - finalized))
  else crash "Candidate slot must not be before finalized slot"

/-! ## Small lemmas -/

theorem justifiedIndexAfter_eq_some {slot f i : ℕ} :
    justifiedIndexAfter slot f = some i ↔ slot = f + 1 + i := by
  unfold justifiedIndexAfter
  split_ifs with h
  · rw [Option.some.injEq]; omega
  · simp; omega

theorem justifiedIndexAfter_eq_none {slot f : ℕ} :
    justifiedIndexAfter slot f = none ↔ slot ≤ f := by
  unfold justifiedIndexAfter
  split_ifs with h
  · simp; omega
  · simp; omega

/-- The first slots after the finalized one are always justifiable. -/
theorem justifiableDistance_of_le_five {d : ℕ} (h : d ≤ 5) : justifiableDistance d = true := by
  simp [justifiableDistance, h]

theorem isJustifiableAfter_of_le {slot f : ℕ} (h : f ≤ slot) :
    isJustifiableAfter slot f = .ok (justifiableDistance (slot - f)) := by
  simp [isJustifiableAfter, h]

theorem isJustifiableAfter_eq_ok {slot f : ℕ} {b : Bool} :
    isJustifiableAfter slot f = .ok b ↔ f ≤ slot ∧ b = justifiableDistance (slot - f) := by
  unfold isJustifiableAfter
  split_ifs with h
  · simp [h, eq_comm]
  · simp [h]

theorem isJustifiableAfter_of_lt {slot f : ℕ} (h : slot < f) :
    isJustifiableAfter slot f = crash "Candidate slot must not be before finalized slot" := by
  simp [isJustifiableAfter, Nat.not_le.mpr h]

example : (List.range 31).filter justifiableDistance =
    [0, 1, 2, 3, 4, 5, 6, 9, 12, 16, 20, 25, 30] := by decide +kernel

end ConsensusClient
