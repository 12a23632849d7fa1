import Mathlib.Tactic.Linarith
import ConsensusClient.Containers.Slot

/-!
# Justifiable Slots

`is_justifiable_after` recognises squares and pronic numbers by square roots in double precision.
Below `2^53` the cast to a double is exact, and the rounded root of a number is its integer
square root or the next number; the root of a square is exact. Squaring the result therefore
decides both questions, and nothing on the way leaves the range of `u64`.

## Main results

* `sqrtAsU64_bounds`: how far the rounded root is from the integer root
* `sqrtAsU64_mul_self_iff`: squaring it recognises the squares all the same
* `isJustifiableAfter_iff`: the three kinds of distances, and no overflow on the way
-/

namespace ConsensusClient

/-! ## Rounded square roots -/

section Root

variable {x k : ℕ}

/-- The digits found so far and those still to come enclose the root. -/
theorem isqrtAux_eq_sqrt {i r : ℕ} (hle : r * r ≤ x) (hlt : x < (r + 2 ^ i) * (r + 2 ^ i)) :
    isqrtAux x i r = Nat.sqrt x := by
  induction i generalizing r with
  | zero =>
    rw [isqrtAux, Nat.eq_sqrt]
    exact ⟨hle, by simpa using hlt⟩
  | succ i ih =>
    rw [isqrtAux]
    split_ifs with hdigit
    · -- the digit is set, and the rest is below it
      apply ih hdigit
      rw [show r + 2 ^ i + 2 ^ i = r + 2 ^ (i + 1) by ring]
      exact hlt
    · exact ih hle (Nat.lt_of_not_le hdigit)

theorem isqrt_eq_sqrt (hx : x < 2 ^ 108) : isqrt x = Nat.sqrt x := by
  apply isqrtAux_eq_sqrt
  · exact Nat.zero_le x
  · calc x < 2 ^ 108 := hx
      _ = (0 + 2 ^ 54) * (0 + 2 ^ 54) := by norm_num

/-- The radicand of `f64SqrtAsU64` has 105 or 106 binary digits. -/
theorem scaled_lt (hx : x < 2 ^ 53) : x * 4 ^ (52 - Nat.log2 x / 2) < 2 ^ 108 := by
  rcases Nat.eq_zero_or_pos x with rfl | hpos
  · simp
  · have hlog : Nat.log2 x < 53 := (Nat.log2_lt hpos.ne').mpr hx
    have hlt : x < 2 ^ (Nat.log2 x + 1) := Nat.lt_log2_self
    calc x * 4 ^ (52 - Nat.log2 x / 2)
        < 2 ^ (Nat.log2 x + 1) * 4 ^ (52 - Nat.log2 x / 2) :=
          Nat.mul_lt_mul_of_pos_right hlt (by positivity)
      _ = 2 ^ (Nat.log2 x + 1 + 2 * (52 - Nat.log2 x / 2)) := by
          rw [show 4 = 2 ^ 2 by norm_num, ← pow_mul, ← pow_add]
      _ ≤ 2 ^ 108 := Nat.pow_le_pow_right (by norm_num) (by omega)

/-- The integer root of the scaled radicand lies between the scaled roots. -/
theorem sqrt_scaled {e : ℕ} :
    Nat.sqrt x * 2 ^ e ≤ Nat.sqrt (x * 4 ^ e) ∧
      Nat.sqrt (x * 4 ^ e) < (Nat.sqrt x + 1) * 2 ^ e := by
  have hpow : (4 : ℕ) ^ e = 2 ^ e * 2 ^ e := by
    rw [show (4 : ℕ) = 2 * 2 by norm_num, mul_pow]
  constructor
  · rw [Nat.le_sqrt, hpow]
    calc Nat.sqrt x * 2 ^ e * (Nat.sqrt x * 2 ^ e)
        = Nat.sqrt x * Nat.sqrt x * (2 ^ e * 2 ^ e) := by ring
      _ ≤ x * (2 ^ e * 2 ^ e) := Nat.mul_le_mul_right _ (Nat.sqrt_le x)
  · rw [Nat.sqrt_lt, hpow]
    calc x * (2 ^ e * 2 ^ e)
        < (Nat.sqrt x + 1) * (Nat.sqrt x + 1) * (2 ^ e * 2 ^ e) :=
          Nat.mul_lt_mul_of_pos_right (Nat.lt_succ_sqrt x) (by positivity)
      _ = (Nat.sqrt x + 1) * 2 ^ e * ((Nat.sqrt x + 1) * 2 ^ e) := by ring

/-- The rounded root, truncated, is the integer root or the next number. -/
theorem sqrtAsU64_bounds (hx : x < 2 ^ 53) :
    Nat.sqrt x ≤ sqrtAsU64 x ∧ sqrtAsU64 x ≤ Nat.sqrt x + 1 := by
  unfold sqrtAsU64 f64OfU64 f64SqrtAsU64
  rw [if_pos hx]
  simp only [isqrt_eq_sqrt (scaled_lt hx)]
  generalize 52 - Nat.log2 x / 2 = e
  obtain ⟨hlow, hhigh⟩ := sqrt_scaled (x := x) (e := e)
  have hpos : 0 < 2 ^ e := by positivity
  constructor
  · rw [Nat.le_div_iff_mul_le hpos]
    split_ifs
    · omega
    · exact hlow
  · rw [mul_comm (Nat.sqrt x + 1)] at hhigh
    apply Nat.div_le_of_le_mul
    split_ifs
    · exact hhigh
    · exact hhigh.le

/-- The root of a square is exact. -/
theorem sqrtAsU64_square (hx : k * k < 2 ^ 53) : sqrtAsU64 (k * k) = k := by
  unfold sqrtAsU64 f64OfU64 f64SqrtAsU64
  rw [if_pos hx]
  simp only [isqrt_eq_sqrt (scaled_lt hx)]
  generalize 52 - Nat.log2 (k * k) / 2 = e
  have hscaled : k * k * 4 ^ e = k * 2 ^ e * (k * 2 ^ e) := by
    rw [show (4 : ℕ) = 2 * 2 by norm_num, mul_pow]
    ring
  -- the root of the scaled square is the scaled root, and nothing is rounded
  rw [hscaled, Nat.sqrt_eq, if_neg (by omega)]
  exact Nat.mul_div_cancel k (by positivity)

/-- Squaring the rounded root recognises the squares. -/
theorem sqrtAsU64_mul_self_iff (hx : x < 2 ^ 53) :
    sqrtAsU64 x * sqrtAsU64 x = x ↔ ∃ k, x = k * k := by
  constructor
  · intro h
    exact ⟨sqrtAsU64 x, h.symm⟩
  · rintro ⟨k, rfl⟩
    rw [sqrtAsU64_square hx]

/-- The square of the rounded root fits into a `u64`. -/
theorem sqrtAsU64_mul_self_lt (hx : x < 2 ^ 53) : sqrtAsU64 x * sqrtAsU64 x < 2 ^ 64 := by
  have hroot : Nat.sqrt x < 2 ^ 27 := by
    rw [Nat.sqrt_lt]
    exact hx.trans (by norm_num)
  have hle : sqrtAsU64 x ≤ 2 ^ 27 := (sqrtAsU64_bounds hx).2.trans hroot
  calc sqrtAsU64 x * sqrtAsU64 x ≤ 2 ^ 27 * 2 ^ 27 := Nat.mul_le_mul hle hle
    _ < 2 ^ 64 := by norm_num

end Root

/-! ## Distances -/

section Distance

variable {d : ℕ}

theorem odd_of_mul_self_eq {k : ℕ} (h : k * k = 4 * d + 1) : k % 2 = 1 := by
  rcases Nat.mod_two_eq_zero_or_one k with heven | hodd
  · have hmod : k * k % 2 = 0 := by rw [Nat.mul_mod, heven]
    omega
  · exact hodd

/-- `4 * d + 1` is a square exactly for the pronic numbers. -/
theorem four_mul_add_one_square_iff :
    (∃ k, 4 * d + 1 = k * k) ↔ ∃ k, d = k * (k + 1) := by
  constructor
  · rintro ⟨k, hk⟩
    -- the square is odd, hence so is its root
    have hodd := odd_of_mul_self_eq hk.symm
    obtain ⟨m, rfl⟩ : ∃ m, k = 2 * m + 1 := ⟨k / 2, by omega⟩
    have hk' : 4 * d + 1 = 4 * (m * (m + 1)) + 1 := by rw [hk]; ring
    exact ⟨m, by omega⟩
  · rintro ⟨k, rfl⟩
    exact ⟨2 * k + 1, by ring⟩

/-- The three rules for a distance. -/
theorem justifiableDistance_iff (hd : 4 * d + 1 < 2 ^ 53) :
    justifiableDistance d = true ↔
      d ≤ 5 ∨ (∃ k, d = k * k) ∨ ∃ k, d = k * (k + 1) := by
  have hsquare := sqrtAsU64_mul_self_iff (x := d) (by omega)
  have htest := sqrtAsU64_mul_self_iff (x := 4 * d + 1) hd
  unfold justifiableDistance
  by_cases hsmall : d ≤ 5
  · simp [hsmall]
  · by_cases hroot : sqrtAsU64 d * sqrtAsU64 d = d
    · simp [hsmall, hroot, hsquare.mp hroot]
    · have hpronic : (sqrtAsU64 (4 * d + 1) * sqrtAsU64 (4 * d + 1) = 4 * d + 1 ∧
          sqrtAsU64 (4 * d + 1) % 2 = 1) ↔ ∃ k, d = k * (k + 1) := by
        rw [← four_mul_add_one_square_iff, ← htest]
        exact ⟨fun h => h.1, fun h => ⟨h, odd_of_mul_self_eq h⟩⟩
      have hno : ¬ ∃ k, d = k * k := fun h => hroot (hsquare.mpr h)
      simp only [hsmall, hroot, hno, if_false, false_or, decide_eq_true_eq, hpronic]

end Distance

/-! ## Operations on `u64` -/

/-- `a - b` on `u64`, where a negative result panics. -/
def subU64 (a b : ℕ) : Res ℕ :=
  if b ≤ a then .ok (a - b) else crash "attempt to subtract with overflow"

/-- `a + b` on `u64`, where a sum that does not fit panics. -/
def addU64 (a b : ℕ) : Res ℕ :=
  if a + b < 2 ^ 64 then .ok (a + b) else crash "attempt to add with overflow"

/-- `a * b` on `u64`, where a product that does not fit panics. -/
def mulU64 (a b : ℕ) : Res ℕ :=
  if a * b < 2 ^ 64 then .ok (a * b) else crash "attempt to multiply with overflow"

/-- `Slot::is_justifiable_after` with its operations on `u64`. -/
def isJustifiableAfterU64 (slot finalized : ℕ) : Res Bool :=
  if finalized ≤ slot then do
    let delta ← subU64 slot finalized
    if delta ≤ 5 then pure true
    else
      let sqrt := sqrtAsU64 delta
      let square ← mulU64 sqrt sqrt
      if square = delta then pure true
      else
        let quadruple ← mulU64 4 delta
        let test ← addU64 quadruple 1
        let testSqrt := sqrtAsU64 test
        let testSquare ← mulU64 testSqrt testSqrt
        pure (decide (testSquare = test ∧ testSqrt % 2 = 1))
  else crash "Candidate slot must not be before finalized slot"

/-- A slot whose distance is below the precision of a double is justifiable exactly if the distance
    is at most five, a square or a pronic number, and no operation on `u64` overflows. -/
theorem isJustifiableAfter_iff {slot finalized : ℕ} (hle : finalized ≤ slot)
    (hd : 4 * (slot - finalized) + 1 < 2 ^ 53) :
    isJustifiableAfterU64 slot finalized = isJustifiableAfter slot finalized ∧
      ∃ justifiable, isJustifiableAfter slot finalized = .ok justifiable ∧
        (justifiable = true ↔ slot - finalized ≤ 5 ∨ (∃ k, slot - finalized = k * k) ∨
          ∃ k, slot - finalized = k * (k + 1)) := by
  refine ⟨?_, _, isJustifiableAfter_of_le hle, justifiableDistance_iff hd⟩
  rw [isJustifiableAfter_of_le hle]
  unfold isJustifiableAfterU64 justifiableDistance
  have hsquare := sqrtAsU64_mul_self_lt (x := slot - finalized) (by omega)
  have htest := sqrtAsU64_mul_self_lt hd
  have hfour : 4 * (slot - finalized) < 2 ^ 64 := by omega
  have hone : 4 * (slot - finalized) + 1 < 2 ^ 64 := by omega
  simp only [subU64, mulU64, addU64, hle, hsquare, htest, hfour, hone, if_true, ok_bind]
  split_ifs <;> rfl

/-- Twelve slots after the finalized one, `12 = 3 * 4` decides. -/
theorem isJustifiableAfter_twelve_slots :
    100 ≤ 112 ∧ 4 * (112 - 100) + 1 < 2 ^ 53 ∧
      isJustifiableAfterU64 112 100 = isJustifiableAfter 112 100 ∧
      isJustifiableAfter 112 100 = .ok true := by
  have hle : 100 ≤ 112 := by norm_num
  have hd : 4 * (112 - 100) + 1 < 2 ^ 53 := by norm_num
  obtain ⟨hsame, justifiable, hrun, hiff⟩ := isJustifiableAfter_iff hle hd
  have htrue : justifiable = true := hiff.mpr (.inr (.inr ⟨3, by norm_num⟩))
  exact ⟨hle, hd, hsame, by rw [hrun, htrue]⟩

end ConsensusClient
