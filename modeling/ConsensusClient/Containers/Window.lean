import ConsensusClient.Containers.State

/-!
# The Window of Justified Slots

`justified_slots` stores the justification bits of the slots right after the finalized one and
moves when the finalized slot moves. `JustifiedSlots.bitAt` reads the window by absolute slot;
each operation of the window is described by what it does to `bitAt`.

## Main results

* `JustifiedSlots.isSlotJustified_eq_ok`: what a query returns
* `JustifiedSlots.withJustified_eq_ok`, `shiftWindow_eq_ok`, `extendToSlot_bitAt`: what the
  operations change
-/

namespace ConsensusClient

namespace JustifiedSlots

/-- The bit of slot `t`, in a window that starts right after `f`: every slot up to `f` counts
    as justified, and slots past the window have no bit. -/
def bitAt (js : JustifiedSlots) (f t : ℕ) : Option Bool :=
  if t ≤ f then some true else js[t - (f + 1)]?

theorem bitAt_of_le {js : JustifiedSlots} {f t : ℕ} (h : t ≤ f) : js.bitAt f t = some true := by
  simp [bitAt, h]

theorem bitAt_of_lt {js : JustifiedSlots} {f t : ℕ} (h : f < t) :
    js.bitAt f t = js[t - (f + 1)]? := by
  simp [bitAt, Nat.not_le.mpr h]

/-- A slot after `f` has a bit exactly when it lies in the window. -/
theorem bitAt_eq_none {js : JustifiedSlots} {f t : ℕ} :
    js.bitAt f t = none ↔ f + 1 + js.length ≤ t := by
  unfold bitAt
  split_ifs with h
  · simp; omega
  · rw [List.getElem?_eq_none_iff]; omega

theorem exists_bitAt {js : JustifiedSlots} {f t : ℕ} (h : t < f + 1 + js.length) :
    ∃ b, js.bitAt f t = some b := by
  rw [← Option.isSome_iff_exists, Option.isSome_iff_ne_none, Ne, bitAt_eq_none]
  omega

/-- `is_slot_justified` reads the window by absolute slot. -/
theorem isSlotJustified_eq_ok {js : JustifiedSlots} {f t : ℕ} {b : Bool} :
    js.isSlotJustified f t = .ok b ↔ js.bitAt f t = some b := by
  unfold isSlotJustified
  cases hi : justifiedIndexAfter t f with
  | none =>
    have ht := justifiedIndexAfter_eq_none.mp hi
    simp [bitAt_of_le ht]
  | some i =>
    have ht := justifiedIndexAfter_eq_some.mp hi
    have hsub : t - (f + 1) = i := by omega
    rw [bitAt_of_lt (by omega), hsub]
    exact okOr_eq_ok

/-- Reading the window never panics. -/
theorem returns_isSlotJustified (js : JustifiedSlots) (f t : ℕ) :
    (js.isSlotJustified f t).Returns := by
  unfold isSlotJustified
  cases justifiedIndexAfter t f with
  | none => exact returns_ok true
  | some i => exact returns_okOr _ _

/-- `with_justified` on a slot of the window sets its bit and keeps the others. -/
theorem withJustified_eq_ok {js js' : JustifiedSlots} {f t : ℕ} {b : Bool} (ht : f < t)
    (h : js.withJustified f t b = .ok js') :
    js'.length = js.length ∧ t < f + 1 + js.length ∧
      ∀ u, js'.bitAt f u = if u = t then some b else js.bitAt f u := by
  have hi : justifiedIndexAfter t f = some (t - (f + 1)) :=
    justifiedIndexAfter_eq_some.mpr (by omega)
  simp only [withJustified, hi] at h
  split_ifs at h with hlt
  · obtain rfl := Except.ok.inj h
    refine ⟨by simp, by omega, fun u => ?_⟩
    -- slots up to the finalized one are justified whatever the window says
    rcases Nat.lt_or_ge f u with hu | hu
    · rw [bitAt_of_lt hu, bitAt_of_lt hu, List.getElem?_set]
      split_ifs with h1 h2
      · rfl
      · omega
      · omega
      · rfl
    · rw [bitAt_of_le hu, bitAt_of_le hu, if_neg (by omega)]
  · simp at h

/-- `with_justified` succeeds on every slot of the window. -/
theorem exists_withJustified {js : JustifiedSlots} {f t : ℕ} {b : Bool}
    (h : t < f + 1 + js.length) : ∃ js', js.withJustified f t b = .ok js' := by
  unfold withJustified
  cases hi : justifiedIndexAfter t f with
  | none => exact ⟨js, rfl⟩
  | some i =>
    have ht := justifiedIndexAfter_eq_some.mp hi
    have hlt : i < js.length := by omega
    exact ⟨js.set i b, by simp [hlt]⟩

/-- `shift_window` renumbers the window without changing the bit of a slot it still covers. -/
theorem shiftWindow_eq_ok {js js' : JustifiedSlots} {f d : ℕ}
    (h : js.shiftWindow d = .ok js') :
    d + js'.length = js.length ∧ ∀ u, f + d < u → js'.bitAt (f + d) u = js.bitAt f u := by
  unfold shiftWindow at h
  split_ifs at h with h0 hle
  · obtain rfl := Except.ok.inj h
    subst h0
    exact ⟨by omega, fun u _ => rfl⟩
  · obtain rfl := Except.ok.inj h
    refine ⟨by simp; omega, fun u hu => ?_⟩
    rw [bitAt_of_lt hu, bitAt_of_lt (by omega), List.getElem?_drop]
    congr 1
    omega
  · simp at h

/-- `shift_window` succeeds on a distance inside the window. -/
theorem exists_shiftWindow {js : JustifiedSlots} {d : ℕ} (h : d ≤ js.length) :
    ∃ js', js.shiftWindow d = .ok js' := by
  unfold shiftWindow
  split_ifs
  · exact ⟨js, rfl⟩
  · exact ⟨_, rfl⟩

/-- `extend_to_slot` grows the window to the given slot with cleared bits. -/
theorem extendToSlot_bitAt (js : JustifiedSlots) {f t : ℕ} (u : ℕ) (ht : f + js.length ≤ t) :
    (js.extendToSlot f t).length = t - f ∧
      (js.extendToSlot f t).bitAt f u =
        if u < f + 1 + js.length then js.bitAt f u
        else if u ≤ t then some false else none := by
  unfold extendToSlot
  cases hi : justifiedIndexAfter t f with
  | none =>
    -- the slot is not after the finalized one, and the window is empty
    have hle := justifiedIndexAfter_eq_none.mp hi
    refine ⟨by simp only; omega, ?_⟩
    split_ifs with h1 h2
    · rfl
    · omega
    · exact bitAt_eq_none.mpr (by simp only; omega)
  | some i =>
    have hti := justifiedIndexAfter_eq_some.mp hi
    simp only
    rw [if_pos (by omega)]
    refine ⟨by simp; omega, ?_⟩
    -- the old bits, the new ones, and nothing after them
    split_ifs with h1 h2
    · rcases Nat.lt_or_ge f u with hu | hu
      · rw [bitAt_of_lt hu, bitAt_of_lt hu, List.getElem?_append_left (by omega)]
      · rw [bitAt_of_le hu, bitAt_of_le hu]
    · rw [bitAt_of_lt (by omega), List.getElem?_append_right (by omega),
        List.getElem?_replicate, if_pos (by omega)]
    · refine bitAt_eq_none.mpr ?_
      rw [List.length_append, List.length_replicate]
      omega

end JustifiedSlots

end ConsensusClient
