import Mathlib.Logic.Encodable.Basic
import Mathlib.Data.List.Nodup

/-!
# Tabulated Injections

An injective map into the positive numbers that gives small values on a chosen table: the
elements of the table are numbered by their position, everything else by its code, shifted past
the table. It makes concrete instances of an idealised hash function that can be evaluated.
-/

variable {α : Type} [DecidableEq α] [Encodable α]

/-- Position in the table, from one on; elements outside the table follow by their code. -/
def tabulate (table : List α) (x : α) : ℕ :=
  if x ∈ table then table.idxOf x + 1 else table.length + 1 + Encodable.encode x

theorem tabulate_ne_zero (table : List α) (x : α) : tabulate table x ≠ 0 := by
  unfold tabulate
  split_ifs <;> omega

theorem tabulate_injective (table : List α) : Function.Injective (tabulate table) := by
  intro x y h
  unfold tabulate at h
  split_ifs at h with hx hy hy
  · exact (List.idxOf_inj hx).mp (Nat.succ.inj h)
  · have := List.idxOf_lt_length_of_mem hx
    omega
  · have := List.idxOf_lt_length_of_mem hy
    omega
  · exact Encodable.encode_injective (Nat.add_left_cancel h)
