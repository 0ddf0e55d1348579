import Mathlib

/-!
# Pieces of a stream

A stream gives an element for every position. `slice S k n` are the `n` elements from
position `k` on.
-/

namespace NopeekOS.Lib

variable {α : Type*}

/-- The `n` elements from `k` on. -/
def slice (S : Nat → α) (k n : Nat) : List α := (List.range' k n).map S

variable (S : Nat → α) (k m n : Nat)

@[simp] theorem length_slice : (slice S k n).length = n := by simp [slice]

theorem slice_append : slice S k m ++ slice S (k + m) n = slice S k (m + n) := by
  unfold slice
  rw [← List.map_append, List.range'_append_1]

theorem drop_slice : (slice S k n).drop m = slice S (k + m) (n - m) := by
  unfold slice
  rw [← List.map_drop, List.drop_range', Nat.mul_one]

theorem take_slice (h : m ≤ n) : (slice S k n).take m = slice S k m := by
  rw [← Nat.add_sub_of_le h, ← slice_append, List.take_left' (length_slice ..)]

end NopeekOS.Lib
