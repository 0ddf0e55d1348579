import Mathlib

/-!
# 32-bit sequence numbers

The positions of a stream are numbered from some start, modulo 2^32. Two numbers are
compared by the sign of their difference as a 32-bit integer, which is the order of the
positions as long as these are within 2^31 of each other (`Near`).
-/

namespace NopeekOS.Lib

/-- `a.wrapping_add(b)` on `u32`. -/
def add32 (a b : Nat) : Nat := (a + b) % 2 ^ 32

/-- `a.wrapping_sub(b)` on `u32`. -/
def sub32 (a b : Nat) : Nat := (a + (2 ^ 32 - b % 2 ^ 32)) % 2 ^ 32

/-- `(a.wrapping_sub(b) as i32) < 0`. -/
def seqBefore (a b : Nat) : Bool := decide (2 ^ 31 ≤ sub32 a b)

/-- `(a.wrapping_sub(b) as i32) > 0`. -/
def seqAfter (a b : Nat) : Bool := decide (0 < sub32 a b ∧ sub32 a b < 2 ^ 31)

/-- The number of the position `x` of a stream that starts at `base`. -/
def seqAt (base x : Nat) : Nat := (base + x) % 2 ^ 32

/-- The positions whose numbers can be compared with that of `y`. -/
def Near (x y : Nat) : Prop := x < y + 2 ^ 31 ∧ y ≤ x + 2 ^ 31

variable {base x y n : Nat}

theorem add32_seqAt (base x n : Nat) : add32 (seqAt base x) n = seqAt base (x + n) := by
  unfold add32 seqAt
  omega

theorem sub32_seqAt (hle : y ≤ x) (hlt : x < y + 2 ^ 32) :
    sub32 (seqAt base x) (seqAt base y) = x - y := by
  unfold sub32 seqAt
  omega

theorem seqBefore_seqAt (h : Near x y) :
    seqBefore (seqAt base x) (seqAt base y) = true ↔ x < y := by
  obtain ⟨hlt, hle⟩ := h
  unfold seqBefore sub32 seqAt
  rw [decide_eq_true_eq]
  omega

theorem seqAfter_seqAt (h : Near x y) : seqAfter (seqAt base x) (seqAt base y) = true ↔ y < x := by
  obtain ⟨hlt, hle⟩ := h
  unfold seqAfter sub32 seqAt
  rw [decide_eq_true_eq]
  omega

theorem seqAt_eq_iff (h : Near x y) : seqAt base x = seqAt base y ↔ x = y := by
  obtain ⟨hlt, hle⟩ := h
  unfold seqAt
  omega

end NopeekOS.Lib
