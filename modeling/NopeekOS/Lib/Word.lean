import Mathlib

/-!
# 64-bit arithmetic of the two build modes

A build with overflow checks panics where an addition or subtraction leaves the
range of `u64` (`none`); a build without them wraps around. `checks` selects the
build.

`alignDown` is the usual mask with an alignment; on a power of two it gives the
greatest multiple that is not above the number.
-/

namespace NopeekOS.Lib

/-- `a + b` on `u64`. -/
def add64 (checks : Bool) (a b : Nat) : Option Nat :=
  if a + b < 2 ^ 64 then some (a + b)
  else if checks then none else some ((a + b) % 2 ^ 64)

/-- `a - b` on `u64`. -/
def sub64 (checks : Bool) (a b : Nat) : Option Nat :=
  if b ≤ a then some (a - b)
  else if checks then none else some (2 ^ 64 - (b - a))

theorem add64_of_lt {checks : Bool} {a b : Nat} (h : a + b < 2 ^ 64) :
    add64 checks a b = some (a + b) := if_pos h

theorem sub64_of_le {checks : Bool} {a b : Nat} (h : b ≤ a) :
    sub64 checks a b = some (a - b) := if_pos h

theorem sub64_checked_of_lt {a b : Nat} (h : a < b) : sub64 true a b = none := by
  unfold sub64
  rw [if_neg (Nat.not_le.mpr h), if_pos rfl]

/-- `x & !(align - 1)` on `u64`. -/
def alignDown (x align : Nat) : Nat :=
  (BitVec.ofNat 64 x &&& ~~~(BitVec.ofNat 64 (align - 1))).toNat

theorem alignDown_two_pow {x : Nat} (hx : x < 2 ^ 64) (k : Nat) :
    alignDown x (2 ^ k) = x / 2 ^ k * 2 ^ k := by
  unfold alignDown
  refine Nat.eq_of_testBit_eq fun i => ?_
  have hbit (w : BitVec 64) : w.toNat.testBit i = w.getLsbD i := rfl
  rw [hbit, BitVec.getLsbD_and, BitVec.getLsbD_not, BitVec.getLsbD_ofNat, BitVec.getLsbD_ofNat,
    Nat.testBit_two_pow_sub_one, Nat.mul_comm, Nat.testBit_two_pow_mul, Nat.testBit_div_two_pow]
  by_cases hi : i < 64
  · by_cases hk : k ≤ i
    · simp [hi, hk, Nat.not_lt.mpr hk]
    · simp [hi, hk, Nat.not_le.mp hk]
  · -- Above bit 63 neither side has a bit.
    have hhigh : x.testBit i = false :=
      Nat.testBit_lt_two_pow (Nat.lt_of_lt_of_le hx (Nat.pow_le_pow_right (by omega) (by omega)))
    by_cases hk : k ≤ i <;> simp [hi, hk, hhigh]

theorem alignDown_le {x : Nat} (hx : x < 2 ^ 64) (k : Nat) : alignDown x (2 ^ k) ≤ x := by
  rw [alignDown_two_pow hx]
  exact Nat.div_mul_le_self x _

/-- No multiple of the alignment lies between. -/
theorem le_alignDown {x y : Nat} (hx : x < 2 ^ 64) {k : Nat} (hy : 2 ^ k ∣ y) (hle : y ≤ x) :
    y ≤ alignDown x (2 ^ k) := by
  obtain ⟨c, rfl⟩ := hy
  rw [alignDown_two_pow hx, Nat.mul_comm]
  refine Nat.mul_le_mul_right _ ((Nat.le_div_iff_mul_le (Nat.two_pow_pos k)).mpr ?_)
  rwa [Nat.mul_comm]

/-- `(x + align - 1) & !(align - 1)` on `u64`. -/
def alignUp (x align : Nat) : Nat := alignDown (x + align - 1) align

theorem alignUp_two_pow {x k : Nat} (hx : x + 2 ^ k ≤ 2 ^ 64) :
    x ≤ alignUp x (2 ^ k) ∧ alignUp x (2 ^ k) < x + 2 ^ k ∧ 2 ^ k ∣ alignUp x (2 ^ k) := by
  have hpos := Nat.two_pow_pos k
  unfold alignUp
  rw [alignDown_two_pow (by omega)]
  have hmod := Nat.mod_lt (x + 2 ^ k - 1) hpos
  have hdiv := Nat.div_add_mod' (x + 2 ^ k - 1) (2 ^ k)
  exact ⟨by omega, by omega, Nat.dvd_mul_left _ _⟩

end NopeekOS.Lib
