import Mathlib

/-!
# Bits in a byte array

A set of numbers kept as one bit per number, eight to a byte, least significant
bit first. `bitClear` reads a bit the way such code does, by masking its byte;
`setBit` and `clearBit` write it. The lemmas say what each write does to every
bit (`bitClear_setBit`, `bitClear_clearBit`) and to the number of clear bits
below a bound (`countClear_setBit`, `countClear_clearBit`), so that users never
look at a byte again.
-/

namespace NopeekOS.Lib

abbrev Byte := BitVec 8

/-- Bit `n` is zero. -/
def bitClear (data : List Byte) (n : Nat) : Bool :=
  data.getD (n / 8) 0 &&& (1#8 <<< (n % 8)) == 0

def setBit (data : List Byte) (n : Nat) : List Byte :=
  data.modify (n / 8) fun byte => byte ||| 1#8 <<< (n % 8)

def clearBit (data : List Byte) (n : Nat) : List Byte :=
  data.modify (n / 8) fun byte => byte &&& ~~~(1#8 <<< (n % 8))

/-- The number of clear bits below `total`. -/
def countClear (data : List Byte) (total : Nat) : Nat :=
  (List.range total).countP (bitClear data)

variable (data : List Byte)

@[simp] theorem length_setBit (n : Nat) : (setBit data n).length = data.length := by
  simp [setBit]

@[simp] theorem length_clearBit (n : Nat) : (clearBit data n).length = data.length := by
  simp [clearBit]

variable {i : Nat}

/-- The mask of bit `i` selects bit `i`. -/
theorem getLsbD_mask {j : Nat} (hi : i < 8) : (1#8 <<< i).getLsbD j = decide (j = i) := by
  rw [← BitVec.twoPow_eq, BitVec.getLsbD_twoPow]
  simp [hi, eq_comm]

/-- Masking a byte tests its bit. -/
theorem bitClear_eq (n : Nat) : bitClear data n = !(data.getD (n / 8) 0).getLsbD (n % 8) := by
  have hmask : 1#8 <<< (n % 8) ≠ 0 := by
    intro hzero
    have := getLsbD_mask (j := n % 8) (Nat.mod_lt n (by omega))
    simp [hzero] at this
  rw [bitClear, ← BitVec.twoPow_eq, BitVec.and_twoPow]
  cases (data.getD (n / 8) 0).getLsbD (n % 8) with
  | false => rfl
  | true => simpa [BitVec.twoPow_eq] using hmask

theorem getD_modify (i j : Nat) (f : Byte → Byte) (hi : i < data.length) :
    (data.modify i f).getD j 0 = if j = i then f (data.getD j 0) else data.getD j 0 := by
  by_cases hj : j = i
  · subst hj
    simp [List.getElem?_eq_getElem hi]
  · simp [hj, Ne.symm hj]

variable {data : List Byte}

theorem getD_modify_of_ne {j : Nat} {f : Byte → Byte} (h : j ≠ i) :
    (data.modify i f).getD j 0 = data.getD j 0 := by
  simp [List.getD_eq_getElem?_getD, Ne.symm h]

variable {n : Nat}

theorem bitClear_setBit (hn : n / 8 < data.length) (m : Nat) :
    bitClear (setBit data n) m = (bitClear data m && decide (m ≠ n)) := by
  have hsame : m = n ↔ m / 8 = n / 8 ∧ m % 8 = n % 8 := by omega
  rw [bitClear_eq, bitClear_eq, setBit, getD_modify _ _ _ _ hn]
  by_cases hd : m / 8 = n / 8
  · rw [if_pos hd, BitVec.getLsbD_or, getLsbD_mask (Nat.mod_lt n (by omega))]
    simp [hsame, hd]
  · simp [hsame, hd]

theorem bitClear_clearBit (hn : n / 8 < data.length) (m : Nat) :
    bitClear (clearBit data n) m = (bitClear data m || decide (m = n)) := by
  have hsame : m = n ↔ m / 8 = n / 8 ∧ m % 8 = n % 8 := by omega
  rw [bitClear_eq, bitClear_eq, clearBit, getD_modify _ _ _ _ hn]
  by_cases hd : m / 8 = n / 8
  · rw [if_pos hd, BitVec.getLsbD_and, BitVec.getLsbD_not,
      getLsbD_mask (Nat.mod_lt n (by omega))]
    simp [hsame, hd, Nat.mod_lt]
  · simp [hsame, hd]

variable {total : Nat}

/-- Counting after one member of the range changed its answer to no. -/
theorem countP_range_drop {p q : Nat → Bool} (hn : n < total) (hp : p n = true)
    (hq : ∀ m, q m = (p m && decide (m ≠ n))) :
    (List.range total).countP q + 1 = (List.range total).countP p := by
  have herase : (List.range total).countP q = ((List.range total).erase n).countP p := by
    rw [List.nodup_range.erase_eq_filter, List.countP_filter]
    refine List.countP_congr fun m _ => ?_
    simp [hq m]
  rw [herase, (List.perm_cons_erase (List.mem_range.mpr hn)).countP_eq,
    List.countP_cons_of_pos hp]

theorem countClear_setBit (hn : n / 8 < data.length) (ht : n < total)
    (hfree : bitClear data n = true) :
    countClear (setBit data n) total + 1 = countClear data total :=
  countP_range_drop ht hfree (bitClear_setBit hn)

theorem countClear_clearBit (hn : n / 8 < data.length) (ht : n < total)
    (hused : bitClear data n = false) :
    countClear (clearBit data n) total = countClear data total + 1 := by
  symm
  refine countP_range_drop ht ?_ fun m => ?_
  · rw [bitClear_clearBit hn]
    simp
  · rw [bitClear_clearBit hn]
    by_cases hm : m = n
    · simp [hm, hused]
    · simp [hm]

/-- Some bit below the bound is clear as soon as the count is positive. -/
theorem exists_clear_of_countClear_pos (h : 0 < countClear data total) :
    ∃ n, n < total ∧ bitClear data n = true := by
  obtain ⟨n, hn, hc⟩ := List.countP_pos_iff.mp h
  exact ⟨n, List.mem_range.mp hn, hc⟩

end NopeekOS.Lib
