import NopeekOS.Lib.ByteBits

/-!
# The Internet checksum (csum.rs)

The sum of a header is taken in big-endian words, 32 bits at a time while eight bytes
are left and 16 bits at a time after, and folded to 16 bits by adding the carries back
in. Folding keeps the number modulo 0xFFFF and gives zero for zero only (`fold_spec`).
Hence a header whose checksum field was zero when the sum was taken and then got the
complement of the folded sum folds to 0xFFFF (`fold_add_complement`), which is what a
receiver checks.
-/

namespace NopeekOS.Net

open Lib

/-- `u16::from_be_bytes`. -/
def be16 (a b : Byte) : Nat := a.toNat * 256 + b.toNat

/-- `u32::from_be_bytes`. -/
def be32 (a b c d : Byte) : Nat := be16 a b * 65536 + be16 c d

/-- The remainder of `sum` (csum.rs:15): 16-bit words, an odd byte padded with zero. -/
def sumRest : List Byte → Nat
  | a :: b :: rest => be16 a b + sumRest rest
  | [a] => a.toNat * 256
  | [] => 0

/-- `sum` (csum.rs:7). -/
def sum : List Byte → Nat
  | a :: b :: c :: d :: e :: f :: g :: h :: rest => be32 a b c d + be32 e f g h + sum rest
  | rest => sumRest rest

/-- The rounds of `fold`: at most five for a 64-bit sum. -/
def foldFrom : Nat → Nat → Nat
  | 0, s => s % 65536
  | n + 1, s => if s / 65536 = 0 then s % 65536 else foldFrom n (s % 65536 + s / 65536)

/-- `fold` (csum.rs:33). -/
def fold (s : Nat) : Nat := foldFrom 5 s

/-- `!x` on `u16`. -/
def not16 (x : Nat) : Nat := 65535 - x

theorem not16_add {x : Nat} (h : x < 65536) : not16 x + x = 65535 :=
  Nat.sub_add_cancel (Nat.le_of_lt_succ h)

/-- `to_be_bytes` of a `u16`. -/
def beBytes (x : Nat) : Byte × Byte := (BitVec.ofNat 8 (x / 256), BitVec.ofNat 8 x)

theorem be16_beBytes {x : Nat} (h : x < 65536) : be16 (beBytes x).1 (beBytes x).2 = x := by
  unfold be16 beBytes
  simp only [BitVec.toNat_ofNat]
  omega

theorem be16_lt (a b : Byte) : be16 a b < 65536 := by
  have := a.isLt
  have := b.isLt
  unfold be16
  omega

/-! ## Folding -/

/-- A round keeps the number modulo 0xFFFF, and zero. -/
theorem round_spec (s : Nat) :
    (s % 65536 + s / 65536) % 65535 = s % 65535 ∧ (s % 65536 + s / 65536 = 0 ↔ s = 0) := by
  omega

/-- What is left to fold after the rounds that remain. -/
def foldBound : Nat → Nat
  | 0 => 65536
  | 1 => 65537
  | 2 => 131074
  | 3 => 2 ^ 32 + 131072
  | 4 => 2 ^ 48 + 131072
  | _ => 2 ^ 64

theorem round_lt {n s : Nat} (hn : n < 5) (hs : s < foldBound (n + 1)) :
    s % 65536 + s / 65536 < foldBound n := by
  match n, hn with
  | 0, _ | 1, _ | 2, _ | 3, _ | 4, _ =>
    simp only [foldBound] at hs ⊢
    omega

theorem foldFrom_spec {n s : Nat} (hn : n ≤ 5) (hs : s < foldBound n) :
    foldFrom n s < 65536 ∧ foldFrom n s % 65535 = s % 65535 ∧ (foldFrom n s = 0 ↔ s = 0) := by
  induction n generalizing s with
  | zero =>
    simp only [foldBound] at hs
    simp only [foldFrom]
    omega
  | succ n ih =>
    rw [foldFrom]
    split
    · omega
    · obtain ⟨hlt, hmod, hzero⟩ := ih (Nat.le_of_succ_le hn) (round_lt hn hs)
      obtain ⟨hmod', hzero'⟩ := round_spec s
      exact ⟨hlt, hmod.trans hmod', hzero.trans hzero'⟩

/-- **Folding** gives a 16-bit number that is the same modulo 0xFFFF, and zero for zero
only. -/
theorem fold_spec {s : Nat} (hs : s < 2 ^ 64) :
    fold s < 65536 ∧ fold s % 65535 = s % 65535 ∧ (fold s = 0 ↔ s = 0) :=
  foldFrom_spec (Nat.le_refl 5) hs

/-- With the complement of the folded sum added, the sum folds to 0xFFFF. -/
theorem fold_add_complement {s : Nat} (hs : s + 65535 < 2 ^ 64) :
    fold (s + not16 (fold s)) = 65535 := by
  obtain ⟨hlt, hmod, hzero⟩ := fold_spec (s := s) (by omega)
  have hc := not16_add hlt
  obtain ⟨hlt', hmod', hzero'⟩ := fold_spec (s := s + not16 (fold s)) (by omega)
  omega

/-! ## Sums of lists -/

theorem sumRest_lt : ∀ l : List Byte, sumRest l < 65536 * (l.length + 1)
  | a :: b :: rest => by
    have := be16_lt a b
    have := sumRest_lt rest
    simp only [sumRest, List.length_cons]
    omega
  | [a] => by
    have := a.isLt
    simp only [sumRest, List.length_cons, List.length_nil]
    omega
  | [] => by simp [sumRest]

theorem sum_lt (l : List Byte) : sum l < 2 ^ 32 * (l.length + 1) := by
  fun_induction sum l with
  | case1 a b c d e f g h rest ih =>
    have := be16_lt a b
    have := be16_lt c d
    have := be16_lt e f
    have := be16_lt g h
    simp only [be32, List.length_cons]
    omega
  | case2 rest h =>
    have := sumRest_lt rest
    omega

/-- The checksum field counts as it is: it is the low half of a 32-bit word. -/
theorem sum_set_check {l : List Byte} (hlen : 16 ≤ l.length) (a b : Byte) :
    sum ((l.set 10 a).set 11 b) = sum ((l.set 10 0).set 11 0) + be16 a b := by
  match l, hlen with
  | _ :: _ :: _ :: _ :: _ :: _ :: _ :: _ :: _ :: _ :: _ :: _ :: _ :: _ :: _ :: _ :: rest, _ =>
    have hzero : (0 : Byte).toNat = 0 := rfl
    simp only [List.set_cons_succ, List.set_cons_zero, sum, be32, be16, hzero]
    omega

end NopeekOS.Net
