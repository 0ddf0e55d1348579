import NopeekOS.Net.TcpCubic

/-!
# The cube root of CUBIC

One step of Newton's method from `t` gives `2t + a / (t(t - 1))`, three times the root. However
far off `t` is, that is hardly less than three times the root (`le_newton`, from the inequality
of the means); it is hardly more if `t` is within a sixth of the root (`newton_le`), which the
table grants from 4096 on (`table_close`). Below, all roots are computed.
-/

namespace NopeekOS.Net.Tcp.Cubic

/-- A `u32`, if it is one. -/
def u32 (x : Nat) : Option Nat := if x < 2 ^ 32 then some x else none

/-- `cubic_root` (cubic.rs:88), or `none` where an index is out of range, a divisor is zero or
a number leaves its type. -/
def rootChecked (a : Nat) : Option Nat := do
  let b := if a = 0 then 0 else Nat.log2 a + 1
  if b < 7 then
    let v ← rootTable[a]?
    return (v + 35) / 64
  else
    let b := b * 84 / 256 - 1
    let v ← rootTable[a / 2 ^ (b * 3)]?
    let x := (← u32 ((v + 10) * 2 ^ b)) / 64
    if x * (x - 1) = 0 then none
    let x ← u32 (2 * x + (← u32 (a / (x * (x - 1)))))
    return (← u32 (x * 341)) / 1024

theorem u32_of_lt {x : Nat} (h : x < 2 ^ 32) : u32 x = some x := if_pos h

/-! ## Newton's step -/

/-- Three times the root, from `t`. -/
def newton (a t : Nat) : Nat := 2 * t + a / (t * (t - 1))

/-- `t` is within a sixth of the root. -/
structure Near (a t : Nat) : Prop where
  start : 16 ≤ t
  low : 3 * t ^ 3 ≤ 5 * a
  high : 5 * a ≤ 8 * t ^ 3

section

variable {a t : Nat}

/-- The means of `u`, `t` and `t`. -/
theorem mul_sq_le_cube (u t : Nat) : 27 * (u * t ^ 2) ≤ (u + 2 * t) ^ 3 := by
  have h : (0 : ℤ) ≤ (u - t) ^ 2 * (u + 8 * t) := mul_nonneg (sq_nonneg _) (by positivity)
  have hcast : ((27 * (u * t ^ 2) : ℕ) : ℤ) ≤ ((u + 2 * t) ^ 3 : ℕ) := by
    push_cast
    nlinarith
  exact_mod_cast hcast

/-- **The step is not low**, wherever it starts. -/
theorem le_newton (ht : 16 ≤ t) : 31 ^ 3 * a ≤ (32 * (newton a t * 341 / 1024 + 1)) ^ 3 := by
  have hpos : 0 < t * (t - 1) := Nat.mul_pos (by omega) (by omega)
  have hdiv := Nat.lt_mul_div_succ a hpos
  unfold newton
  generalize a / (t * (t - 1)) = q at hdiv ⊢
  have hcube : 27 * a ≤ (2 * t + q + 1) ^ 3 := by
    have hsq : t * (t - 1) * (q + 1) ≤ (q + 1) * t ^ 2 := by
      rw [Nat.mul_comm, pow_two]
      exact Nat.mul_le_mul_left _ (Nat.mul_le_mul_left t (Nat.sub_le t 1))
    have hmeans := mul_sq_le_cube (q + 1) t
    rw [show 2 * t + q + 1 = q + 1 + 2 * t by omega]
    omega
  generalize hr : (2 * t + q) * 341 / 1024 + 1 = r
  have hlin : 992 * (2 * t + q + 1) ≤ 3 * (1024 * r) := by omega
  have hpow := Nat.pow_le_pow_left hlin 3
  rw [Nat.mul_pow, Nat.mul_pow, Nat.mul_pow] at hpow
  rw [Nat.mul_pow]
  omega

/-- **The step is not high** from a start near the root. -/
theorem newton_le (h : Near a t) : (32 * (newton a t * 341 / 1024 - 1)) ^ 3 ≤ 33 ^ 3 * a := by
  obtain ⟨ht, hlow, hhigh⟩ := h
  have hdiv := Nat.div_mul_le_self a (t * (t - 1))
  unfold newton
  generalize a / (t * (t - 1)) = q at hdiv ⊢
  generalize hy : (2 * t + q) * 341 / 1024 - 1 = y
  by_contra hlt
  obtain ⟨t, rfl⟩ : ∃ d, t = d + 1 := ⟨t - 1, by omega⟩
  rw [Nat.add_sub_cancel] at hdiv
  have hq : 3 * y + 4 ≤ 2 * (t + 1) + q := by
    have : y ≠ 0 := by
      rintro rfl
      simp at hlt
    omega
  have hstep := Nat.mul_le_mul_right ((t + 1) * t) hq
  zify at *
  rcases le_or_gt (5 * (y : ℤ)) (6 * (t + 1)) with hy' | hy'
  · -- `y` is not far below `t`, or `a` would be too small
    have hbelow : 173 * ((t : ℤ) + 1) ≤ 200 * y := by
      by_contra h
      have := pow_lt_pow_left₀ (not_le.mp h) (by positivity) (by decide : 3 ≠ 0)
      nlinarith [pow_pos (show (0 : ℤ) < t + 1 by omega) 3]
    have hroots := mul_nonneg (mul_nonneg (sub_nonneg.mpr hbelow) (sub_nonneg.mpr hy'))
      (show (0 : ℤ) ≤ 200 * y + 413 * (t + 1) by positivity)
    nlinarith [mul_nonneg (sq_nonneg ((t : ℤ) + 1)) (sub_nonneg.mpr hbelow),
      mul_nonneg (show (0 : ℤ) ≤ t + 1 by omega) (show 0 ≤ 6 * ((t : ℤ) + 1) - 3 * y - 4 by omega)]
  · nlinarith [mul_nonneg (sub_nonneg.mpr hy'.le) (show (0 : ℤ) ≤ (t + 1) * t by positivity)]

/-- What the step computes fits its types. -/
theorem newton_lt (h : Near a t) (ha : a ≤ 2 ^ 63) : newton a t * 341 < 2 ^ 32 := by
  have hle := newton_le h
  generalize newton a t = x at hle ⊢
  by_contra hx
  have hroot : 33 * 2 ^ 21 < 32 * (x * 341 / 1024 - 1) := by omega
  have hcube := Nat.pow_lt_pow_left hroot (by decide : 3 ≠ 0)
  omega

end

/-! ## The start -/

/-- The entries from 8 on, each for the roots of `i` to `i + 1`. -/
theorem rootTable_spec : ∀ i < 64, 8 ≤ i → 133 ≤ rootTable.getD i 0 + 10 ∧
    rootTable.getD i 0 + 10 ≤ 264 ∧ 3 * (rootTable.getD i 0 + 10) ^ 3 ≤ 5 * 64 ^ 3 * i ∧
    5 * (i + 1) * 2 ^ 24 ≤ (8 * (rootTable.getD i 0 + 10) - 63) ^ 3 := by
  decide

/-- The start from an entry `v` for `i`, scaled by `c`. -/
theorem table_close {a c i v : Nat} (hc : 8 ≤ c) (hlo : i * c ^ 3 ≤ a) (hhi : a < (i + 1) * c ^ 3)
    (hmin : 133 ≤ v) (hlow : 3 * v ^ 3 ≤ 5 * 64 ^ 3 * i)
    (hhigh : 5 * (i + 1) * 2 ^ 24 ≤ (8 * v - 63) ^ 3) :
    Near a (v * c / 64) := by
  have hvc : 133 * c ≤ v * c := Nat.mul_le_mul_right c hmin
  have hle : 64 * (v * c / 64) ≤ v * c := Nat.mul_div_le _ _
  have hge : (8 * v - 63) * c ≤ 512 * (v * c / 64) := by
    rw [Nat.sub_mul, Nat.mul_assoc]
    omega
  have hmin' : 16 ≤ v * c / 64 := by omega
  generalize v * c / 64 = t at hle hge hmin'
  have hle₃ := Nat.pow_le_pow_left hle 3
  have hge₃ := Nat.pow_le_pow_left hge 3
  have hlow' := Nat.mul_le_mul_right (c ^ 3) hlow
  have hhigh' := Nat.mul_le_mul_right (c ^ 3) hhigh
  rw [Nat.mul_pow, Nat.mul_pow] at hle₃ hge₃
  exact ⟨hmin', by nlinarith, by nlinarith⟩

/-- The scale that the number of bits gives, and the index of the table. -/
theorem root_scale {a : Nat} (hlo : 4096 ≤ a) (hhi : a ≤ 2 ^ 63) :
    let b := (Nat.log2 a + 1) * 84 / 256 - 1
    (7 ≤ Nat.log2 a + 1 ∧ 3 ≤ b ∧ b ≤ 20) ∧ 8 ≤ a / 2 ^ (b * 3) ∧ a / 2 ^ (b * 3) < 64 := by
  intro b
  have hne : a ≠ 0 := by omega
  have hmin : 12 ≤ Nat.log2 a := (Nat.le_log2 hne).mpr hlo
  have hmax : Nat.log2 a < 64 := (Nat.log2_lt hne).mpr (by omega)
  have hb : b = (Nat.log2 a + 1) * 84 / 256 - 1 := rfl
  have hpos := Nat.two_pow_pos (b * 3)
  refine ⟨by omega, (Nat.le_div_iff_mul_le hpos).mpr ?_, (Nat.div_lt_iff_lt_mul hpos).mpr ?_⟩
  · rw [show 8 = 2 ^ 3 from rfl, ← Nat.pow_add]
    exact (Nat.pow_le_pow_right (by decide) (by omega)).trans (Nat.log2_self_le hne)
  · rw [show 64 = 2 ^ 6 from rfl, ← Nat.pow_add]
    exact Nat.lt_log2_self.trans_le (Nat.pow_le_pow_right (by decide) (by omega))

/-- From 4096 on: the step is taken from near the root, and no number leaves its type. -/
theorem root_spec {a : Nat} (hlo : 4096 ≤ a) (hhi : a ≤ 2 ^ 63) :
    ∃ t, Near a t ∧ rootChecked a = some (root a) ∧ root a = newton a t * 341 / 1024 := by
  obtain ⟨⟨hseven, hb, hb'⟩, hi, hi'⟩ := root_scale hlo hhi
  unfold root rootChecked
  rw [if_neg (show a ≠ 0 by omega)]
  dsimp only
  rw [if_neg (Nat.not_lt.mpr hseven), if_neg (Nat.not_lt.mpr hseven)]
  generalize (Nat.log2 a + 1) * 84 / 256 - 1 = b at *
  obtain ⟨hmin, hmax, hlow, hhigh⟩ := rootTable_spec _ hi' hi
  have hget : rootTable[a / 2 ^ (b * 3)]? = some (rootTable.getD (a / 2 ^ (b * 3)) 0) := by
    rw [List.getD_eq_getElem?_getD, List.getElem?_eq_getElem hi']
    rfl
  have hnear := table_close (a := a) (c := 2 ^ b)
    (Nat.pow_le_pow_right (n := 2) (by decide) hb)
    (by rw [← Nat.pow_mul]; exact Nat.div_mul_le_self ..)
    (by rw [← Nat.pow_mul, Nat.mul_comm]; exact Nat.lt_mul_div_succ a (Nat.two_pow_pos _))
    hmin hlow hhigh
  have hshift : (rootTable.getD (a / 2 ^ (b * 3)) 0 + 10) * 2 ^ b < 2 ^ 32 :=
    (Nat.mul_le_mul hmax (Nat.pow_le_pow_right (n := 2) (by decide) hb')).trans_lt (by decide)
  generalize rootTable.getD (a / 2 ^ (b * 3)) 0 = v at *
  generalize ht : (v + 10) * 2 ^ b / 64 = t at *
  have hx' : (2 * t + a / (t * (t - 1))) * 341 < 2 ^ 32 := newton_lt hnear hhi
  have hx : 2 * t + a / (t * (t - 1)) < 2 ^ 32 := by omega
  have hstart := hnear.start
  have hpos : t * (t - 1) ≠ 0 := (Nat.mul_pos (by omega) (by omega)).ne'
  have hq : a / (t * (t - 1)) < 2 ^ 32 := by omega
  rw [Nat.mod_eq_of_lt hx, Nat.mod_eq_of_lt hx']
  refine ⟨t, hnear, ?_, rfl⟩
  simp only [hget, bind, Option.bind_some, u32_of_lt hshift, ht, if_neg hpos, u32_of_lt hq,
    u32_of_lt hx, u32_of_lt hx']
  rfl

/-- Below 4096. -/
theorem root_small : ∀ hi < 64, ∀ lo < 64,
    rootChecked (64 * hi + lo) = some (root (64 * hi + lo)) ∧
      (32 * (root (64 * hi + lo) - 1)) ^ 3 ≤ 33 ^ 3 * (64 * hi + lo) ∧
      31 ^ 3 * (64 * hi + lo) ≤ (32 * (root (64 * hi + lo) + 1)) ^ 3 := by
  decide +kernel

/-- **The bounds**: every step of `cubic_root` is defined, and the root it returns is off by at
most one part in 32 and one. -/
theorem cubic_root_bound (a : Nat) (h : a ≤ 2 ^ 63) :
    rootChecked a = some (root a) ∧ (32 * ((root a : ℤ) - 1)) ^ 3 ≤ 33 ^ 3 * a ∧
      31 ^ 3 * (a : ℤ) ≤ (32 * ((root a : ℤ) + 1)) ^ 3 := by
  have hroot : rootChecked a = some (root a) ∧ (32 * (root a - 1)) ^ 3 ≤ 33 ^ 3 * a ∧
      31 ^ 3 * a ≤ (32 * (root a + 1)) ^ 3 := by
    by_cases hlo : a < 4096
    · have hsmall := root_small (a / 64) (by omega) (a % 64) (Nat.mod_lt a (by decide))
      rwa [Nat.div_add_mod] at hsmall
    · obtain ⟨t, hnear, hsome, hroot⟩ := root_spec (Nat.not_lt.mp hlo) h
      rw [hroot] at hsome ⊢
      exact ⟨hsome, newton_le hnear, le_newton hnear.start⟩
  obtain ⟨hsome, hle, hge⟩ := hroot
  have hsub : (32 * ((root a : ℤ) - 1)) ^ 3 ≤ ((32 * (root a - 1)) ^ 3 : ℕ) := by
    push_cast
    exact (Odd.pow_le_pow (by decide)).mpr (by omega)
  exact ⟨hsome, hsub.trans (by exact_mod_cast hle), by exact_mod_cast hge⟩

/-- The largest argument. -/
theorem cubic_root_bound_max : rootChecked (2 ^ 63) = some 2098142 := by
  have hroot : root (2 ^ 63) = 2098142 := by decide +kernel
  rw [(cubic_root_bound (2 ^ 63) (Nat.le_refl _)).1, hroot]

end NopeekOS.Net.Tcp.Cubic
