import NopeekOS.Net.Csum

/-!
# The ones-complement sum and its update

A number that `fold` returns is known from its rest modulo 0xFFFF and from whether it is zero
(`fold_spec`), so sums need to be compared in these two ways only: the sum of 32-bit words with
that of the 16-bit words of the data (`sum_mod`), the addition that brings the carry around with
the plain one (`foldl_onesAdd`), and what `update` folds with the sums before and after
(`update_spec`).
-/

namespace NopeekOS.Net.Csum

open Lib

/-- `update` (csum.rs:42): the `u64` sum of what goes and what comes. -/
def update (check : Nat) (changes : List (Nat × Nat)) : Nat :=
  not16 (fold ((not16 check + (changes.map fun c => not16 c.1 + c.2).sum) % 2 ^ 64))

/-! ## The sum of the words -/

/-- The big-endian 16-bit words, an odd byte padded with zero. -/
def words : List Byte → List Nat
  | a :: b :: rest => be16 a b :: words rest
  | [a] => [be16 a 0]
  | [] => []

/-- Addition that brings the carry around. -/
def onesAdd (a b : Nat) : Nat := (a + b) % 65536 + (a + b) / 65536

variable (l : List Byte)

theorem sum_words : (words l).sum = sumRest l := by
  fun_induction words l with
  | case1 a b rest ih => rw [List.sum_cons, ih, sumRest]
  | case2 a => simp [be16, sumRest]
  | case3 => rfl

theorem lt_of_mem_words {l : List Byte} : ∀ w ∈ words l, w < 65536 := by
  fun_induction words l with
  | case1 a b rest ih => exact List.forall_mem_cons.mpr ⟨be16_lt a b, ih⟩
  | case2 a => exact List.forall_mem_singleton.mpr (be16_lt a 0)
  | case3 => exact nofun

theorem length_words : (words l).length = (l.length + 1) / 2 := by
  fun_induction words l with
  | case1 a b rest ih =>
    simp only [List.length_cons, ih]
    omega
  | case2 | case3 => simp

/-- The 32-bit words sum to the same modulo 0xFFFF, and to zero only with the others. -/
theorem sum_mod : sum l % 65535 = (words l).sum % 65535 ∧ (sum l = 0 ↔ (words l).sum = 0) := by
  rw [sum_words]
  fun_induction sum l with
  | case1 a b c d e f g h rest ih =>
    simp only [sumRest, be32]
    omega
  | case2 rest h => exact ⟨rfl, Iff.rfl⟩

theorem foldl_onesAdd {ws : List Nat} (hws : ∀ w ∈ ws, w < 65536) {s : Nat} (hs : s < 65536) :
    ws.foldl onesAdd s < 65536 ∧ ws.foldl onesAdd s % 65535 = (s + ws.sum) % 65535 ∧
      (ws.foldl onesAdd s = 0 ↔ s + ws.sum = 0) := by
  induction ws generalizing s with
  | nil => exact ⟨hs, rfl, Iff.rfl⟩
  | cons w ws ih =>
    obtain ⟨hw, hws⟩ := List.forall_mem_cons.mp hws
    have hadd : onesAdd s w = (s + w) % 65536 + (s + w) / 65536 := rfl
    obtain ⟨hlt, hmod, hzero⟩ := ih hws (s := onesAdd s w) (by omega)
    rw [List.foldl_cons, List.sum_cons]
    omega

variable {data data' : List Byte} {is : List Nat}

/-- The folded sum of data whose words the `u64` can hold. -/
theorem fold_sum (hlen : data.length < 2 ^ 32) : sum data < 2 ^ 64 ∧ fold (sum data) < 65536 ∧
      fold (sum data) % 65535 = (words data).sum % 65535 ∧
      (fold (sum data) = 0 ↔ (words data).sum = 0) := by
  have hlt : sum data < 2 ^ 64 := by
    have := sum_lt data
    omega
  obtain ⟨hfold, hmod, hzero⟩ := fold_spec hlt
  obtain ⟨hmod', hzero'⟩ := sum_mod data
  exact ⟨hlt, hfold, hmod.trans hmod', hzero.trans hzero'⟩

/-! ## Changes -/

/-- The word at index `i`. -/
def word (data : List Byte) (i : Nat) : Nat := (words data).getD i 0

/-- `data'` is `data` but for the words at `is`. -/
structure Changed (data data' : List Byte) (is : List Nat) : Prop where
  length : data'.length = data.length
  nodup : is.Nodup
  inside : ∀ i ∈ is, i < (words data).length
  same : ∀ i, i ∉ is → word data' i = word data i

/-- The changes as `update` takes them. -/
def changes (data data' : List Byte) (is : List Nat) : List (Nat × Nat) :=
  is.map fun i => (word data i, word data' i)

theorem word_lt (data : List Byte) (i : Nat) : word data i < 65536 := by
  unfold word
  rw [List.getD_eq_getElem?_getD]
  cases h : (words data)[i]? with
  | none => exact Nat.zero_lt_succ _
  | some w => exact lt_of_mem_words w (List.mem_of_getElem? h)

theorem sum_word (data : List Byte) :
    ∑ i ∈ Finset.range (words data).length, word data i = (words data).sum := by
  rw [Finset.sum_range, ← Fin.sum_univ_getElem]
  exact Finset.sum_congr rfl fun i _ => List.getD_eq_getElem _ _ i.isLt

/-- What does not change is in both sums. -/
theorem Changed.sums (h : Changed data data' is) :
    ∃ rest, (words data).sum = rest + (is.map (word data)).sum ∧
      (words data').sum = rest + (is.map (word data')).sum := by
  have hsub : is.toFinset ⊆ Finset.range (words data).length := fun i hi =>
    Finset.mem_range.mpr (h.inside i (List.mem_toFinset.mp hi))
  refine ⟨∑ i ∈ Finset.range (words data).length \ is.toFinset, word data i, ?_, ?_⟩
  · rw [← sum_word, ← Finset.sum_sdiff hsub, List.sum_toFinset _ h.nodup]
  · rw [← sum_word, length_words, h.length, ← length_words, ← Finset.sum_sdiff hsub,
      List.sum_toFinset _ h.nodup]
    refine congrArg (· + _) (Finset.sum_congr rfl fun i hi => h.same i fun hmem => ?_)
    exact (Finset.mem_sdiff.mp hi).2 (List.mem_toFinset.mpr hmem)

theorem Changed.length_le (h : Changed data data' is) : is.length ≤ (data.length + 1) / 2 := by
  have hsub := List.subperm_of_subset h.nodup fun i hi => List.mem_range.mpr (h.inside i hi)
  rw [← length_words]
  simpa using hsub.length_le

variable (data data' : List Byte)

/-- What `update` adds up. -/
theorem sum_changes (is : List Nat) :
    ((changes data data' is).map fun c => not16 c.1 + c.2).sum + (is.map (word data)).sum =
      65535 * is.length + (is.map (word data')).sum ∧
    (is.map (word data')).sum ≤ 65535 * is.length := by
  induction is with
  | nil => exact ⟨rfl, Nat.le_refl _⟩
  | cons i is ih =>
    have hnot := not16_add (word_lt data i)
    have hnew := word_lt data' i
    simp only [changes, List.map_cons, List.sum_cons, List.length_cons] at ih ⊢
    omega

/-- **The update** in terms of the sums of the words before and after. -/
theorem update_spec (hlen : is.length < 2 ^ 32) (check : Nat) (hcheck : check < 65536) :
    ∃ s, 65535 ≤ s + check ∧ s + check + (is.map (word data)).sum =
        65535 * (is.length + 1) + (is.map (word data')).sum ∧
      update check (changes data data' is) ≤ 65535 ∧
      (update check (changes data data' is) + s) % 65535 = 0 ∧
      (update check (changes data data' is) = 65535 ↔ s = 0) := by
  obtain ⟨hsum, hle⟩ := sum_changes data data' is
  unfold update
  generalize ((changes data data' is).map fun c => not16 c.1 + c.2).sum = t at hsum
  have hnot := not16_add hcheck
  have hlt : not16 check + t < 2 ^ 64 := by omega
  rw [Nat.mod_eq_of_lt hlt]
  obtain ⟨hfold, hmod, hzero⟩ := fold_spec hlt
  have hres := not16_add hfold
  exact ⟨not16 check + t, by omega, by omega, by omega, by omega, by omega⟩

/-- **The checksum is exact, and updates keep it.** No carry is lost, and the folded sum is the
ones-complement sum of the words. The update of a correct checksum is the checksum of the changed
data, but for a zero in place of 0xFFFF. A packet that is verified, with its checksum at word `k`,
is verified after the update exactly if it is not all zero. -/
theorem csum_exact (data data' : List Byte) (is : List Nat) (hlen : data.length < 2 ^ 32) :
    (sum data < 2 ^ 64 ∧ fold (sum data) = (words data).foldl onesAdd 0) ∧
    (Changed data data' is →
      update (not16 (fold (sum data))) (changes data data' is) = not16 (fold (sum data')) ∨
      update (not16 (fold (sum data))) (changes data data' is) = 0 ∧
        not16 (fold (sum data')) = 65535) ∧
    ∀ k, Changed data data' (k :: is) →
      word data' k = update (word data k) (changes data data' is) → fold (sum data) = 65535 →
      (fold (sum data') = 65535 ↔ ∃ w ∈ words data', w ≠ 0) := by
  obtain ⟨hlt, hfold, hmod, hzero⟩ := fold_sum hlen
  refine ⟨⟨hlt, ?_⟩, fun h => ?_, fun k h hk hver => ?_⟩
  · obtain ⟨hone, hmod₁, hzero₁⟩ := foldl_onesAdd (lt_of_mem_words (l := data)) (s := 0) (by omega)
    omega
  · obtain ⟨-, hfold', hmod', hzero'⟩ := fold_sum (h.length ▸ hlen)
    obtain ⟨rest, hold, hnew⟩ := h.sums
    have hcount := h.length_le
    have hnot := not16_add hfold
    have hnot' := not16_add hfold'
    obtain ⟨s, hcheck, hs, hle, hsmod, hszero⟩ := update_spec data data'
      (by omega : is.length < 2 ^ 32) (not16 (fold (sum data))) (by omega)
    omega
  · obtain ⟨-, hfold', hmod', hzero'⟩ := fold_sum (h.length ▸ hlen)
    obtain ⟨rest, hold, hnew⟩ := h.sums
    have hcount := h.length_le
    simp only [List.map_cons, List.sum_cons, List.length_cons] at hold hnew hcount
    obtain ⟨s, hcheck, hs, hle, hsmod, hszero⟩ := update_spec data data'
      (by omega : is.length < 2 ^ 32) (word data k) (word_lt data k)
    rw [← hk] at hle hsmod hszero
    have hsome : (∃ w ∈ words data', w ≠ 0) ↔ (words data').sum ≠ 0 := by
      simp [List.sum_eq_zero_iff_forall_eq_nat]
    rw [hsome]
    omega

/-- An echo reply gets another id. -/
theorem csum_exact_reply : fold (sum [0, 0, 0xFF, 0xFD, 0, 2, 0, 0]) = 65535 := by
  have h := csum_exact [0, 0, 0xFF, 0xFE, 0, 1, 0, 0] [0, 0, 0xFF, 0xFD, 0, 2, 0, 0] [2] (by decide)
  refine (h.2.2 1 ⟨rfl, by decide, by decide, fun i hi => ?_⟩ (by decide) (by decide)).mpr
    (by decide)
  match i with
  | 0 | 3 | _ + 4 => rfl
  | 1 | 2 => exact absurd hi (by decide)

/-- It gets the id 0: all else is zero, and so is the updated checksum. -/
theorem reply_not_verified :
    Changed [0, 0, 0xFF, 0xFE, 0, 1, 0, 0] [0, 0, 0, 0, 0, 0, 0, 0] [1, 2] ∧
    update 0xFFFE [(1, 0)] = 0 ∧ fold (sum [0, 0, 0xFF, 0xFE, 0, 1, 0, 0]) = 65535 ∧
      fold (sum [0, 0, 0, 0, 0, 0, 0, 0]) ≠ 65535 := by
  refine ⟨⟨rfl, by decide, by decide, fun i hi => ?_⟩, by decide, by decide, by decide⟩
  match i with
  | 0 | 3 | _ + 4 => rfl
  | 1 | 2 => exact absurd hi (by decide)

end NopeekOS.Net.Csum
