import NopeekOS.Lib.OrdMap

/-!
# The out-of-order run set (tcp.rs:357-382)

What the reassembly queue holds is kept a second time as a set of runs: intervals of
stream offsets, keyed by their start, of which no two touch. The set answers in one
lookup whether a segment is already held, and it is what SACK blocks are made of.

The runs stand for the set of offsets they cover (`Covers`). Adding an interval is union
(`RunsOk.add`), trimming is intersection with what lies at or above an offset
(`RunsOk.trim`), both keep the runs apart (`RunsOk`), and the lookup is inclusion
(`RunsOk.covered_iff`).
-/

namespace NopeekOS.Net

open Lib List

/-- Runs by start, with their end. -/
abbrev Runs := List (Nat × Nat)

/-- The ends that the absorbed runs reach (the loop at tcp.rs:367). -/
def absorbEnd (runs : Runs) (e : Nat) : Nat :=
  runs.foldl (fun e r => if e < r.2 then r.2 else e) e

/-- Where the merged run starts (tcp.rs:362): at the left neighbour if that reaches `s`. -/
def mergeStart (runs : Runs) (s : Nat) : Nat :=
  match lastWhere (· < s) runs with
  | some (ls, le) => if s ≤ le then ls else s
  | none => s

/-- `ooo_runs_add` (tcp.rs:358): merge `[s, e)` in. -/
def oooRunsAdd (runs : Runs) (s e : Nat) : Runs :=
  let s := mergeStart runs s
  -- Absorb every run that starts within `[s, e]`.
  let keys := runs.filter fun r => decide (s ≤ r.1) && decide (r.1 ≤ e)
  let rest := runs.filter fun r => !(decide (s ≤ r.1) && decide (r.1 ≤ e))
  insertKey s (absorbEnd keys e) rest

/-- `ooo_runs_trim` (tcp.rs:375): drop everything below `want`. -/
def oooRunsTrim (runs : Runs) (want : Nat) : Runs :=
  let runs := runs.filter fun r => !(decide (r.1 < want) && decide (r.2 ≤ want))
  match lastWhere (· < want) runs with
  | some (ks, ke) =>
    if want < ke then insertKey want ke (runs.filter fun r => decide (r.1 ≠ ks)) else runs
  | none => runs

/-- The lookup of the receive path (tcp.rs:2084): the run at or before `off` reaches `last`. -/
def oooCovered (runs : Runs) (off last : Nat) : Bool :=
  match lastWhere (· ≤ off) runs with
  | some (_, e) => decide (last ≤ e)
  | none => false

/-- An offset in some run. -/
def Covers (runs : Runs) (x : Nat) : Prop := ∃ r ∈ runs, r.1 ≤ x ∧ x < r.2

/-- Runs are not empty, and between two of them there is an offset that is in none. -/
structure RunsOk (runs : Runs) : Prop where
  lt : ∀ r ∈ runs, r.1 < r.2
  apart : runs.Pairwise fun a b => a.2 < b.1

namespace RunsOk

variable {runs : Runs} {s e off last want : Nat}

theorem nil : RunsOk [] := ⟨by simp, .nil⟩

section

variable (h : RunsOk runs)

include h

theorem ascending : Ascending runs := by
  refine (List.Pairwise.and_mem.mp h.apart).imp ?_
  rintro a b ⟨ha, -, hab⟩
  exact Nat.lt_trans (h.lt a ha) hab

/-- Of two runs the one that starts earlier ends before the other starts. -/
theorem lt_of_lt {a b : Nat × Nat} (ha : a ∈ runs) (hb : b ∈ runs) (hlt : a.1 < b.1) :
    a.2 < b.1 := by
  have hne : a ≠ b := fun heq => Nat.lt_irrefl _ (heq ▸ hlt)
  have : Std.Symm fun a b : Nat × Nat => a.2 < b.1 ∨ b.2 < a.1 := ⟨fun _ _ => Or.symm⟩
  have hapart : runs.Pairwise fun a b => a.2 < b.1 ∨ b.2 < a.1 := h.apart.imp Or.inl
  refine (hapart.forall ha hb hne).resolve_right fun hba => ?_
  have := h.lt b hb
  omega

theorem filter (p : Nat × Nat → Bool) : RunsOk (runs.filter p) :=
  ⟨fun r hr => h.lt r (mem_filter.mp hr).1, h.apart.filter _⟩

/-- A run that is apart from all the others can be put in. -/
theorem insert (hlt : s < e) (happart : ∀ r ∈ runs, r.2 < s ∨ e < r.1) :
    RunsOk (insertKey s e runs) ∧ ∀ x, Covers (insertKey s e runs) x ↔
      (s ≤ x ∧ x < e) ∨ Covers runs x := by
  have hside (r : Nat × Nat) (hr : r ∈ runs) : (r.1 < s ∧ r.2 < s) ∨ (s < r.1 ∧ e < r.1) := by
    have := h.lt r hr
    rcases happart r hr with hr | hr <;> omega
  have hperm : (insertKey s e runs).Perm ((s, e) :: runs) :=
    insertKey_perm h.ascending fun r hr => by rcases hside r hr with hr | hr <;> omega
  refine ⟨⟨fun r hr => ?_, pairwise_insertKey h.ascending h.apart fun r hr _ => hside r hr⟩,
    fun x => ?_⟩
  · rcases mem_cons.mp (hperm.mem_iff.mp hr) with rfl | hr
    · exact hlt
    · exact h.lt r hr
  · unfold Covers
    constructor
    · rintro ⟨r, hr, hx⟩
      rcases mem_cons.mp (hperm.mem_iff.mp hr) with rfl | hr
      · exact .inl hx
      · exact .inr ⟨r, hr, hx⟩
    · rintro (hx | ⟨r, hr, hx⟩)
      · exact ⟨(s, e), hperm.mem_iff.mpr mem_cons_self, hx⟩
      · exact ⟨r, hperm.mem_iff.mpr (mem_cons_of_mem _ hr), hx⟩

end

/-! ## Adding -/

/-- The end reached is that of the interval or of an absorbed run, whichever is last. -/
theorem absorbEnd_spec (runs : Runs) (e : Nat) :
    e ≤ absorbEnd runs e ∧ (∀ r ∈ runs, r.2 ≤ absorbEnd runs e) ∧
      (absorbEnd runs e = e ∨ ∃ r ∈ runs, absorbEnd runs e = r.2) := by
  induction runs generalizing e with
  | nil => exact ⟨Nat.le_refl e, by simp, .inl rfl⟩
  | cons a runs ih =>
    have hstep : absorbEnd (a :: runs) e = absorbEnd runs (if e < a.2 then a.2 else e) := rfl
    obtain ⟨hle, hall, hone⟩ := ih (if e < a.2 then a.2 else e)
    have hmax : e ≤ (if e < a.2 then a.2 else e) ∧ a.2 ≤ (if e < a.2 then a.2 else e) := by
      split <;> omega
    rw [hstep]
    refine ⟨Nat.le_trans hmax.1 hle, forall_mem_cons.mpr ⟨Nat.le_trans hmax.2 hle, hall⟩, ?_⟩
    · rcases hone with hone | ⟨r, hr, hone⟩
      · rw [hone]
        split
        · exact .inr ⟨a, mem_cons_self, rfl⟩
        · exact .inl rfl
      · exact .inr ⟨r, mem_cons_of_mem _ hr, hone⟩

variable (h : RunsOk runs)

include h

/-- Runs before the start end before it, and what the merged run has before `s` is
covered already. -/
theorem mergeStart_spec (s : Nat) :
    mergeStart runs s ≤ s ∧ (∀ r ∈ runs, r.1 < mergeStart runs s → r.2 < mergeStart runs s) ∧
      ∀ x, mergeStart runs s ≤ x → x < s → Covers runs x := by
  unfold mergeStart
  split
  next ls le hlast =>
    obtain ⟨hmem, hlt, hmax⟩ := lastWhere_eq_some h.ascending hlast
    have hls : ls < s := of_decide_eq_true hlt
    split
    next hreach =>
      refine ⟨Nat.le_of_lt hls, fun r hr hlt => h.lt_of_lt hr hmem hlt, fun x hlo hhi => ?_⟩
      exact ⟨(ls, le), hmem, hlo, Nat.lt_of_lt_of_le hhi hreach⟩
    next hreach =>
      refine ⟨Nat.le_refl s, fun r hr hlt => ?_, fun x hlo hhi => absurd hlo (Nat.not_le.mpr hhi)⟩
      rcases Nat.lt_or_eq_of_le (hmax r hr (decide_eq_true hlt)) with hlt' | heq
      · exact Nat.lt_trans (h.lt_of_lt hr hmem hlt') hls
      · rw [h.ascending.eq_of_key hr hmem heq]
        exact Nat.not_le.mp hreach
  next hlast =>
    refine ⟨Nat.le_refl s, fun r hr hlt => ?_, fun x hlo hhi => absurd hlo (Nat.not_le.mpr hhi)⟩
    exact absurd hlt (of_decide_eq_false (lastWhere_eq_none.mp hlast r hr))

/-- **Adding is union.** -/
theorem add (hse : s < e) : RunsOk (oooRunsAdd runs s e) ∧ ∀ x, Covers (oooRunsAdd runs s e) x ↔
      (s ≤ x ∧ x < e) ∨ Covers runs x := by
  obtain ⟨hle, hleft, hcov⟩ := h.mergeStart_spec s
  unfold oooRunsAdd
  generalize mergeStart runs s = s' at *
  dsimp only
  obtain ⟨hge, hall, hone⟩ := absorbEnd_spec
    (runs.filter fun r => decide (s' ≤ r.1) && decide (r.1 ≤ e)) e
  generalize absorbEnd (runs.filter fun r => decide (s' ≤ r.1) && decide (r.1 ≤ e)) e = e' at *
  have hin (r : Nat × Nat) : (r ∈ runs.filter fun r => decide (s' ≤ r.1) && decide (r.1 ≤ e)) ↔
      r ∈ runs ∧ s' ≤ r.1 ∧ r.1 ≤ e := by
    rw [mem_filter, Bool.and_eq_true, decide_eq_true_eq, decide_eq_true_eq]
  have hout (r : Nat × Nat) : (r ∈ runs.filter fun r => !(decide (s' ≤ r.1) && decide (r.1 ≤ e))) ↔
      r ∈ runs ∧ ¬ (s' ≤ r.1 ∧ r.1 ≤ e) := by
    rw [mem_filter, Bool.not_eq_true', ← Bool.not_eq_true, Bool.and_eq_true,
      decide_eq_true_eq, decide_eq_true_eq]
  -- The runs that stay are apart from the merged one.
  have happart : ∀ r ∈ runs.filter fun r => !(decide (s' ≤ r.1) && decide (r.1 ≤ e)),
      r.2 < s' ∨ e' < r.1 := by
    intro r hr
    obtain ⟨hr, hnot⟩ := (hout r).mp hr
    by_cases hbefore : r.1 < s'
    · exact .inl (hleft r hr hbefore)
    right
    rcases hone with rfl | ⟨a, ha, rfl⟩
    · omega
    · obtain ⟨ha, -, hae⟩ := (hin a).mp ha
      exact h.lt_of_lt ha hr (by omega)
  obtain ⟨hok, hcovers⟩ := (h.filter _).insert (by omega) happart
  refine ⟨hok, fun x => (hcovers x).trans ?_⟩
  constructor
  · rintro (⟨hlo, hhi⟩ | ⟨r, hr, hx⟩)
    · -- In the merged run: before `s`, in the interval, or in an absorbed run behind it.
      by_cases hs : x < s
      · exact .inr (hcov x hlo hs)
      by_cases he : x < e
      · exact .inl ⟨Nat.not_lt.mp hs, he⟩
      rcases hone with rfl | ⟨a, ha, rfl⟩
      · exact absurd hhi he
      · obtain ⟨ha, -, hae⟩ := (hin a).mp ha
        exact .inr ⟨a, ha, by omega, hhi⟩
    · exact .inr ⟨r, ((hout r).mp hr).1, hx⟩
  · rintro (hx | ⟨r, hr, hx⟩)
    · exact .inl (by omega)
    · by_cases habs : s' ≤ r.1 ∧ r.1 ≤ e
      · have := hall r ((hin r).mpr ⟨hr, habs⟩)
        exact .inl (by omega)
      · exact .inr ⟨r, (hout r).mpr ⟨hr, habs⟩, hx⟩

/-! ## Trimming -/

/-- **Trimming** keeps what lies at or above `want`. -/
theorem trim (want : Nat) : RunsOk (oooRunsTrim runs want) ∧ ∀ x, Covers (oooRunsTrim runs want) x ↔
      Covers runs x ∧ want ≤ x := by
  unfold oooRunsTrim
  dsimp only
  have hmem (r : Nat × Nat) :
      (r ∈ runs.filter fun r => !(decide (r.1 < want) && decide (r.2 ≤ want))) ↔
        r ∈ runs ∧ ¬ (r.1 < want ∧ r.2 ≤ want) := by
    rw [mem_filter, Bool.not_eq_true', ← Bool.not_eq_true, Bool.and_eq_true,
      decide_eq_true_eq, decide_eq_true_eq]
  have h₁ := h.filter fun r => !(decide (r.1 < want) && decide (r.2 ≤ want))
  generalize runs.filter (fun r => !(decide (r.1 < want) && decide (r.2 ≤ want))) = runs₁ at *
  have hcov₁ (x : Nat) (hx : want ≤ x) : Covers runs₁ x ↔ Covers runs x := by
    constructor
    · rintro ⟨r, hr, hin⟩
      exact ⟨r, ((hmem r).mp hr).1, hin⟩
    · rintro ⟨r, hr, hin⟩
      exact ⟨r, (hmem r).mpr ⟨hr, by omega⟩, hin⟩
  split
  next ks ke hlast =>
    obtain ⟨hks, hlt, hmax⟩ := lastWhere_eq_some h₁.ascending hlast
    have hkw : ks < want := of_decide_eq_true hlt
    have hke : want < ke := by
      have := ((hmem _).mp hks).2
      omega
    rw [if_pos hke]
    -- The other runs start behind the one that is cut.
    have hlater (r : Nat × Nat) (hr : r ∈ runs₁) (hne : r.1 ≠ ks) : ke < r.1 := by
      refine h₁.lt_of_lt hks hr (Nat.lt_of_le_of_ne ?_ hne.symm)
      by_contra hgt
      have hr1 : r.1 < ks := Nat.not_le.mp hgt
      have hr2 : r.2 < ks := h₁.lt_of_lt hr hks hr1
      have := ((hmem r).mp hr).2
      omega
    obtain ⟨hok, hcovers⟩ := (h₁.filter fun r => decide (r.1 ≠ ks)).insert hke fun r hr => by
      obtain ⟨hr, hne⟩ := mem_filter.mp hr
      exact .inr (hlater r hr (of_decide_eq_true hne))
    refine ⟨hok, fun x => (hcovers x).trans ?_⟩
    constructor
    · rintro (⟨hlo, hhi⟩ | ⟨r, hr, hin⟩)
      · exact ⟨(hcov₁ x hlo).mp ⟨_, hks, by dsimp only; omega, hhi⟩, hlo⟩
      · obtain ⟨hr, hne⟩ := mem_filter.mp hr
        have hbehind := hlater r hr (of_decide_eq_true hne)
        have hx : want ≤ x := by omega
        exact ⟨(hcov₁ x hx).mp ⟨r, hr, hin⟩, hx⟩
    · rintro ⟨hx, hwant⟩
      obtain ⟨r, hr, hin⟩ := (hcov₁ x hwant).mpr hx
      by_cases hne : r.1 = ks
      · have heq := h₁.ascending.eq_of_key hr hks hne
        rw [heq] at hin
        exact .inl ⟨hwant, hin.2⟩
      · exact .inr ⟨r, mem_filter.mpr ⟨hr, decide_eq_true hne⟩, hin⟩
  next hlast =>
    have hall := lastWhere_eq_none.mp hlast
    refine ⟨h₁, fun x => ⟨?_, fun ⟨hx, hwant⟩ => (hcov₁ x hwant).mpr hx⟩⟩
    rintro ⟨r, hr, hin⟩
    have hge : want ≤ r.1 := Nat.not_lt.mp (of_decide_eq_false (hall r hr))
    have hx : want ≤ x := Nat.le_trans hge hin.1
    exact ⟨(hcov₁ x hx).mp ⟨r, hr, hin⟩, hx⟩

/-! ## The lookup -/

/-- **The lookup is inclusion.** -/
theorem covered_iff (hlt : off < last) :
    oooCovered runs off last = true ↔ ∀ x, off ≤ x → x < last → Covers runs x := by
  unfold oooCovered
  constructor
  · intro hcov x hlo hhi
    split at hcov
    next s e hfind =>
      obtain ⟨hmem, hle, -⟩ := lastWhere_eq_some h.ascending hfind
      have hs : s ≤ off := of_decide_eq_true hle
      exact ⟨(s, e), hmem, Nat.le_trans hs hlo, Nat.lt_of_lt_of_le hhi (of_decide_eq_true hcov)⟩
    next => cases hcov
  · intro hall
    obtain ⟨a, ha, halo, hahi⟩ := hall off (Nat.le_refl _) hlt
    split
    next s e hfind =>
      obtain ⟨hmem, hle, hmax⟩ := lastWhere_eq_some h.ascending hfind
      have hs : s ≤ off := of_decide_eq_true hle
      -- The run found is the one that has `off`.
      have hkey : a.1 = s := by
        refine Nat.le_antisymm (hmax a ha (decide_eq_true halo)) ?_
        by_contra hgt
        have := h.lt_of_lt ha hmem (Nat.not_le.mp hgt)
        omega
      have heq := h.ascending.eq_of_key ha hmem hkey
      rw [heq] at hahi
      refine decide_eq_true ?_
      by_contra hend
      -- Its end is in no run.
      obtain ⟨b, hb, hblo, hbhi⟩ := hall e (Nat.le_of_lt hahi) (Nat.not_le.mp hend)
      rcases Nat.lt_trichotomy s b.1 with hsb | hsb | hsb
      · have := h.lt_of_lt hmem hb hsb
        omega
      · have := h.ascending.eq_of_key hmem hb hsb
        rw [← this] at hbhi
        exact absurd hbhi (Nat.lt_irrefl _)
      · have := h.lt_of_lt hb hmem hsb
        have := h.lt _ hmem
        dsimp only at *
        omega
    next hfind =>
      exact absurd halo (of_decide_eq_false (lastWhere_eq_none.mp hfind a ha))

end RunsOk

end NopeekOS.Net
