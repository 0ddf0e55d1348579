import NopeekOS.Lib.StableSort
import NopeekOS.Storage.Extents

/-!
# Batched TRIM (`Bitmap::flush_trims`)

`flush_trims` walks the pending ranges by ascending start, cuts each into its
free runs, and merges a run into the last range it emitted when that range
reaches it. It compares with the *end* of the last range only. A pending range
that starts later can still have a free run before the last range's start: an
earlier range with an allocated hole left its last run behind the hole. The
subtraction `b - last.0` then leaves the range of `u64`.

`Crosses i j` is that situation. `TrimInv` is what the loop keeps without it:
emitted ranges are free, cover what was walked, and the last one reaches furthest
and starts a free run of a pending range.
-/

namespace NopeekOS.Storage

open Lib List
open Option (bind_eq_bind bind_none bind_some map_some some)

namespace Bitmap

/-- Block `b` is in the range `r`. -/
def InRange (r : Nat × Nat) (b : Nat) : Prop := r.1 ≤ b ∧ b < r.1 + r.2

/-- `j` has a free block before an allocated block of `i` that has a free block
of `i` behind it. -/
def Crosses (bm : Bitmap) (i j : Nat × Nat) : Prop :=
  ∃ x y z, x < y ∧ y < z ∧ InRange j x ∧ bm.isFree x = true ∧
    InRange i y ∧ bm.isFree y = false ∧ InRange i z ∧ bm.isFree z = true

/-- A free run of `i` starts at `s`. -/
def RunStart (bm : Bitmap) (i : Nat × Nat) (s : Nat) : Prop :=
  InRange i s ∧ bm.isFree s = true ∧ (s = i.1 ∨ 0 < s ∧ bm.isFree (s - 1) = false)

/-- The loop's invariant: `done` are the free blocks walked, `org` is what is
known about the start of the last range. -/
structure TrimInv (bm : Bitmap) (done : Nat → Prop) (org : Nat → Prop)
    (merged : List (Nat × Nat)) : Prop where
  sound : ∀ r ∈ merged, r.1 + r.2 ≤ bm.geo.totalBlocks ∧ ∀ b, InRange r b → bm.isFree b = true
  cover : ∀ z, done z → ∃ r ∈ merged, InRange r z
  reach : ∀ z, done z → ∀ r ∈ merged.head?, z < r.1 + r.2
  origin : ∀ r ∈ merged.head?, org r.1

variable {bm : Bitmap} {merged : List (Nat × Nat)} {checks : Bool} {data : List Lib.Byte}

theorem TrimInv.mono {done done' org org' : Nat → Prop} (h : bm.TrimInv done org merged)
    (hdone : ∀ z, done' z → done z) (horg : ∀ s, org s → org' s) : bm.TrimInv done' org' merged :=
  ⟨h.sound, fun z hz => h.cover z (hdone z hz), fun z hz => h.reach z (hdone z hz),
    fun r hr => horg _ (h.origin r hr)⟩

variable {run b : Nat}

section

variable {done org : Nat → Prop} (h : bm.TrimInv done org merged) (hlt : run < b)
  (hb : b ≤ bm.geo.totalBlocks) (hfree : ∀ k, run ≤ k → k < b → bm.isFree k = true)

include h hlt hb hfree

/-- A free run that reaches furthest becomes the last range. -/
theorem TrimInv.push (hdone : ∀ z, done z → z < b) (horg : org run) :
    bm.TrimInv (fun z => done z ∨ run ≤ z ∧ z < b) org ((run, b - run) :: merged) where
  sound := by
    refine forall_mem_cons.mpr ⟨⟨by dsimp only; omega, ?_⟩, h.sound⟩
    rintro k ⟨h1, h2⟩
    exact hfree k h1 (by omega)
  cover := by
    rintro z (hz | hz)
    · obtain ⟨r, hr, hin⟩ := h.cover z hz
      exact ⟨r, mem_cons_of_mem _ hr, hin⟩
    · exact ⟨_, mem_cons_self, hz.1, by dsimp only; omega⟩
  reach := by
    rintro z hz r ⟨⟩
    have hzb : z < b := hz.elim (hdone z) (·.2)
    omega
  origin := by
    rintro r ⟨⟩
    exact horg

/-- The merge step on a free run that does not start before the last range. -/
theorem mergeTrim_spec (hlast : ∀ r ∈ merged.head?, r.1 ≤ run) (horg : org run) :
    ∃ merged', (∀ checks, mergeTrim checks run b merged = some merged') ∧
      bm.TrimInv (fun z => done z ∨ run ≤ z ∧ z < b) org merged' := by
  have hbound := bm.geo.total_lt
  cases merged with
  | nil =>
    refine ⟨_, fun _ => rfl, h.push hlt hb hfree (fun z hz => ?_) horg⟩
    obtain ⟨r, hr, -⟩ := h.cover z hz
    cases hr
  | cons last merged =>
    obtain ⟨start, len⟩ := last
    obtain ⟨⟨hend, hlastFree⟩, hsound⟩ := forall_mem_cons.mp h.sound
    have hstart : start ≤ run := hlast (start, len) rfl
    by_cases hmerge : run ≤ start + len
    · -- the last range grows to `b`
      refine ⟨(start, max len (b - start)) :: merged, fun checks => ?_, ?_, ?_, ?_, ?_⟩
      · simp only [mergeTrim, add64_of_lt (show start + len < 2 ^ 64 by omega),
          sub64_of_le (show start ≤ b by omega), bind_eq_bind, bind_some,
          if_pos hmerge]
      · refine forall_mem_cons.mpr ⟨⟨by dsimp only; omega, ?_⟩, hsound⟩
        rintro k ⟨h1, h2⟩
        by_cases hk : k < start + len
        · exact hlastFree k ⟨h1, hk⟩
        · exact hfree k (by omega) (by omega)
      · rintro z (hz | hz)
        · obtain ⟨r, hr, hin⟩ := h.cover z hz
          rcases mem_cons.mp hr with rfl | hr
          · obtain ⟨h1, h2⟩ := hin
            exact ⟨_, mem_cons_self, h1, by dsimp only; omega⟩
          · exact ⟨r, mem_cons_of_mem _ hr, hin⟩
        · exact ⟨_, mem_cons_self, by dsimp only; omega, by dsimp only; omega⟩
      · rintro z (hz | hz) r ⟨⟩
        · have := h.reach z hz (start, len) rfl
          omega
        · omega
      · rintro r ⟨⟩
        exact h.origin (start, len) rfl
    · -- a new range
      refine ⟨_, fun checks => ?_, h.push hlt hb hfree (fun z hz => ?_) horg⟩
      · simp only [mergeTrim, add64_of_lt (show start + len < 2 ^ 64 by omega),
          bind_eq_bind, bind_some, if_neg hmerge]
      · have := h.reach z hz (start, len) rfl
        omega

end

/-- A run that ends before the last range starts: the subtraction underflows. -/
theorem mergeTrim_none {start len : Nat} (hend : start + len < 2 ^ 64) (hrun : run ≤ b)
    (hb : b < start) : mergeTrim true run b ((start, len) :: merged) = none := by
  simp only [mergeTrim, add64_of_lt hend, bind_eq_bind, bind_some,
    if_pos (show run ≤ start + len by omega), sub64_checked_of_lt hb, bind_none]

/-! ## One pending range -/

/-- Where the last range starts while `r` is walked, up to `pos`: at a free run
of a range before, or of `r` itself. -/
def OriginAt (bm : Bitmap) (before : List (Nat × Nat)) (r : Nat × Nat) (pos s : Nat) : Prop :=
  (∃ i ∈ before, bm.RunStart i s) ∨ bm.RunStart r s ∧ s < pos

variable {before : List (Nat × Nat)} {r : Nat × Nat}

/-- Nothing crosses, so no free run of `r` starts before the last range. -/
theorem last_le_run {s : Nat} (hbefore : ∀ i ∈ before, i.1 ≤ r.1 ∧ ¬ bm.Crosses i r)
    (hrun : bm.RunStart r run) (horg : bm.OriginAt before r run s) : s ≤ run := by
  rcases horg with ⟨i, hi, hin, hfree, hstart⟩ | ⟨-, hlt⟩
  · by_contra hlt
    obtain ⟨hle, hcross⟩ := hbefore i hi
    have hrange := hrun.1.1
    rcases hstart with heq | ⟨hpos, hused⟩
    · omega
    -- the run of `i` starts behind an allocated block of `i`
    have hne : run ≠ s - 1 := by
      intro heq
      rw [← heq, hrun.2.1] at hused
      cases hused
    have hin' : InRange i (s - 1) := ⟨by omega, by have := hin.2; omega⟩
    exact hcross ⟨run, s - 1, s, by omega, by omega, hrun.1, hrun.2.1, hin', hused, hin, hfree⟩
  · omega

/-- What the nested loops know about the run they are in. -/
def RunAt (bm : Bitmap) (r : Nat × Nat) (b : Nat) : Option Nat → Prop
  | some s => bm.RunStart r s ∧ s < b ∧ ∀ k, s ≤ k → k < b → bm.isFree k = true
  | none => b = r.1 ∨ 0 < b ∧ bm.isFree (b - 1) = false

theorem RunAt.next {run : Option Nat} (h : bm.RunAt r b run) (hin : InRange r b)
    (hb : bm.isFree b = true) : bm.RunAt r (b + 1) (some (run.getD b)) := by
  cases run with
  | none =>
    refine ⟨⟨hin, hb, h⟩, Nat.lt_succ_self b, fun k hk hk' => ?_⟩
    obtain rfl : k = b := Nat.le_antisymm (Nat.le_of_lt_succ hk') hk
    exact hb
  | some s =>
    obtain ⟨hstart, hlt, hfree⟩ := h
    refine ⟨hstart, Nat.lt_succ_of_lt hlt, fun k hk hk' => ?_⟩
    by_cases hkb : k = b
    · rw [hkb]; exact hb
    · exact hfree k hk (by omega)

/-- A free run ends before an allocated block. -/
theorem RunAt.le_used {s y : Nat} (h : bm.RunAt r b (some s)) (hs : s ≤ y)
    (hused : bm.isFree y = false) : b ≤ y := by
  by_contra hlt
  rw [h.2.2 y hs (by omega)] at hused
  cases hused

theorem trimRange_of_free {n : Nat} {run : Option Nat} (hb : bitClear data b = true) :
    trimRange checks data (n + 1) b run merged =
      trimRange checks data n (b + 1) (some (run.getD b)) merged := by
  cases run <;> rw [trimRange, if_pos hb]

theorem trimRange_of_used {n : Nat} {run : Option Nat} (hb : ¬ bitClear data b = true) :
    trimRange checks data (n + 1) b run merged =
      (trimRange checks data 0 b run merged).bind (trimRange checks data n (b + 1) none) := by
  cases run <;> exact if_neg hb

/-- The run the loops are in is emitted. -/
theorem trimRange_emit {done : Nat → Prop} {run : Option Nat}
    (hbefore : ∀ i ∈ before, i.1 ≤ r.1 ∧ ¬ bm.Crosses i r) (hb : b ≤ bm.geo.totalBlocks)
    (hrun : bm.RunAt r b run)
    (h : bm.TrimInv (fun z => done z ∨ bm.isFree z = true ∧ r.1 ≤ z ∧ z < run.getD b)
      (bm.OriginAt before r (run.getD b)) merged) :
    ∃ merged', (∀ checks, trimRange checks bm.data 0 b run merged = some merged') ∧
      bm.TrimInv (fun z => done z ∨ bm.isFree z = true ∧ r.1 ≤ z ∧ z < b)
        (bm.OriginAt before r b) merged' := by
  cases run with
  | none => exact ⟨merged, fun _ => rfl, h⟩
  | some s =>
    obtain ⟨hstart, hlt, hfree⟩ := hrun
    have hlast : ∀ x ∈ merged.head?, x.1 ≤ s := fun x hx =>
      last_le_run hbefore hstart (h.origin x hx)
    have h' : bm.TrimInv _ (bm.OriginAt before r b) merged := h.mono (fun _ hz => hz)
      fun x hx => hx.imp_right fun ho => ⟨ho.1, Nat.lt_trans ho.2 hlt⟩
    obtain ⟨merged', hres, hinv⟩ := mergeTrim_spec h' hlt hb hfree hlast (.inr ⟨hstart, hlt⟩)
    refine ⟨merged', hres, hinv.mono ?_ fun _ ho => ho⟩
    rintro z (hz | ⟨hz, h1, h2⟩)
    · exact .inl (.inl hz)
    · by_cases hzs : z < s
      · exact .inl (.inr ⟨hz, h1, hzs⟩)
      · exact .inr ⟨Nat.not_lt.mp hzs, h2⟩

/-- The nested loops over one range, in both builds, if no range before it
crosses it. -/
theorem trimRange_spec (done : Nat → Prop) (hbefore : ∀ i ∈ before, i.1 ≤ r.1 ∧ ¬ bm.Crosses i r)
    (htotal : r.1 + r.2 ≤ bm.geo.totalBlocks) :
    ∀ (n b : Nat) (run : Option Nat) (merged : List (Nat × Nat)), b + n = r.1 + r.2 →
      r.1 ≤ b → bm.RunAt r b run →
      bm.TrimInv (fun z => done z ∨ bm.isFree z = true ∧ r.1 ≤ z ∧ z < run.getD b)
        (bm.OriginAt before r (run.getD b)) merged →
      ∃ merged', (∀ checks, trimRange checks bm.data n b run merged = some merged') ∧
        bm.TrimInv (fun z => done z ∨ bm.isFree z = true ∧ InRange r z)
          (bm.OriginAt before r (r.1 + r.2)) merged'
  | 0, b, run, merged, hn, _, hrun, h => by
    obtain rfl : b = r.1 + r.2 := hn
    exact trimRange_emit hbefore htotal hrun h
  | n + 1, b, run, merged, hn, hle, hrun, h => by
    by_cases hb : bm.isFree b = true
    · obtain ⟨merged', hres, hinv⟩ := trimRange_spec done hbefore htotal n (b + 1)
        (some (run.getD b)) merged (by omega) (by omega) (hrun.next ⟨hle, by omega⟩ hb) h
      refine ⟨merged', fun checks => ?_, hinv⟩
      rw [trimRange_of_free hb]
      exact hres checks
    · -- a run ends before `b`
      have hused : bm.isFree b = false := by simpa using hb
      obtain ⟨merged₁, hres₁, hinv₁⟩ := trimRange_emit hbefore (by omega) hrun h
      obtain ⟨merged', hres, hinv⟩ := trimRange_spec done hbefore htotal n (b + 1) none merged₁
        (by omega) (by omega) (.inr ⟨Nat.succ_pos b, hused⟩) (hinv₁.mono (by
          rintro z (hz | ⟨hz, h1, h2⟩)
          · exact .inl hz
          · have hzb : z ≠ b := by
              rintro rfl
              exact hb hz
            have h2' : z < b + 1 := h2
            exact .inr ⟨hz, h1, by omega⟩)
          fun x hx => hx.imp_right fun ho => ⟨ho.1, Nat.lt_succ_of_lt ho.2⟩)
      refine ⟨merged', fun checks => ?_, hinv⟩
      rw [trimRange_of_used hb, hres₁ checks]
      exact hres checks

/-- With the last range behind an allocated block `y`, a free block before `y`
is in a run that ends before the last range starts. -/
theorem trimRange_none {start len x y : Nat} (hend : start + len < 2 ^ 64) (hxy : x < y)
    (hy : y < start) (hused : bm.isFree y = false) (hx : bm.isFree x = true) :
    ∀ (n b : Nat) (run : Option Nat), b + n = r.1 + r.2 → r.1 ≤ b → bm.RunAt r b run →
      run.getD b ≤ x → x < b + n →
      trimRange true bm.data n b run ((start, len) :: merged) = none
  | 0, b, none, _, _, _, hle, hlt => absurd hlt (Nat.not_lt.mpr hle)
  | 0, b, some s, _, _, hrun, hsx, _ => by
    have hby : b ≤ y := hrun.le_used (Nat.le_trans hsx hxy.le) hused
    exact mergeTrim_none hend (Nat.le_of_lt hrun.2.1) (by omega)
  | n + 1, b, run, hn, hle, hrun, hsx, hxn => by
    by_cases hb : bm.isFree b = true
    · rw [trimRange_of_free hb]
      exact trimRange_none hend hxy hy hused hx n (b + 1) _ (by omega) (by omega)
        (hrun.next ⟨hle, by omega⟩ hb) hsx (by omega)
    · rw [trimRange_of_used hb]
      cases run with
      | none =>
        have hbx : b ≠ x := by
          rintro rfl
          exact hb hx
        exact trimRange_none hend hxy hy hused hx n (b + 1) none (by omega) (by omega)
          (.inr ⟨Nat.succ_pos b, by simpa using hb⟩) (Nat.lt_of_le_of_ne hsx hbx) (by omega)
      | some s =>
        have hby : b ≤ y := hrun.le_used (Nat.le_trans hsx hxy.le) hused
        rw [trimRange, mergeTrim_none hend (Nat.le_of_lt hrun.2.1) (by omega), bind_none]

/-! ## All pending ranges -/

/-- The free blocks of a list of ranges. -/
def FreeIn (bm : Bitmap) (ranges : List (Nat × Nat)) (z : Nat) : Prop :=
  bm.isFree z = true ∧ ∃ i ∈ ranges, InRange i z

theorem trimOne_eq (htotal : r.1 + r.2 ≤ bm.geo.totalBlocks) :
    trimOne checks bm merged r = trimRange checks bm.data r.2 r.1 none merged := by
  have hlt := bm.geo.total_lt
  have hlen : min (r.1 + r.2) bm.geo.totalBlocks - r.1 = r.2 := by omega
  simp only [trimOne, add64_of_lt (show r.1 + r.2 < 2 ^ 64 by omega), bind_eq_bind,
    bind_some, hlen]

/-- A run start of some range: what is known about the last range in between. -/
def OriginIn (bm : Bitmap) (ranges : List (Nat × Nat)) (s : Nat) : Prop :=
  ∃ i ∈ ranges, bm.RunStart i s

/-- The fold over ranges none of which is crossed by one before it. -/
theorem foldlM_trimOne : ∀ (ranges before merged : List (Nat × Nat)),
    (before ++ ranges).Pairwise (fun i j => i.1 ≤ j.1 ∧ ¬ bm.Crosses i j) →
    (∀ r ∈ ranges, r.1 + r.2 ≤ bm.geo.totalBlocks) →
    bm.TrimInv (bm.FreeIn before) (bm.OriginIn before) merged →
    ∃ merged', (∀ checks, ranges.foldlM (trimOne checks bm) merged = some merged') ∧
      bm.TrimInv (bm.FreeIn (before ++ ranges)) (bm.OriginIn (before ++ ranges)) merged'
  | [], before, merged, _, _, h => ⟨merged, fun _ => rfl, by rwa [append_nil]⟩
  | r :: ranges, before, merged, hpair, htotal, h => by
    have hr := htotal r mem_cons_self
    have hbefore : ∀ i ∈ before, i.1 ≤ r.1 ∧ ¬ bm.Crosses i r := fun i hi =>
      (pairwise_append.mp hpair).2.2 i hi r mem_cons_self
    obtain ⟨merged₁, hres₁, hinv₁⟩ := trimRange_spec (bm.FreeIn before) hbefore hr
      r.2 r.1 none merged rfl (Nat.le_refl _) (.inl rfl) (h.mono (by
        rintro z (hz | ⟨-, h1, h2⟩)
        · exact hz
        · exact absurd h2 (Nat.not_lt.mpr h1))
        fun s hs => .inl hs)
    have hassoc : before ++ r :: ranges = before ++ [r] ++ ranges := by simp
    rw [hassoc] at hpair ⊢
    obtain ⟨merged', hres, hinv⟩ := foldlM_trimOne ranges (before ++ [r]) merged₁ hpair
      (fun r' hr' => htotal r' (mem_cons_of_mem _ hr')) (hinv₁.mono (by
        rintro z ⟨hz, i, hi, hin⟩
        rcases mem_append.mp hi with hi | hi
        · exact .inl ⟨hz, i, hi, hin⟩
        · rw [mem_singleton.mp hi] at hin
          exact .inr ⟨hz, hin⟩) (by
        rintro s (⟨i, hi, hs⟩ | ⟨hs, -⟩)
        · exact ⟨i, mem_append_left _ hi, hs⟩
        · exact ⟨r, mem_append_right _ (mem_singleton_self r), hs⟩))
    refine ⟨merged', fun checks => ?_, hinv⟩
    rw [foldlM_cons, trimOne_eq hr, hres₁ checks]
    exact hres checks

/-- A range that one of the ranges before crosses panics the checked build. -/
theorem trimOne_none {i j : Nat × Nat}
    (h : bm.TrimInv (bm.FreeIn before) (bm.OriginIn before) merged) (hi : i ∈ before)
    (htotal : j.1 + j.2 ≤ bm.geo.totalBlocks) (hcross : bm.Crosses i j) :
    trimOne true bm merged j = none := by
  obtain ⟨x, y, z, hxy, hyz, hjx, hx, -, hy, hiz, hz⟩ := hcross
  have hdone : bm.FreeIn before z := ⟨hz, i, hi, hiz⟩
  cases merged with
  | nil =>
    obtain ⟨r, hr, -⟩ := h.cover z hdone
    cases hr
  | cons last merged =>
    obtain ⟨start, len⟩ := last
    obtain ⟨hend, hfree⟩ := h.sound (start, len) mem_cons_self
    have hreach := h.reach z hdone (start, len) rfl
    -- the last range holds no allocated block and reaches beyond `z`
    have hstart : y < start := by
      by_contra hle
      rw [hfree y ⟨by dsimp only; omega, by dsimp only; omega⟩] at hy
      cases hy
    have hlt := bm.geo.total_lt
    rw [trimOne_eq htotal]
    exact trimRange_none (by omega) hxy hstart hy hx j.2 j.1 none rfl (Nat.le_refl _) (.inl rfl)
      hjx.1 hjx.2

/-- A list that is not pairwise related has a first element where that shows. -/
theorem exists_first_of_not_pairwise {α : Type*} {R : α → α → Prop} :
    ∀ {l : List α}, ¬ l.Pairwise R →
      ∃ before j after, l = before ++ j :: after ∧ before.Pairwise R ∧ ∃ i ∈ before, ¬ R i j := by
  intro l
  induction l using reverseRecOn with
  | nil => exact fun h => absurd List.Pairwise.nil h
  | append_singleton l a ih =>
    intro h
    by_cases hl : l.Pairwise R
    · by_contra hno
      refine h (pairwise_append.mpr ⟨hl, pairwise_singleton R a, fun i hi b hb => ?_⟩)
      rw [mem_singleton.mp hb]
      by_contra hR
      exact hno ⟨l, a, [], rfl, hl, i, hi, hR⟩
    · obtain ⟨before, j, after, rfl, hrest⟩ := ih hl
      exact ⟨before, j, after ++ [a], by simp, hrest⟩

/-! ## `flush_trims` -/

/-- What `flush_trims` is for: in either build it returns (no subtraction leaves
the range of `u64`), every block it discards is on the disk and free, and every
pending block that is still free is discarded. -/
def TrimSafe (bm : Bitmap) : Prop :=
  ∃ merged bm', (∀ checks, bm.flushTrims checks = some (merged, bm')) ∧
    (∀ r ∈ merged, ∀ b, InRange r b → b < bm.geo.totalBlocks ∧ bm.isFree b = true) ∧
    (∀ r ∈ bm.trimPending, ∀ b, InRange r b → bm.isFree b = true → ∃ r' ∈ merged, InRange r' b)

/-- The order in which `flush_trims` walks two pending ranges has no crossing. -/
def Uncrossed (bm : Bitmap) : Prop :=
  bm.trimPending.Pairwise (InKeyOrder Prod.fst fun i j => ¬ bm.Crosses i j)

theorem mem_sortedTrims : r ∈ bm.sortedTrims ↔ r ∈ bm.trimPending :=
  mem_insertionSort _

theorem sortedTrims_sorted (bm : Bitmap) : bm.sortedTrims.Pairwise fun i j => i.1 ≤ j.1 := by
  refine (pairwise_insertionSort_iff Prod.fst bm.trimPending).mpr (pairwise_of_forall ?_)
  exact fun i j => ⟨fun h => h, Nat.le_of_lt⟩

theorem uncrossed_iff :
    bm.Uncrossed ↔ bm.sortedTrims.Pairwise fun i j => i.1 ≤ j.1 ∧ ¬ bm.Crosses i j := by
  unfold Uncrossed
  rw [← pairwise_insertionSort_iff]
  exact ⟨fun h => (sortedTrims_sorted bm).and h, fun h => h.imp fun hij => hij.2⟩

theorem Inv.sortedTrims_le (hinv : bm.Inv) :
    ∀ r ∈ bm.sortedTrims, r.1 + r.2 ≤ bm.geo.totalBlocks := fun r hr =>
  (hinv.pending r (mem_sortedTrims.mp hr)).2.2

theorem trimInv_nil (bm : Bitmap) : bm.TrimInv (bm.FreeIn []) (bm.OriginIn []) [] where
  sound := nofun
  cover := by rintro z ⟨-, i, hi, -⟩; cases hi
  reach := nofun
  origin := nofun

theorem Inv.trimSafe_of_uncrossed (hinv : bm.Inv) (h : bm.Uncrossed) : bm.TrimSafe := by
  obtain ⟨merged, hres, htrim⟩ := foldlM_trimOne bm.sortedTrims [] [] (uncrossed_iff.mp h)
    hinv.sortedTrims_le (trimInv_nil bm)
  refine ⟨merged.reverse, { bm with trimPending := [] }, fun checks => ?_, ?_, ?_⟩
  · simp only [flushTrims, hres checks, map_some]
  · intro r hr b hb
    obtain ⟨hend, hfree⟩ := htrim.sound r (mem_reverse.mp hr)
    exact ⟨Nat.lt_of_lt_of_le hb.2 hend, hfree b hb⟩
  · intro r hr b hb hfree
    obtain ⟨r', hr', hin⟩ := htrim.cover b ⟨hfree, r, mem_sortedTrims.mpr hr, hb⟩
    exact ⟨r', mem_reverse.mpr hr', hin⟩

theorem Inv.uncrossed_of_trimSafe (hinv : bm.Inv) (h : bm.TrimSafe) : bm.Uncrossed := by
  by_contra hcross
  rw [uncrossed_iff] at hcross
  obtain ⟨before, j, after, heq, hpair, i, hi, hij⟩ := exists_first_of_not_pairwise hcross
  have hle := hinv.sortedTrims_le
  have hsorted := sortedTrims_sorted bm
  rw [heq] at hle hsorted
  have hij' : bm.Crosses i j := by
    by_contra hno
    exact hij ⟨(pairwise_append.mp hsorted).2.2 i hi j mem_cons_self, hno⟩
  -- up to `j` the loop runs as it should
  obtain ⟨merged, hres, htrim⟩ := foldlM_trimOne before [] [] hpair
    (fun r hr => hle r (mem_append_left _ hr)) (trimInv_nil bm)
  have hnone := trimOne_none htrim hi (hle j (mem_append_right _ mem_cons_self)) hij'
  obtain ⟨merged', bm', hflush, -⟩ := h
  have := hflush true
  rw [flushTrims, heq, foldlM_append, hres true, bind_eq_bind, bind_some,
    foldlM_cons, hnone] at this
  cases this

end Bitmap

/-- **When `flush_trims` is safe**, in every state of every run: exactly if, for
every two pending ranges in the order it walks them, the later one has no free
block before an allocated block of the earlier one that has a free block of the
earlier one behind it. -/
theorem flushTrims_safe_iff {g : Geometry} {disk : Disk} {s₀ s : BitmapState}
    {ops : List BitmapOp} (hstart : BitmapState.Start g disk s₀)
    (hrun : Run BitmapState.Step s₀ ops s) : s.bm.TrimSafe ↔ s.bm.Uncrossed := by
  obtain ⟨-, hinv, -⟩ := BitmapState.good_run hstart hrun
  exact ⟨hinv.uncrossed_of_trimSafe, hinv.trimSafe_of_uncrossed⟩

/-- All 15 data blocks of the smallest disk allocated, then ten of them freed. -/
def reusedBitmap : Bitmap := ((Bitmap.newForMkfs smallDisk).takeRun 266 15).free 266 10

/-- Four of the ten allocated again, and two of the four freed. -/
def crossedBitmap : Bitmap := (reusedBitmap.takeRun 266 4).free 267 2

theorem run_reusedBitmap :
    Run BitmapState.Step ⟨.newForMkfs smallDisk, fun _ _ => 0⟩ [.alloc 15, .free 266 10]
      ⟨reusedBitmap, fun _ _ => 0⟩ :=
  run_alloc_free _ 15 266 (by decide) (by decide +kernel) (by decide +kernel) _ 266 10

/-- Four of the ten allocated again and the last two of them freed: two ranges that overlap are
pending, and `flush_trims` is safe. -/
theorem flushTrims_safe_reused :
    ((reusedBitmap.takeRun 266 4).free 268 2).trimPending = [(266, 10), (268, 2)] ∧
      ((reusedBitmap.takeRun 266 4).free 268 2).TrimSafe := by
  have hrun := run_reusedBitmap.append
    (run_alloc_free reusedBitmap 4 266 (by decide) (by decide +kernel) (by decide +kernel) _ 268 2)
  have hpending : ((reusedBitmap.takeRun 266 4).free 268 2).trimPending = [(266, 10), (268, 2)] := by
    decide +kernel
  have hfree : ∀ b < 276, 268 ≤ b →
      ((reusedBitmap.takeRun 266 4).free 268 2).isFree b = true := by decide +kernel
  refine ⟨hpending, (flushTrims_safe_iff .mkfs hrun).mpr ?_⟩
  unfold Bitmap.Uncrossed
  rw [hpending]
  refine pairwise_pair.mpr ⟨fun _ => ?_, fun h => absurd h (by decide)⟩
  -- behind a block of the second range the first has no allocated block
  rintro ⟨x, y, z, hxy, hyz, hx, -, hy, hused, -⟩
  rw [hfree y hy.2 (hx.1.trans hxy.le)] at hused
  cases hused

theorem run_crossedBitmap :
    Run BitmapState.Step ⟨reusedBitmap, fun _ _ => 0⟩ [.alloc 4, .free 267 2]
      ⟨crossedBitmap, fun _ _ => 0⟩ :=
  run_alloc_free _ 4 266 (by decide) (by decide +kernel) (by decide +kernel) _ 267 2

/-- After this run the range 267-268 has a free run before the last run of
266-275, and `flush_trims` is not safe: with checks it panics; without, it asks
the device to discard 2^64 - 1 blocks. -/
theorem flushTrims_crossed : Run BitmapState.Step ⟨.newForMkfs smallDisk, fun _ _ => 0⟩
      [.alloc 15, .free 266 10, .alloc 4, .free 267 2] ⟨crossedBitmap, fun _ _ => 0⟩ ∧
    ¬ crossedBitmap.TrimSafe ∧ crossedBitmap.flushTrims true = none ∧
    (crossedBitmap.flushTrims false).map Prod.fst = some [(267, 2), (270, 2 ^ 64 - 1)] := by
  have hnone : crossedBitmap.flushTrims true = none :=
    Option.isNone_iff_eq_none.mp (by decide +kernel)
  refine ⟨run_reusedBitmap.append run_crossedBitmap, ?_, hnone, by decide +kernel⟩
  rintro ⟨merged, bm', hflush, -⟩
  rw [hflush true] at hnone
  cases hnone

end NopeekOS.Storage
