import NopeekOS.Mm.FrameAllocator

/-!
# What the searches of the frame allocator find

`isFree` is the only view of the bitmap that is needed: each change is described
by what it does to it (`isFree_setUsed`, `isFree_setFree` and their loops), and the
searches by the windows of free frames they return or rule out. A search that
jumps over windows says why none of them was free.
-/

namespace NopeekOS.Mm

open Lib List

namespace FrameAllocator

variable {a : FrameAllocator}

/-! ## Single bits -/

variable {f : Nat}

theorem div_lt_length (h : f < a.frames) : f / 8 < a.bitmap.length := by
  unfold frames at h
  omega

theorem isFree_iff : a.isFree f = true ↔ f < a.frames ∧ bitClear a.bitmap f = true := by
  simp [isFree]

@[simp] theorem frames_setUsed (x : Nat) : (a.setUsed x).frames = a.frames := by
  unfold setUsed
  split_ifs <;> simp [frames]

@[simp] theorem frames_setFree (x : Nat) : (a.setFree x).frames = a.frames := by
  unfold setFree
  split_ifs <;> simp [frames]

@[simp] theorem memoryTop_setUsed (x : Nat) : (a.setUsed x).memoryTop = a.memoryTop := by
  unfold setUsed
  split_ifs <;> rfl

@[simp] theorem memoryTop_setFree (x : Nat) : (a.setFree x).memoryTop = a.memoryTop := by
  unfold setFree
  split_ifs <;> rfl

@[simp] theorem frames_freeFrame (x : Nat) : (a.freeFrame x).frames = a.frames := by
  have h : (a.setFree x).frames = a.frames := frames_setFree x
  unfold freeFrame
  dsimp only
  split_ifs <;> exact h

/-- Setting a frame to used takes it from the free ones. -/
theorem isFree_setUsed (x f : Nat) : (a.setUsed x).isFree f = (a.isFree f && decide (f ≠ x)) := by
  rw [Bool.eq_iff_iff, Bool.and_eq_true, decide_eq_true_eq, isFree_iff, isFree_iff, frames_setUsed]
  unfold setUsed
  split
  · -- A frame beyond the bitmap was not free.
    exact ⟨fun h => ⟨h, by omega⟩, And.left⟩
  rename_i hin
  split
  · rw [bitClear_setBit (div_lt_length (Nat.not_le.mp hin)), Bool.and_eq_true,
      decide_eq_true_eq, and_assoc]
  · rename_i hused
    exact ⟨fun h => ⟨h, fun hf => hused (hf ▸ h.2)⟩, And.left⟩

/-- Setting a frame to free adds it to the free ones. -/
theorem isFree_setFree (x f : Nat) :
    (a.setFree x).isFree f = (a.isFree f || decide (f = x ∧ x < a.frames)) := by
  rw [Bool.eq_iff_iff, Bool.or_eq_true, decide_eq_true_eq, isFree_iff, isFree_iff, frames_setFree]
  unfold setFree
  split
  · exact ⟨.inl, fun h => h.elim id fun h => by omega⟩
  rename_i hin
  have hx := Nat.not_le.mp hin
  split
  · rw [bitClear_clearBit (div_lt_length hx), Bool.or_eq_true, decide_eq_true_eq]
    constructor
    · rintro ⟨hf, hclear | rfl⟩
      · exact .inl ⟨hf, hclear⟩
      · exact .inr ⟨rfl, hx⟩
    · rintro (h | ⟨rfl, -⟩)
      · exact ⟨h.1, .inl h.2⟩
      · exact ⟨hx, .inr rfl⟩
  · -- It was free already.
    rename_i hfree
    have hclear : bitClear a.bitmap x = true := by simpa using hfree
    exact ⟨.inl, fun h => h.elim id fun ⟨hf, _⟩ => hf ▸ ⟨hx, hclear⟩⟩

theorem isFree_freeFrame (x f : Nat) :
    (a.freeFrame x).isFree f = (a.isFree f || decide (f = x ∧ x < a.frames)) := by
  have h : (a.setFree x).isFree f = _ := isFree_setFree x f
  unfold freeFrame
  dsimp only
  split_ifs <;> exact h

/-! ## Loops over frames -/

variable {start : Nat}

/-- What every turn of a loop keeps. -/
theorem forFrames_induct {f : FrameAllocator → Nat → FrameAllocator} {last : Nat}
    {P : FrameAllocator → Prop} (hf : ∀ b x, start ≤ x → x < last → P b → P (f b x)) (ha : P a) :
    P (a.forFrames f start last) := by
  unfold forFrames
  refine foldlRecOn _ f ha fun b hb x hx => ?_
  obtain ⟨i, hi, rfl⟩ := mem_range'.mp hx
  exact hf b _ (by omega) (by omega) hb

theorem forFrames_succ (f : FrameAllocator → Nat → FrameAllocator) (start n : Nat) :
    a.forFrames f start (start + (n + 1)) = (f a start).forFrames f (start + 1) (start + 1 + n) := by
  unfold forFrames
  rw [Nat.add_sub_cancel_left, Nat.add_sub_cancel_left, range'_succ, foldl_cons]

theorem memoryTop_forFrames_setUsed (start last : Nat) :
    (a.forFrames setUsed start last).memoryTop = a.memoryTop :=
  forFrames_induct (P := fun b => b.memoryTop = a.memoryTop)
    (fun _ x _ _ h => (memoryTop_setUsed x).trans h) rfl

theorem memoryTop_forFrames_setFree (start last : Nat) :
    (a.forFrames setFree start last).memoryTop = a.memoryTop :=
  forFrames_induct (P := fun b => b.memoryTop = a.memoryTop)
    (fun _ x _ _ h => (memoryTop_setFree x).trans h) rfl

/-- A loop of `set_used` takes its range from the free frames. -/
theorem isFree_forFrames_setUsed (start last f : Nat) : (a.forFrames setUsed start last).isFree f =
      (a.isFree f && decide (¬ (start ≤ f ∧ f < last))) := by
  by_cases hle : last ≤ start
  · simp [forFrames, Nat.sub_eq_zero_of_le hle, show ¬ (start ≤ f ∧ f < last) by omega]
  obtain ⟨n, rfl⟩ := Nat.exists_eq_add_of_le (Nat.le_of_not_le hle)
  clear hle
  induction n generalizing a start with
  | zero => simp [forFrames]
  | succ n ih =>
    rw [forFrames_succ, ih, isFree_setUsed, Bool.and_assoc, ← Bool.decide_and]
    congr 2
    exact propext ⟨fun h => by omega, fun h => by omega⟩

/-- A loop that frees adds its range. -/
theorem isFree_forFrames_of {g : FrameAllocator → Nat → FrameAllocator}
    (hframes : ∀ b x, (g b x).frames = b.frames)
    (hfree : ∀ b x f, (g b x).isFree f = (b.isFree f || decide (f = x ∧ x < b.frames)))
    (start last f : Nat) : (a.forFrames g start last).isFree f =
      (a.isFree f || decide (start ≤ f ∧ f < last ∧ f < a.frames)) := by
  by_cases hle : last ≤ start
  · simp [forFrames, Nat.sub_eq_zero_of_le hle, show ¬ (start ≤ f ∧ f < last ∧ f < a.frames) by omega]
  obtain ⟨n, rfl⟩ := Nat.exists_eq_add_of_le (Nat.le_of_not_le hle)
  clear hle
  induction n generalizing a start with
  | zero => simp [forFrames, show ¬ (start ≤ f ∧ f < start ∧ f < a.frames) by omega]
  | succ n ih =>
    rw [forFrames_succ, ih, hfree, hframes, Bool.or_assoc, ← Bool.decide_or]
    congr 2
    refine propext ⟨fun h => ?_, fun h => ?_⟩
    · rcases h with ⟨rfl, h⟩ | h <;> omega
    · by_cases hf : f = start
      · exact .inl ⟨hf, by omega⟩
      · exact .inr (by omega)

/-! ## The search for a single frame -/

variable {bitmap : List Byte}

theorem notFull_eq_find? (bitmap : List Byte) (n start : Nat) :
    notFull bitmap n start = (range' start n).find? (bitmap.getD · 0 != 0xFF) := by
  induction n generalizing start with
  | zero => rfl
  | succ n ih =>
    rw [notFull, range'_succ, ih]
    split_ifs with hfull
    · rw [find?_cons_of_neg (by rw [hfull]; decide)]
    · rw [find?_cons_of_pos (by exact bne_iff_ne.mpr hfull)]

theorem notFull_some {n i : Nat} (h : notFull bitmap n start = some i) :
    start ≤ i ∧ i < start + n ∧ bitmap.getD i 0 ≠ 0xFF ∧
      ∀ j, start ≤ j → j < i → bitmap.getD j 0 = 0xFF := by
  rw [notFull_eq_find?, find?_range'_eq_some, mem_range'_1] at h
  obtain ⟨hne, ⟨hle, hlt⟩, hbefore⟩ := h
  exact ⟨hle, hlt, bne_iff_ne.mp hne, fun j hj hji => by simpa using hbefore j hj hji⟩

theorem notFull_none {n : Nat} (h : notFull bitmap n start = none) {j : Nat} (hj : start ≤ j)
    (hjn : j < start + n) : bitmap.getD j 0 = 0xFF := by
  rw [notFull_eq_find?, find?_range'_eq_none] at h
  simpa using h j hj hjn

/-- The bits of a full byte are all set. -/
theorem bitClear_of_full (h : bitmap.getD (f / 8) 0 = 0xFF) : bitClear bitmap f = false := by
  rw [bitClear_eq, h]
  have hbits : ∀ i < 8, (0xFF : Byte).getLsbD i = true := by decide
  rw [hbits (f % 8) (Nat.mod_lt f (by omega))]
  rfl

/-- `trailing_ones` of a byte that is not full is its lowest clear bit. -/
theorem trailingOnes_spec : ∀ b : Byte, b ≠ 0xFF → trailingOnes b < 8 ∧
    b.getLsbD (trailingOnes b) = false ∧ ∀ i < trailingOnes b, b.getLsbD i = true := by
  decide +kernel

/-! ## The searches for a window -/

/-- The bits of the window are clear. -/
def ClearRun (bitmap : List Byte) (start count : Nat) : Prop :=
  ∀ f, start ≤ f → f < start + count → bitClear bitmap f = true

variable {count : Nat}

theorem firstUsed_none : firstUsed bitmap start count = none ↔ ClearRun bitmap start count := by
  rw [firstUsed, find?_range'_eq_none]
  simp [ClearRun]

theorem firstUsed_some {frame : Nat} (h : firstUsed bitmap start count = some frame) :
    start ≤ frame ∧ frame < start + count ∧ bitClear bitmap frame = false := by
  obtain ⟨hle, hlt⟩ := mem_range'_1.mp (mem_of_find?_eq_some h)
  exact ⟨hle, hlt, by simpa using find?_some h⟩

/-- A used frame is in no clear window. -/
theorem ClearRun.not_used {frame : Nat} (h : ClearRun bitmap start count)
    (hused : bitClear bitmap frame = false) : frame < start ∨ start + count ≤ frame := by
  by_contra hin
  have hclear := h frame (by omega) (by omega)
  rw [hused] at hclear
  cases hclear

/-- What a search down from `start` returns: the highest number with `P`, if there is one. -/
def Highest (P : Nat → Prop) (start : Nat) : Option Nat → Prop
  | some s => s ≤ start ∧ P s ∧ ∀ s', P s' → s' ≤ start → s' ≤ s
  | none => ∀ s', P s' → ¬ s' ≤ start

/-- A search from further down, if there is none between. -/
theorem Highest.of_lower {P : Nat → Prop} {low : Nat} {found : Option Nat} (h : Highest P low found)
    (hlow : low ≤ start) (hskip : ∀ s', P s' → s' ≤ start → s' ≤ low) : Highest P start found := by
  cases found with
  | none => exact fun s' hs' hle => h s' hs' (hskip s' hs' hle)
  | some s =>
    obtain ⟨hs, hP, hhigh⟩ := h
    exact ⟨Nat.le_trans hs hlow, hP, fun s' hs' hle => hhigh s' hs' (hskip s' hs' hle)⟩

/-- The search down from `start`: the highest clear window, if there is one. The
windows that a turn jumps over all hold the used frame it met. -/
theorem searchBelow_spec (bitmap : List Byte) (count start : Nat) :
    Highest (ClearRun bitmap · count) start (searchBelow bitmap count start) := by
  induction start using Nat.strong_induction_on with
  | _ start ih =>
    rw [searchBelow]
    cases hfirst : firstUsed bitmap start count with
    | none => exact ⟨Nat.le_refl _, firstUsed_none.mp hfirst, fun s' _ hle => hle⟩
    | some frame =>
      obtain ⟨hle, hlt, hused⟩ := firstUsed_some hfirst
      dsimp only
      by_cases hzero : start = 0
      · rw [if_pos hzero]
        intro s' hs' hs
        have := hs'.not_used hused
        omega
      · rw [if_neg hzero]
        have hskip : ¬ start ≤ (if count < frame then frame - count else 0) := by
          split_ifs <;> omega
        rw [if_neg hskip]
        refine (ih _ (Nat.not_le.mp hskip)).of_lower (Nat.le_of_not_le hskip) fun s' hs' hs => ?_
        have := hs'.not_used hused
        split_ifs <;> omega

/-- The aligned search: the highest multiple of `align` that passes the test. -/
theorem searchAligned_spec {free : Nat → Bool} {align : Nat} (hpos : 0 < align) (n : Nat) :
    ∀ start, align ∣ start → start / align ≤ n →
    Highest (fun s => align ∣ s ∧ free s = true) start (searchAligned free align n start) := by
  induction n using Nat.strong_induction_on with
  | _ n ih =>
    intro start hdvd hn
    unfold searchAligned
    -- Two multiples of `align` at most `start`: the lower one is `align` further down.
    have hstep (s' : Nat) (hs' : align ∣ s') (hle : s' ≤ start) (hne : s' ≠ start) :
        s' + align ≤ start := by
      have hlt := Nat.lt_of_le_of_ne hle hne
      have := Nat.le_of_dvd (Nat.sub_pos_of_lt hlt) (Nat.dvd_sub hdvd hs')
      omega
    split_ifs with hfree hlt
    · exact ⟨Nat.le_refl _, ⟨hdvd, hfree⟩, fun s' _ hle => hle⟩
    · rintro s' ⟨hd, hs'⟩ hle
      by_cases hne : s' = start
      · exact hfree (hne ▸ hs')
      · have := hstep s' hd hle hne
        omega
    · have hdiv := Nat.div_eq_sub_div hpos (Nat.not_lt.mp hlt)
      cases n with
      | zero => exact absurd (hdiv ▸ hn) (Nat.not_succ_le_zero _)
      | succ n =>
        have hlow := ih n n.lt_succ_self _ (Nat.dvd_sub hdvd (Nat.dvd_refl align)) (by omega)
        refine hlow.of_lower (Nat.sub_le _ _) fun s' hs' hle => ?_
        have := hstep s' hs'.1 hle fun h => hfree (h ▸ hs'.2)
        omega

/-- A window of whole bytes is clear iff its bytes are zero. -/
theorem bytes_zero_iff (hs : 8 ∣ start) (hc : 8 ∣ count) (hlen : start + count ≤ bitmap.length * 8) :
    ((bitmap.drop (start / 8)).take ((start + count) / 8 - start / 8)).all (· == 0) = true ↔
      ClearRun bitmap start count := by
  obtain ⟨s, rfl⟩ := hs
  obtain ⟨c, rfl⟩ := hc
  have hdiv : (8 * s + 8 * c) / 8 - 8 * s / 8 = c := by omega
  rw [hdiv, Nat.mul_div_cancel_left s (by omega), all_eq_true]
  constructor
  · intro h f hf hlt
    have hbyte : bitmap.getD (f / 8) 0 = 0 := by
      have hmem : bitmap.getD (f / 8) 0 ∈ (bitmap.drop s).take c := by
        refine mem_iff_getElem?.mpr ⟨f / 8 - s, ?_⟩
        rw [getElem?_take_of_lt (by omega), getElem?_drop, getD_eq_getElem?_getD,
          show s + (f / 8 - s) = f / 8 by omega, getElem?_eq_getElem (by omega)]
        rfl
      simpa using h _ hmem
    rw [bitClear_eq, hbyte]
    simp
  · intro h b hb
    obtain ⟨i, hi⟩ := mem_iff_getElem?.mp hb
    have hic : i < c := by
      have := (List.getElem?_eq_some_iff.mp hi).1
      rw [length_take] at this
      omega
    rw [getElem?_take_of_lt hic, getElem?_drop] at hi
    have hbyte : bitmap.getD (s + i) 0 = b := by rw [getD_eq_getElem?_getD, hi]; rfl
    have hzero : b = 0 := by
      refine BitVec.eq_of_getLsbD_eq fun j hj => ?_
      have hbit := h (8 * (s + i) + j) (by omega) (by omega)
      rw [bitClear_eq, show (8 * (s + i) + j) / 8 = s + i by omega,
        show (8 * (s + i) + j) % 8 = j by omega, hbyte] at hbit
      simpa using hbit
    simp [hzero]

end FrameAllocator

end NopeekOS.Mm
