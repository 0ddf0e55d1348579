import NopeekOS.Lib.Run
import NopeekOS.Mm.FrameSearch

/-!
# The frame allocator over whole runs

The state is the allocator with the frames that are outstanding. From any memory
map and after any sequence of requests, releases of outstanding frames and
reservations, `FrameInv` holds: the count is right, the cursor is below every free
frame and so is no frame beyond the top. From it, what a request answers is the
best window there is (`serve_answers`).
-/

namespace NopeekOS.Mm

open Lib FrameAllocator List
open Finset (mem_Ico mem_sdiff mem_union notMem_empty)

namespace FrameAllocator

variable {a a' : FrameAllocator}

/-! ## The invariant -/

/-- What holds between any two calls. -/
structure FrameInv (a : FrameAllocator) : Prop where
  count : a.freeCount = countClear a.bitmap a.frames
  cursor : ∀ f, a.isFree f = true → a.nextByte ≤ f / 8
  top : ∀ f, a.isFree f = true → f < a.memoryTop
  le : a.memoryTop ≤ a.frames
  bound : a.frames < 2 ^ 64

section

variable (h : FrameInv a)

include h

/-- Fewer free frames keep cursor and top. -/
theorem FrameInv.of_subset (hcount : a'.freeCount = countClear a'.bitmap a'.frames)
    (hframes : a'.frames = a.frames) (htop : a'.memoryTop = a.memoryTop)
    (hnext : a'.nextByte = a.nextByte) (hfree : ∀ f, a'.isFree f = true → a.isFree f = true) :
    FrameInv a' where
  count := hcount
  cursor f hf := hnext ▸ h.cursor f (hfree f hf)
  top f hf := htop ▸ h.top f (hfree f hf)
  le := by rw [htop, hframes]; exact h.le
  bound := hframes ▸ h.bound

/-- The count after a frame became used. -/
theorem FrameInv.count_setBit {f : Nat} (hf : a.isFree f = true) :
    a.freeCount = countClear (setBit a.bitmap f) a.frames + 1 := by
  obtain ⟨hlt, hclear⟩ := isFree_iff.mp hf
  rw [countClear_setBit (div_lt_length hlt) hlt hclear]
  exact h.count

theorem FrameInv.setUsed_eq {x : Nat} (hf : a.isFree x = true) : a.setUsed x =
    { a with bitmap := setBit a.bitmap x, freeCount := a.freeCount - 1 } := by
  obtain ⟨hlt, hclear⟩ := isFree_iff.mp hf
  have hcount := h.count_setBit hf
  rw [FrameAllocator.setUsed, if_neg (Nat.not_le.mpr hlt), if_pos hclear, if_pos (by omega)]

theorem FrameInv.setUsed (x : Nat) : FrameInv (a.setUsed x) := by
  have hsub (f : Nat) (hf : (a.setUsed x).isFree f = true) : a.isFree f = true := by
    rw [isFree_setUsed, Bool.and_eq_true] at hf
    exact hf.1
  by_cases hfree : a.isFree x = true
  · have hcount := h.count_setBit hfree
    have hset := h.setUsed_eq hfree
    refine h.of_subset ?_ (frames_setUsed x) (memoryTop_setUsed x) (by rw [hset]) hsub
    rw [hset]
    simp only [frames, length_setBit] at hcount ⊢
    omega
  · have hsame : a.setUsed x = a := by
      rw [isFree_iff] at hfree
      unfold FrameAllocator.setUsed
      split_ifs <;> first | rfl | (exfalso; exact hfree ⟨by omega, ‹_›⟩)
    rw [hsame]
    exact h

variable {x : Nat}

/-- Freeing a frame below the top. -/
theorem FrameInv.setFree (hx : x < a.memoryTop) : FrameInv (a.setFree x) := by
  have hlt : x < a.frames := Nat.lt_of_lt_of_le hx h.le
  by_cases hclear : bitClear a.bitmap x = true
  · have hsame : a.setFree x = a := by simp [FrameAllocator.setFree, hclear]
    rw [hsame]
    exact h
  · have hset : a.setFree x = { a with
        bitmap := clearBit a.bitmap x
        freeCount := a.freeCount + 1
        nextByte := min a.nextByte (x / 8) } := by
      rw [FrameAllocator.setFree, if_neg (Nat.not_le.mpr hlt), if_pos (by simpa using hclear)]
    refine ⟨?_, fun f hf => ?_, fun f hf => ?_, ?_, ?_⟩
    · rw [hset]
      simp only [frames, length_clearBit]
      rw [← frames.eq_1, countClear_clearBit (div_lt_length hlt) hlt (by simpa using hclear)]
      exact congrArg (· + 1) h.count
    · rw [isFree_setFree, Bool.or_eq_true, decide_eq_true_eq] at hf
      rw [hset]
      rcases hf with hf | ⟨rfl, -⟩
      · exact Nat.le_trans (Nat.min_le_left _ _) (h.cursor f hf)
      · exact Nat.min_le_right _ _
    · rw [isFree_setFree, Bool.or_eq_true, decide_eq_true_eq] at hf
      rw [memoryTop_setFree]
      rcases hf with hf | ⟨rfl, -⟩
      · exact h.top f hf
      · exact hx
    · rw [memoryTop_setFree, frames_setFree]
      exact h.le
    · rw [frames_setFree]
      exact h.bound

/-- Raising the top. -/
theorem FrameInv.raise {top : Nat} (hle : a.memoryTop ≤ top) (htop : top ≤ a.frames) :
    FrameInv { a with memoryTop := top } :=
  ⟨h.count, h.cursor, fun f hf => Nat.lt_of_lt_of_le (h.top f hf) hle, htop, h.bound⟩

theorem FrameInv.freeFrame (hx : x < a.frames) : FrameInv (a.freeFrame x) := by
  unfold FrameAllocator.freeFrame
  dsimp only
  split_ifs with htop
  · -- The same as raising the top first.
    rw [memoryTop_setFree] at htop
    have hraised : FrameInv (FrameAllocator.setFree { a with memoryTop := x + 1 } x) :=
      (h.raise (by omega) (by omega)).setFree (Nat.lt_succ_self x)
    have hswap : FrameAllocator.setFree { a with memoryTop := x + 1 } x =
        { a.setFree x with memoryTop := x + 1 } := by
      unfold FrameAllocator.setFree
      split_ifs <;> first | rfl | contradiction
    rwa [hswap] at hraised
  · rw [memoryTop_setFree] at htop
    exact h.setFree (Nat.not_le.mp htop)

theorem FrameInv.forFrames_setUsed (start last : Nat) :
    FrameInv (a.forFrames FrameAllocator.setUsed start last) :=
  forFrames_induct (fun _ x _ _ hb => hb.setUsed x) h

theorem FrameInv.forFrames_setFree {start last : Nat} (hlast : last ≤ a.memoryTop) :
    FrameInv (a.forFrames FrameAllocator.setFree start last) := by
  refine (forFrames_induct (P := fun b => FrameInv b ∧ b.memoryTop = a.memoryTop)
    (fun b x _ hx hb => ?_) ⟨h, rfl⟩).1
  exact ⟨hb.1.setFree (by omega), (memoryTop_setFree x).trans hb.2⟩

theorem FrameInv.markRegionFree (base length : Nat) :
    FrameInv (a.markRegionFree base length) ∧ (a.markRegionFree base length).frames = a.frames := by
  unfold FrameAllocator.markRegionFree
  split_ifs
  · exact ⟨h, rfl⟩
  · exact forFrames_induct (P := fun b => FrameInv b ∧ b.frames = a.frames)
      (fun b x _ hx hb => ⟨hb.1.freeFrame (by omega), (frames_freeFrame x).trans hb.2⟩) ⟨h, rfl⟩

theorem FrameInv.markRegionUsed (base length : Nat) : FrameInv (a.markRegionUsed base length) := by
  unfold FrameAllocator.markRegionUsed
  split_ifs
  · exact h
  · exact h.forFrames_setUsed _ _

end

/-! ## The initial state -/

theorem bitClear_full (n f : Nat) (hf : f < n * 8) :
    bitClear (replicate n (0xFF : Byte)) f = false := by
  refine bitClear_of_full ?_
  rw [getD_eq_getElem?_getD, getElem?_replicate_of_lt (by omega)]
  rfl

theorem frames_markAllUsed (n : Nat) : (markAllUsed ⟨replicate n 0, 0, 0, 0⟩).frames = n * 8 := by
  rw [markAllUsed, frames, length_replicate, length_replicate]

theorem frameInv_markAllUsed {n : Nat} (hn : n * 8 < 2 ^ 64) :
    FrameInv (markAllUsed ⟨replicate n 0, 0, 0, 0⟩) := by
  have hlen := frames_markAllUsed n
  have hused (f : Nat) : (markAllUsed ⟨replicate n 0, 0, 0, 0⟩).isFree f ≠ true := by
    intro hf
    obtain ⟨hlt, hclear⟩ := isFree_iff.mp hf
    rw [hlen] at hlt
    have hfull := bitClear_full n f hlt
    simp only [markAllUsed, length_replicate] at hclear
    rw [hfull] at hclear
    cases hclear
  refine ⟨?_, fun f hf => absurd hf (hused f), fun f hf => absurd hf (hused f), Nat.zero_le _, ?_⟩
  · symm
    refine countP_eq_zero.mpr fun f hf hclear => hused f ?_
    exact isFree_iff.mpr ⟨mem_range.mp hf, hclear⟩
  · rwa [hlen]

end FrameAllocator

open FrameAllocator

theorem bitmapPlace_lt (regions : List MemoryRegion) : (bitmapPlace regions).1 * 8 < 2 ^ 64 := by
  unfold bitmapPlace
  have hmin := Nat.min_le_right
    (((usableRegions regions).map fun r => r.last / PAGE_SIZE).foldl max 0) MAX_FRAMES
  dsimp only
  split_ifs with hneed
  · split
    · simp only [MAX_FRAMES, IDENTITY_MAX, PAGE_SIZE] at hmin ⊢
      omega
    · decide
  · decide

/-- **The invariant holds after `init`**, for every memory map. -/
theorem frameInv_init (regions : List MemoryRegion) : FrameInv (init regions) := by
  have hstart := frameInv_markAllUsed (bitmapPlace_lt regions)
  unfold init
  rcases hplace : bitmapPlace regions with ⟨len, carved⟩
  rw [hplace] at hstart
  have hfreed : FrameInv ((usableRegions regions).foldl
      (fun a r => if r.length = 0 then a else a.markRegionFree r.physicalStart r.length)
      (markAllUsed ⟨replicate len 0, 0, 0, 0⟩)) := by
    refine foldlRecOn _ _ hstart fun b hb r _ => ?_
    split_ifs
    · exact hb
    · exact (hb.markRegionFree _ _).1
  cases carved with
  | none => exact hfreed.markRegionUsed _ _
  | some place => exact (hfreed.markRegionUsed _ _).markRegionUsed _ _

/-! ## Requests -/

/-- The four kinds of allocation. -/
inductive Request where
  | single
  | below (count limitBytes : Nat)
  | alignedBelow (count align limitBytes : Nat)
  | aligned (count align : Nat)
  deriving DecidableEq, Repr

namespace Request

/-- The function that answers. -/
def serve (a : FrameAllocator) : Request → Option Nat × FrameAllocator
  | .single => a.allocate
  | .below count limitBytes => a.contiguousBelow count limitBytes
  | .alignedBelow count align limitBytes => a.contiguousAlignedBelow count align limitBytes
  | .aligned count align => a.contiguousAligned count align

/-- The number of frames asked for. -/
def count : Request → Nat
  | .single => 1
  | .below count _ => count
  | .alignedBelow count _ _ => count
  | .aligned count _ => count

/-- What the alignment and the limit ask of a window. -/
def Admits : Request → (start : Nat) → Prop
  | .single, _ => True
  | .below count limitBytes, start => 0 < limitBytes → (start + count) * PAGE_SIZE ≤ limitBytes
  | .alignedBelow count align limitBytes, start =>
      align ∣ start ∧ (start + count) * PAGE_SIZE ≤ limitBytes
  | .aligned _ align, start => align ∣ start

/-- The requests that are searched for: at least one frame, an alignment that is a
power of two, and whole bytes where the search is by bytes. -/
def Valid : Request → Prop
  | .single => True
  | .below count _ => 0 < count
  | .alignedBelow count align _ => 0 < count ∧ align.isPowerOfTwo
  | .aligned count align => 0 < count ∧ 8 ∣ count ∧ 8 ≤ align ∧ align.isPowerOfTwo

/-- A window that would do. -/
structure Fits (a : FrameAllocator) (r : Request) (start : Nat) : Prop where
  free : ∀ f, start ≤ f → f < start + r.count → a.isFree f = true
  admits : r.Admits start

/-- The window that is preferred: the lowest for single frames, else the highest. -/
def Best (a : FrameAllocator) : Request → (start : Nat) → Prop
  | .single, start => ∀ s, Fits a .single s → start ≤ s
  | r, start => ∀ s, Fits a r s → s ≤ start

/-- The allocator after a window was taken. -/
structure Took (a : FrameAllocator) (start count : Nat) (a' : FrameAllocator) : Prop where
  inv : FrameInv a'
  top : a'.memoryTop = a.memoryTop
  free : ∀ f, a'.isFree f = true ↔ a.isFree f = true ∧ ¬ (start ≤ f ∧ f < start + count)

/-- The allocator after a refusal. -/
structure Refused (a a' : FrameAllocator) : Prop where
  inv : FrameInv a'
  top : a'.memoryTop = a.memoryTop
  bitmap : a'.bitmap = a.bitmap

/-- What a request answers. -/
def Answers (a : FrameAllocator) (r : Request) : Option Nat × FrameAllocator → Prop
  | (some addr, a') => ∃ start, addr = start * PAGE_SIZE ∧ r.Fits a start ∧ r.Best a start ∧
      Took a start r.count a'
  | (none, a') => (r.Valid → ∀ start, ¬ r.Fits a start) ∧ Refused a a'

end Request

open Request

section

variable {a : FrameAllocator} (h : FrameInv a)

include h

variable {start count : Nat}

/-- A window below the top is clear iff its frames are free. -/
theorem FrameAllocator.FrameInv.clearRun_iff (htop : start + count ≤ a.memoryTop) :
    ClearRun a.bitmap start count ↔ ∀ f, start ≤ f → f < start + count → a.isFree f = true := by
  have hle := h.le
  constructor
  · exact fun hrun f hf hlt => isFree_iff.mpr ⟨by omega, hrun f hf hlt⟩
  · exact fun hfree f hf hlt => (isFree_iff.mp (hfree f hf hlt)).2

variable {r : Request}

/-- A window of free frames lies below the top. -/
theorem FrameAllocator.FrameInv.fits_le (hcount : 0 < r.count) (hfits : r.Fits a start) :
    start + r.count ≤ a.memoryTop := by
  have := h.top (start + r.count - 1) (hfits.free _ (by omega) (by omega))
  omega

theorem FrameAllocator.FrameInv.fits_iff (r : Request) (hcount : 0 < r.count) (s : Nat) :
    r.Fits a s ↔ ClearRun a.bitmap s r.count ∧ s + r.count ≤ a.memoryTop ∧ r.Admits s := by
  constructor
  · intro hs
    have hmem := h.fits_le hcount hs
    exact ⟨(h.clearRun_iff hmem).mpr hs.free, hmem, hs.admits⟩
  · rintro ⟨hrun, hmem, hadmits⟩
    exact ⟨(h.clearRun_iff hmem).mp hrun, hadmits⟩

theorem FrameAllocator.FrameInv.took :
    Took a start count (a.forFrames FrameAllocator.setUsed start (start + count)) := by
  refine ⟨h.forFrames_setUsed _ _, memoryTop_forFrames_setUsed _ _, fun f => ?_⟩
  rw [isFree_forFrames_setUsed, Bool.and_eq_true, decide_eq_true_eq]

theorem FrameAllocator.FrameInv.refused : Refused a a := ⟨h, rfl, rfl⟩

/-- Taking what a search down found, where the windows lie below `top`. -/
theorem answers_take {found : Option Nat} {P Q : Nat → Prop} {top start : Nat}
    (hfits : ∀ s, r.Fits a s ↔ Q s ∧ s + r.count ≤ top)
    (hbest : ∀ s, (∀ s', r.Fits a s' → s' ≤ s) → r.Best a s) (hfound : Highest P start found)
    (hiff : r.count ≤ top → ∀ s, Q s ∧ s + r.count ≤ top ↔ P s ∧ s ≤ start) :
    Answers a r (if top < r.count then (none, a) else a.take r.count found) := by
  split_ifs with hsmall
  · exact ⟨fun _ s hs => by have := ((hfits s).mp hs).2; omega, h.refused⟩
  replace hfits (s : Nat) := (hfits s).trans (hiff (Nat.not_lt.mp hsmall) s)
  cases found with
  | none =>
    refine ⟨fun _ s hs => ?_, h.refused⟩
    obtain ⟨hP, hle⟩ := (hfits s).mp hs
    exact hfound s hP hle
  | some s =>
    obtain ⟨hle, hP, hhigh⟩ := hfound
    refine ⟨s, rfl, (hfits s).mpr ⟨hP, hle⟩, hbest s fun s' hs' => ?_, h.took⟩
    obtain ⟨hP', hle'⟩ := (hfits s').mp hs'
    exact hhigh s' hP' hle'

/-- The lowest clear bit of the first byte that is not full is the lowest free frame. -/
theorem notFull_lowest {n i : Nat} (hbyte : notFull a.bitmap n a.nextByte = some i)
    (hi : i < a.bitmap.length) :
    a.isFree (i * 8 + trailingOnes (a.bitmap.getD i 0)) = true ∧
      ∀ f, a.isFree f = true → i * 8 + trailingOnes (a.bitmap.getD i 0) ≤ f := by
  obtain ⟨-, -, hne, hbefore⟩ := notFull_some hbyte
  obtain ⟨hsmall, hclear, hbelow⟩ := trailingOnes_spec _ hne
  set t := trailingOnes (a.bitmap.getD i 0)
  have hdiv : (i * 8 + t) / 8 = i := by omega
  have hmod : (i * 8 + t) % 8 = t := by omega
  constructor
  · refine isFree_iff.mpr ⟨by unfold frames; omega, ?_⟩
    rw [bitClear_eq, hdiv, hmod, hclear]
    rfl
  · -- No free frame is in the bytes before, nor in the bits before.
    intro f hf
    obtain ⟨-, hfclear⟩ := isFree_iff.mp hf
    by_contra! hlow
    by_cases hfi : f / 8 < i
    · rw [bitClear_of_full (hbefore (f / 8) (h.cursor f hf) hfi)] at hfclear
      cases hfclear
    · have hfi' : f / 8 = i := by omega
      rw [bitClear_eq, hfi', hbelow (f % 8) (by omega)] at hfclear
      cases hfclear

/-- Single frames: the lowest one that is free. -/
theorem allocate_answers : Answers a .single a.allocate := by
  unfold allocate
  dsimp only
  cases hbyte : notFull a.bitmap (min ((a.memoryTop + 7) / 8) a.bitmap.length - a.nextByte)
      a.nextByte with
  | none =>
    -- A free frame would be in one of the full bytes between cursor and top.
    have hused (f : Nat) (hf : a.isFree f = true) : False := by
      obtain ⟨hlt, hclear⟩ := isFree_iff.mp hf
      have hcursor := h.cursor f hf
      have htop := h.top f hf
      have hlen := div_lt_length hlt
      have hfull := notFull_none hbyte hcursor (by omega)
      rw [bitClear_of_full hfull] at hclear
      cases hclear
    refine ⟨fun _ s hs => hused s (hs.free s (Nat.le_refl _) (Nat.lt_succ_self s)), ?_, rfl, rfl⟩
    exact ⟨h.count, fun f hf => (hused f hf).elim, h.top, h.le, h.bound⟩
  | some i =>
    obtain ⟨hge, hlt, -⟩ := notFull_some hbyte
    obtain ⟨hfree, hlowest⟩ := notFull_lowest h hbyte (by omega)
    dsimp only
    generalize trailingOnes (a.bitmap.getD i 0) = t at hfree hlowest ⊢
    rw [if_neg (Nat.not_le.mpr (h.top _ hfree))]
    refine ⟨i * 8 + t, rfl, ⟨fun f hf hf' => ?_, trivial⟩, fun s hs => ?_, ?_⟩
    · have : f = i * 8 + t := Nat.le_antisymm (Nat.lt_succ_iff.mp hf') hf
      exact this ▸ hfree
    · exact hlowest s (hs.free s (Nat.le_refl _) (Nat.lt_succ_self s))
    · have hinv := h.setUsed (i * 8 + t)
      have hiff (f : Nat) : (a.setUsed (i * 8 + t)).isFree f = true ↔
          a.isFree f = true ∧ ¬ (i * 8 + t ≤ f ∧ f < i * 8 + t + 1) := by
        rw [isFree_setUsed, Bool.and_eq_true, decide_eq_true_eq]
        exact and_congr_right fun _ => by omega
      rw [h.setUsed_eq hfree] at hinv hiff
      refine ⟨{ hinv with cursor := fun f hf => ?_ }, rfl, hiff⟩
      have := hlowest f ((hiff f).mp hf).1
      show i ≤ f / 8
      omega

/-- Contiguous frames below a limit: the highest window. -/
theorem contiguousBelow_answers {count : Nat} (hpos : 0 < count) (limitBytes : Nat) :
    Answers a (.below count limitBytes) (a.contiguousBelow count limitBytes) := by
  rw [contiguousBelow, if_neg (Nat.ne_of_gt hpos)]
  set top := if 0 < limitBytes then min (limitBytes / PAGE_SIZE) a.memoryTop else a.memoryTop
    with htop
  have hfits (s : Nat) : Fits a (.below count limitBytes) s ↔
      ClearRun a.bitmap s count ∧ s + count ≤ top := by
    refine (h.fits_iff (.below count limitBytes) hpos s).trans (and_congr_right fun _ => ?_)
    rw [htop]
    split_ifs with hlimit
    · rw [Nat.le_min, Nat.le_div_iff_mul_le (by decide)]
      exact ⟨fun hs => ⟨hs.2 hlimit, hs.1⟩, fun hs => ⟨hs.2, fun _ => hs.1⟩⟩
    · exact ⟨And.left, fun hs => ⟨hs, fun hpos => absurd hpos hlimit⟩⟩
  refine answers_take (r := .below count limitBytes) h hfits (fun s hs => hs)
    (searchBelow_spec a.bitmap count _) fun hle s => and_congr_right fun _ => ?_
  exact (Nat.le_sub_iff_add_le hle).symm

/-- An aligned search down from the top. -/
theorem answers_searchAligned {free : Nat → Bool} {k top : Nat} (hle : top ≤ a.memoryTop)
    (hbest : ∀ s, (∀ s', r.Fits a s' → s' ≤ s) → r.Best a s)
    (hfits : ∀ s, r.Fits a s ↔ (ClearRun a.bitmap s r.count ∧ 2 ^ k ∣ s) ∧ s + r.count ≤ top)
    (hfree : ∀ s, 2 ^ k ∣ s → s + r.count ≤ top → (free s = true ↔ ClearRun a.bitmap s r.count)) :
    Answers a r (if top < r.count then (none, a) else a.take r.count (searchAligned free (2 ^ k)
      (alignDown (top - r.count) (2 ^ k) / 2 ^ k) (alignDown (top - r.count) (2 ^ k)))) := by
  have hbound : top - r.count < 2 ^ 64 := by
    have := h.le
    have := h.bound
    omega
  have hdown := alignDown_le hbound k
  have hdvd : 2 ^ k ∣ alignDown (top - r.count) (2 ^ k) := by
    rw [alignDown_two_pow hbound]
    exact Nat.dvd_mul_left _ _
  refine answers_take h hfits hbest
    (searchAligned_spec (Nat.two_pow_pos k) _ _ hdvd (Nat.le_refl _)) fun hcount s => ?_
  -- A window that fits is a candidate of the search.
  constructor
  · rintro ⟨⟨hrun, hd⟩, htop⟩
    exact ⟨⟨hd, (hfree s hd htop).mpr hrun⟩, le_alignDown hbound hd (by omega)⟩
  · rintro ⟨⟨hd, hsfree⟩, hsle⟩
    have htop : s + r.count ≤ top := by omega
    exact ⟨⟨(hfree s hd htop).mp hsfree, hd⟩, htop⟩

theorem contiguousAlignedBelow_answers {count k : Nat} (hpos : 0 < count) (limitBytes : Nat) :
    Answers a (.alignedBelow count (2 ^ k) limitBytes)
      (a.contiguousAlignedBelow count (2 ^ k) limitBytes) := by
  have hk := Nat.two_pow_pos k
  rw [contiguousAlignedBelow, if_neg (by rintro (h | h | h) <;> first | omega | exact h ⟨k, rfl⟩)]
  have hfits (s : Nat) : Fits a (.alignedBelow count (2 ^ k) limitBytes) s ↔
      (ClearRun a.bitmap s count ∧ 2 ^ k ∣ s) ∧
        s + count ≤ min (limitBytes / PAGE_SIZE) a.memoryTop := by
    rw [Nat.le_min, Nat.le_div_iff_mul_le (by decide), and_assoc]
    refine (h.fits_iff (.alignedBelow count (2 ^ k) limitBytes) hpos s).trans
      (and_congr_right fun _ => ?_)
    exact ⟨fun ⟨hmem, hd, hlimit⟩ => ⟨hd, hlimit, hmem⟩,
      fun ⟨hd, hlimit, hmem⟩ => ⟨hmem, hd, hlimit⟩⟩
  refine answers_searchAligned (r := .alignedBelow count (2 ^ k) limitBytes) h
    (Nat.min_le_right _ _) (fun s hs => hs) hfits fun s _ _ => ?_
  rw [all_eq_true]
  exact ⟨fun hall f hf hlt => hall f (mem_range'_1.mpr ⟨hf, hlt⟩),
    fun hrun f hf => hrun f (mem_range'_1.mp hf).1 (mem_range'_1.mp hf).2⟩

theorem contiguousAligned_answers {count k : Nat} (hpos : 0 < count) (h8 : 8 ∣ count)
    (hal : 8 ≤ 2 ^ k) : Answers a (.aligned count (2 ^ k)) (a.contiguousAligned count (2 ^ k)) := by
  rw [contiguousAligned, if_neg (by rintro (h | h | h | h) <;> first | omega | exact h ⟨k, rfl⟩),
    Nat.min_eq_left h.le]
  -- A power of two from 8 on is a multiple of 8.
  have hk : 8 ∣ 2 ^ k := by
    have hlog : 2 ^ 3 ≤ 2 ^ k := hal
    exact Nat.pow_dvd_pow 2 ((Nat.pow_le_pow_iff_right (by omega)).mp hlog)
  have hfits (s : Nat) : Fits a (.aligned count (2 ^ k)) s ↔
      (ClearRun a.bitmap s count ∧ 2 ^ k ∣ s) ∧ s + count ≤ a.memoryTop := by
    rw [and_assoc]
    exact (h.fits_iff (.aligned count (2 ^ k)) hpos s).trans (and_congr_right fun _ => and_comm)
  refine answers_searchAligned (r := .aligned count (2 ^ k)) h (Nat.le_refl _)
    (fun s hs => hs) hfits fun s hd hs => ?_
  exact bytes_zero_iff (hk.trans hd) h8 (Nat.le_trans hs h.le)

omit h in
/-- A request of another form is refused without a search. -/
theorem serve_invalid (a : FrameAllocator) (h : ¬ r.Valid) : r.serve a = (none, a) := by
  cases r with
  | single => exact absurd trivial h
  | below count limitBytes =>
    rw [serve, contiguousBelow, if_pos (Nat.eq_zero_of_not_pos h)]
  | alignedBelow count align limitBytes =>
    rw [serve, contiguousAlignedBelow, if_pos ?_]
    simp only [Valid] at h
    grind
  | aligned count align =>
    rw [serve, contiguousAligned, if_pos ?_]
    simp only [Valid] at h
    grind

/-- **Every request is answered with the best window**, or refused for want of one. -/
theorem serve_answers (r : Request) : Answers a r (r.serve a) := by
  by_cases hvalid : r.Valid
  · cases r with
    | single => exact allocate_answers h
    | below => exact contiguousBelow_answers h hvalid _
    | alignedBelow =>
      obtain ⟨hpos, k, rfl⟩ := hvalid
      exact contiguousAlignedBelow_answers h hpos _
    | aligned =>
      obtain ⟨hpos, h8, hal, k, rfl⟩ := hvalid
      exact contiguousAligned_answers h hpos h8 hal
  · rw [serve_invalid a hvalid]
    exact ⟨fun hv => absurd hv hvalid, h.refused⟩

end

/-! ## Runs -/

/-- The allocator and the frames that are outstanding. -/
structure Memory where
  alloc : FrameAllocator
  held : Finset Nat

/-- The frames of a window. -/
abbrev window (start count : Nat) : Finset Nat := Finset.Ico start (start + count)

/-- One call. `reserve` is `reserve_region`. -/
inductive MemOp where
  | request (r : Request)
  | deallocate (addr : Nat)
  | deallocateContiguous (base count : Nat)
  | reserve (base length : Nat)

/-- The calls. Only outstanding frames are given back. -/
inductive MemStep : Memory → MemOp → Memory → Prop where
  | served {m : Memory} {r : Request} {addr : Nat} {a : FrameAllocator} :
      r.serve m.alloc = (some addr, a) →
      MemStep m (.request r) ⟨a, m.held ∪ window (addr / PAGE_SIZE) r.count⟩
  | refused {m : Memory} {r : Request} {a : FrameAllocator} :
      r.serve m.alloc = (none, a) → MemStep m (.request r) ⟨a, m.held⟩
  | deallocate {m : Memory} {addr : Nat} : addr / PAGE_SIZE ∈ m.held →
      MemStep m (.deallocate addr) ⟨m.alloc.deallocate addr, m.held.erase (addr / PAGE_SIZE)⟩
  | deallocateContiguous {m : Memory} {base count : Nat} :
      window (base / PAGE_SIZE) count ⊆ m.held →
      MemStep m (.deallocateContiguous base count)
        ⟨m.alloc.deallocateContiguous base count, m.held \ window (base / PAGE_SIZE) count⟩
  | reserve {m : Memory} {base length : Nat} :
      MemStep m (.reserve base length) ⟨m.alloc.markRegionUsed base length, m.held⟩

/-- Outstanding frames are used and below the top. -/
structure MemInv (m : Memory) : Prop where
  alloc : FrameInv m.alloc
  used : ∀ f ∈ m.held, m.alloc.isFree f ≠ true
  below : ∀ f ∈ m.held, f < m.alloc.memoryTop

variable {f : Nat} {a : FrameAllocator}

theorem isFree_markRegionUsed {base length : Nat}
    (hf : (a.markRegionUsed base length).isFree f = true) : a.isFree f = true := by
  unfold markRegionUsed at hf
  split_ifs at hf
  · exact hf
  · rw [isFree_forFrames_setUsed, Bool.and_eq_true] at hf
    exact hf.1

theorem memoryTop_markRegionUsed (a : FrameAllocator) (base length : Nat) :
    (a.markRegionUsed base length).memoryTop = a.memoryTop := by
  unfold markRegionUsed
  split_ifs
  · rfl
  · exact memoryTop_forFrames_setUsed _ _

variable {m : Memory}

/-- A window that was taken was free, and its frames are below the top. -/
theorem MemInv.took (h : MemInv m) {r : Request} {start : Nat}
    (hfits : r.Fits m.alloc start) (htook : Took m.alloc start r.count a) :
    MemInv ⟨a, m.held ∪ window start r.count⟩ := by
  refine ⟨htook.inv, fun f hf hfree => ?_, fun f hf => ?_⟩
  · obtain ⟨hbefore, hout⟩ := (htook.free f).mp hfree
    rcases mem_union.mp hf with hf | hf
    · exact h.used f hf hbefore
    · exact hout (mem_Ico.mp hf)
  · rw [htook.top]
    rcases mem_union.mp hf with hf | hf
    · exact h.below f hf
    · obtain ⟨hle, hlt⟩ := mem_Ico.mp hf
      exact h.alloc.top f (hfits.free f hle hlt)

/-- A window of outstanding frames is given back. -/
theorem MemInv.released (h : MemInv m) {start count : Nat} (hheld : window start count ⊆ m.held) :
    MemInv ⟨m.alloc.forFrames setFree start (start + count), m.held \ window start count⟩ := by
  have hinv : FrameInv (m.alloc.forFrames setFree start (start + count)) := by
    by_cases hzero : count = 0
    · subst hzero
      simpa [forFrames] using h.alloc
    have hlast := h.below (start + count - 1) (hheld (mem_Ico.mpr ⟨by omega, by omega⟩))
    exact h.alloc.forFrames_setFree (by omega)
  refine ⟨hinv, fun f hf hfree => ?_, fun f hf => ?_⟩
  · obtain ⟨hin, hout⟩ := mem_sdiff.mp hf
    rw [isFree_forFrames_of (fun _ x => frames_setFree x) (fun _ x f => isFree_setFree x f),
      Bool.or_eq_true, decide_eq_true_eq] at hfree
    rcases hfree with hfree | hfree
    · exact h.used f hin hfree
    · exact hout (mem_Ico.mpr ⟨hfree.1, hfree.2.1⟩)
  · rw [memoryTop_forFrames_setFree]
    exact h.below f (mem_sdiff.mp hf).1

/-- One call keeps the invariant. -/
theorem memInv_step {m' : Memory} {op : MemOp} (h : MemInv m) (hstep : MemStep m op m') :
    MemInv m' := by
  cases hstep with
  | served hserve =>
    rename_i r addr a
    have hans := serve_answers h.alloc r
    rw [hserve] at hans
    obtain ⟨start, rfl, hfits, -, htook⟩ := hans
    rw [Nat.mul_div_cancel _ (by decide)]
    exact h.took hfits htook
  | refused hserve =>
    rename_i r a
    have hans := serve_answers h.alloc r
    rw [hserve] at hans
    obtain ⟨-, hrefused⟩ := hans
    have hfree (f : Nat) : a.isFree f = m.alloc.isFree f := by
      have hframes : a.frames = m.alloc.frames :=
        congrArg (fun bitmap => bitmap.length * 8) hrefused.bitmap
      rw [Bool.eq_iff_iff, isFree_iff, isFree_iff, hframes, hrefused.bitmap]
    exact ⟨hrefused.inv, fun f hf => by rw [hfree]; exact h.used f hf,
      fun f hf => hrefused.top.symm ▸ h.below f hf⟩
  | deallocate hheld =>
    have hone : ∀ x, window x 1 = {x} := Nat.Ico_succ_singleton
    have hreleased := h.released (hone _ ▸ Finset.singleton_subset_iff.mpr hheld : window _ 1 ⊆ _)
    simpa [hone, Finset.sdiff_singleton_eq_erase, forFrames, deallocate] using hreleased
  | deallocateContiguous hheld => exact h.released hheld
  | reserve =>
    rename_i base length
    refine ⟨h.alloc.markRegionUsed base length, fun f hf hfree => ?_, fun f hf => ?_⟩
    · exact h.used f hf (isFree_markRegionUsed hfree)
    · rw [memoryTop_markRegionUsed]
      exact h.below f hf

/-- The memory after `init`. -/
def Memory.start (regions : List MemoryRegion) : Memory := ⟨init regions, ∅⟩

variable {regions : List MemoryRegion}

theorem memInv_run {ops : List MemOp} (hrun : Run MemStep (.start regions) ops m) : MemInv m := by
  refine hrun.invariant (fun _ _ _ h hstep => memInv_step h hstep) ?_
  exact ⟨frameInv_init regions, fun f hf => absurd hf (notMem_empty f),
    fun f hf => absurd hf (notMem_empty f)⟩

/-- **The frame allocator is right over every run**: the count is the number of
free frames, the cursor is below all of them, and whatever is asked next, the answer
is a window of free frames, none of them outstanding, and the best one; a request
of a proper form is refused only if there is none, and one of another form always. -/
theorem frame_allocator_run (regions : List MemoryRegion) (ops : List MemOp) (m : Memory)
    (hrun : Run MemStep (.start regions) ops m) :
    m.alloc.freeCount = countClear m.alloc.bitmap m.alloc.frames ∧
    (∀ f, m.alloc.isFree f = true → m.alloc.nextByte ≤ f / 8 ∧ f < m.alloc.memoryTop) ∧
    (∀ r : Request, ¬ r.Valid → (r.serve m.alloc).1 = none) ∧
    ∀ r : Request, match (r.serve m.alloc).1 with
      | some addr => ∃ start, addr = start * PAGE_SIZE ∧ r.Fits m.alloc start ∧
          r.Best m.alloc start ∧ Disjoint m.held (window start r.count)
      | none => r.Valid → ∀ start, ¬ r.Fits m.alloc start := by
  have hinv := memInv_run hrun
  refine ⟨hinv.alloc.count, fun f hf => ⟨hinv.alloc.cursor f hf, hinv.alloc.top f hf⟩,
    fun r hr => congrArg Prod.fst (serve_invalid m.alloc hr), fun r => ?_⟩
  have hans := serve_answers hinv.alloc r
  rcases hserve : r.serve m.alloc with ⟨_ | addr, a⟩ <;> rw [hserve] at hans
  · exact hans.1
  obtain ⟨start, haddr, hfits, hbest, -⟩ := hans
  refine ⟨start, haddr, hfits, hbest, Finset.disjoint_left.mpr fun f hf hwin => ?_⟩
  obtain ⟨hle, hlt⟩ := mem_Ico.mp hwin
  exact hinv.used f hf (hfits.free f hle hlt)

/-- One region of eight pages at 1 MiB. -/
def eightPages : List MemoryRegion := [⟨0x100000, 8, UEFI_CONVENTIONAL_MEMORY⟩]

theorem isFree_eightPages (hf : 256 ≤ f) (hf' : f < 264) : (init eightPages).isFree f = true := by
  have husable : usableRegions eightPages = eightPages := by decide
  have hlength : MemoryRegion.length ⟨0x100000, 8, UEFI_CONVENTIONAL_MEMORY⟩ = 0x8000 := by decide
  obtain ⟨len, hlen, hplace⟩ : ∃ len, 33 ≤ len ∧ bitmapPlace eightPages = (len, none) :=
    ⟨STATIC_FRAMES / 8, by decide, by decide⟩
  have hframes := frames_markAllUsed len
  have hbound : f < len * 8 := by omega
  -- The static bitmap suffices.
  rw [init, hplace]
  dsimp only
  rw [husable, eightPages, foldl_cons, foldl_nil, hlength, if_neg (by decide)]
  generalize markAllUsed ⟨replicate len 0, 0, 0, 0⟩ = a at hframes ⊢
  have hfree : (a.markRegionFree 0x100000 0x8000).isFree f = true := by
    have hstart : (0x100000 + PAGE_SIZE - 1) % 2 ^ 64 / PAGE_SIZE = 256 := by simp [PAGE_SIZE]
    have hlast : (0x100000 + 0x8000) % 2 ^ 64 / PAGE_SIZE = 264 := by simp [PAGE_SIZE]
    rw [markRegionFree, if_neg (by decide), hstart, hlast,
      isFree_forFrames_of (fun _ x => frames_freeFrame x) (fun _ x f => isFree_freeFrame x f),
      hframes, Bool.or_eq_true, decide_eq_true_eq]
    exact .inr ⟨hf, Nat.lt_min.mpr ⟨hf', hbound⟩, hbound⟩
  have hlow : (0 + 0x100000 + PAGE_SIZE - 1) % 2 ^ 64 / PAGE_SIZE = 256 := by simp [PAGE_SIZE]
  rw [markRegionUsed, if_neg (by decide), hlow, isFree_forFrames_setUsed, Bool.and_eq_true,
    decide_eq_true_eq]
  refine ⟨hfree, fun hin => ?_⟩
  have := Nat.lt_of_lt_of_le hin.2 (Nat.min_le_left _ _)
  omega

/-- On eight pages a frame and then two more are handed out, the first is given back, and four
frames at a multiple of eight are refused. -/
theorem frame_allocator_run_eightPages : ∃ addr addr' m, Run MemStep (.start eightPages)
      [.request .single, .request (.below 2 0), .deallocate addr, .request (.aligned 4 8)] m ∧
    addr / PAGE_SIZE ∉ window (addr' / PAGE_SIZE) 2 ∧
    m.alloc.freeCount = countClear m.alloc.bitmap m.alloc.frames ∧
    ((Request.aligned 4 8).serve m.alloc).1 = none := by
  have hfree := @isFree_eightPages
  have hinv := frameInv_init eightPages
  have hstart : Memory.start eightPages = ⟨init eightPages, ∅⟩ := rfl
  generalize init eightPages = a₀ at hfree hinv hstart
  have hans := serve_answers hinv .single
  have hfits : Fits a₀ .single 256 :=
    ⟨fun f hf hf' => hfree hf (Nat.lt_of_lt_of_le hf' (by decide)), trivial⟩
  rcases hfirst : serve a₀ .single with ⟨_ | addr, a⟩ <;> rw [hfirst] at hans
  · exact absurd hfits (hans.1 trivial 256)
  obtain ⟨start, rfl, -, hbest, htook⟩ := hans
  have hlow : start ≤ 256 := hbest 256 hfits
  have hrun := Run.single (MemStep.served (m := ⟨a₀, ∅⟩) hfirst)
  rw [← hstart] at hrun
  -- The frames above the first one are still free.
  have hans := (frame_allocator_run _ _ _ hrun).2.2.2 (.below 2 0)
  dsimp only at hans
  rcases hsecond : serve a (.below 2 0) with ⟨_ | addr', a'⟩ <;> rw [hsecond] at hans
  · refine absurd ⟨fun f hf hf' => ?_, nofun⟩ (hans (by decide : 0 < 2) 257)
    have hf' : f < 259 := hf'
    exact (htook.free f).mpr ⟨hfree (by omega) (by omega), by simp only [Request.count]; omega⟩
  obtain ⟨start', rfl, -, -, hdisj⟩ := hans
  have hheld : start * PAGE_SIZE / PAGE_SIZE ∈ (Memory.start eightPages).held ∪
      window (start * PAGE_SIZE / PAGE_SIZE) 1 :=
    mem_union.mpr (.inr (mem_Ico.mpr ⟨Nat.le_refl _, Nat.lt_succ_self _⟩))
  have hrefused (b : FrameAllocator) : serve b (.aligned 4 8) = (none, b) :=
    serve_invalid b fun h => absurd h.2.1 (by decide)
  have hrun := ((hrun.snoc (.served hsecond)).snoc (@MemStep.deallocate _ (start * PAGE_SIZE)
    (mem_union.mpr (.inl hheld)))).snoc (.refused (hrefused _))
  obtain ⟨hcount, -, hinvalid, -⟩ := frame_allocator_run _ _ _ hrun
  refine ⟨_, start' * PAGE_SIZE, _, hrun, ?_, hcount, hinvalid _ fun h => absurd h.2.1 (by decide)⟩
  rw [Nat.mul_div_cancel start' (by decide)]
  exact Finset.disjoint_left.mp hdisj hheld

/-- Four frames at a multiple of eight are refused although there are some: the
search by bytes takes whole bytes only. -/
theorem aligned_refuses_half_bytes : (Request.aligned 4 8).Fits (init eightPages) 256 ∧
    ((Request.aligned 4 8).serve (init eightPages)).1 = none := by
  refine ⟨⟨fun f hf hlt => ?_, ⟨32, rfl⟩⟩, ?_⟩
  · have hcount : f < 256 + 4 := hlt
    exact isFree_eightPages hf (by omega)
  · rw [serve_invalid _ (r := .aligned 4 8) fun h => absurd h.2.1 (by decide)]

end NopeekOS.Mm
