import NopeekOS.Lib.Run
import NopeekOS.Storage.Bitmap

/-!
# Invariants of the block bitmap

`Bitmap.Inv` is what every bitmap keeps: the free counter counts the zero bits,
metadata blocks are used, the cursor stays in the data area, pending TRIM ranges
lie in it. `OnDisk` ties the bitmap to its blocks on disk: a block that is not
flagged dirty holds what memory holds.

Each loop of the source has one lemma that says what it does to every bit
(`useBlocks_bit`, `clearBlocks_bit`, `findRunLoop_some`, `findRunLoop_none`);
`alloc`, `free` and `sync` are specified from those, and the invariants follow
for whole runs.
-/

namespace NopeekOS.Storage

open Lib Function List Bitmap

namespace Bitmap

/-- Block `b` is free. -/
abbrev isFree (bm : Bitmap) (b : Nat) : Bool := bitClear bm.data b

/-- The invariant of the in-memory bitmap. -/
structure Inv (bm : Bitmap) : Prop where
  size : bm.data.length = bm.geo.byteCount
  dirtySize : bm.dirtyBlocks.length = bm.geo.bitmapCount
  metaUsed : ∀ b, b < bm.geo.dataStart → bm.isFree b = false
  count : bm.freeCount = countClear bm.data bm.geo.totalBlocks
  cursor_ge : bm.geo.dataStart ≤ bm.allocCursor
  cursor_le : bm.allocCursor ≤ bm.geo.totalBlocks
  pending : ∀ r ∈ bm.trimPending,
    0 < r.2 ∧ bm.geo.dataStart ≤ r.1 ∧ r.1 + r.2 ≤ bm.geo.totalBlocks
  flags : bm.dirty = false → ∀ i : Nat, bm.dirtyBlocks[i]? ≠ some true

variable {bm : Bitmap} {fails : Nat → Option FsError}

/-- The byte of every block of the disk is in memory: no access of the source
is out of bounds. -/
theorem Inv.byte_lt (h : bm.Inv) {b : Nat} (hb : b < bm.geo.totalBlocks) :
    b / 8 < bm.data.length := by
  rw [h.size]
  exact bm.geo.div_lt_byteCount hb

/-! ## The search of `find_run` -/

theorem runStartAt_eq {b runStart runLen : Nat} (h : 0 < runLen → runStart + runLen = b)
    (hle : runLen ≤ b) : runStartAt b runStart runLen = b - runLen := by
  unfold runStartAt
  split_ifs with h0
  · omega
  · have := h (by omega)
    omega

variable {data : List Byte} {count : Nat}

/-- A run that is found lies in the searched range and is free. The blocks from
`runStart` to `b` are the free run the loop is in. -/
theorem findRunLoop_some :
    ∀ {n b runStart runLen s : Nat}, findRunLoop data count n b runStart runLen = some s →
      (0 < runLen → runStart + runLen = b) →
      (∀ k, b - runLen ≤ k → k < b → bitClear data k = true) → runLen ≤ b →
      b - runLen ≤ s ∧ s + count ≤ b + n ∧ ∀ k, s ≤ k → k < s + count → bitClear data k = true
  | n + 1, b, runStart, runLen, s, h, hrun, hfree, hle => by
    have hstart := runStartAt_eq hrun hle
    rw [findRunLoop] at h
    split_ifs at h with hb hcount
    · -- the run is complete with block `b`
      obtain rfl := Option.some.inj h
      rw [hstart]
      refine ⟨Nat.le_refl _, by omega, fun k hk hk' => ?_⟩
      by_cases hkb : k = b
      · rw [hkb]; exact hb
      · exact hfree k hk (by omega)
    · have hfree' : ∀ k, b + 1 - (runLen + 1) ≤ k → k < b + 1 → bitClear data k = true := by
        intro k hk hk'
        by_cases hkb : k = b
        · rw [hkb]; exact hb
        · exact hfree k (by omega) (by omega)
      obtain ⟨h1, h2, h3⟩ := findRunLoop_some h (by omega) hfree' (by omega)
      exact ⟨by omega, by omega, h3⟩
    · obtain ⟨h1, h2, h3⟩ := findRunLoop_some h (by omega) (by omega) (by omega)
      exact ⟨by omega, by omega, h3⟩

/-- If nothing is found, no run of `count` free blocks lies in what was left to
search, the run the loop is in included. -/
theorem findRunLoop_none :
    ∀ {n b runStart runLen : Nat}, findRunLoop data count n b runStart runLen = none →
      runLen < count → runLen ≤ b →
      ∀ s, b - runLen ≤ s → s + count ≤ b + n → ∃ k, s ≤ k ∧ k < s + count ∧ bitClear data k = false
  | 0, b, runStart, runLen, _, hlt, hle, s, hs, hend => by omega
  | n + 1, b, runStart, runLen, h, hlt, hle, s, hs, hend => by
    rw [findRunLoop] at h
    split_ifs at h with hb hcount
    · exact findRunLoop_none h (by omega) (by omega) s (by omega) (by omega)
    -- block `b` is used: a run from before it would contain it
    by_cases hsb : s ≤ b
    · exact ⟨b, hsb, by omega, by simpa using hb⟩
    · exact findRunLoop_none h (by omega) (by omega) s (by omega) (by omega)

/-! ## Marking and clearing runs -/

theorem useBlocks_length : ∀ (n : Nat) (s : List Byte × List Bool) (start : Nat),
    (useBlocks s start n).1.length = s.1.length ∧ (useBlocks s start n).2.length = s.2.length
  | 0, s, start => ⟨rfl, rfl⟩
  | n + 1, s, start => by
    obtain ⟨h1, h2⟩ := useBlocks_length n (setBit s.1 start, markBlockDirty s.2 start) (start + 1)
    exact ⟨by rw [useBlocks, h1]; simp, by rw [useBlocks, h2]; simp [markBlockDirty]⟩

theorem useBlocks_bit : ∀ (n : Nat) (s : List Byte × List Bool) (start : Nat),
    (∀ b, b < start + n → b / 8 < s.1.length) → ∀ m,
      bitClear (useBlocks s start n).1 m =
        (bitClear s.1 m && decide (¬ (start ≤ m ∧ m < start + n)))
  | 0, s, start, _, m => by
    simp [useBlocks]
  | n + 1, s, start, hlen, m => by
    rw [useBlocks, useBlocks_bit n _ (start + 1) (by intro b hb; simpa using hlen b (by omega)),
      bitClear_setBit (hlen start (by omega))]
    by_cases hm : m = start
    · simp [hm]
    · have : (start + 1 ≤ m ∧ m < start + 1 + n) ↔ (start ≤ m ∧ m < start + (n + 1)) := by omega
      simp only [this, hm, ne_eq, not_false_eq_true, decide_true, Bool.and_true]

theorem useBlocks_count : ∀ (n : Nat) (s : List Byte × List Bool) (start total : Nat),
    (∀ b, b < total → b / 8 < s.1.length) → start + n ≤ total →
      (∀ b, start ≤ b → b < start + n → bitClear s.1 b = true) →
      countClear (useBlocks s start n).1 total + n = countClear s.1 total
  | 0, s, start, total, _, _, _ => rfl
  | n + 1, s, start, total, hlen, hle, hfree => by
    have hstart : start / 8 < s.1.length := hlen start (by omega)
    have ih := useBlocks_count n (setBit s.1 start, markBlockDirty s.2 start) (start + 1) total
      (by intro b hb; simpa using hlen b hb) (by omega) (by
        intro b hb hb'
        rw [bitClear_setBit hstart]
        simp [hfree b (by omega) (by omega), show b ≠ start by omega])
    have hone := countClear_setBit hstart (by omega : start < total)
      (hfree start (Nat.le_refl _) (by omega))
    rw [useBlocks]
    simp only at ih
    omega

variable {total : Nat}

/-- What clearing one used block keeps, the loop keeps. -/
theorem clearBlocks_induct {P : List Byte × List Bool × Nat → Prop}
    (hstep : ∀ data dirty free b, b < total ∧ bitClear data b = false → P (data, dirty, free) →
      P (clearBit data b, markBlockDirty dirty b, free + 1)) :
    ∀ (n : Nat) (s : List Byte × List Bool × Nat) (start : Nat), P s → P (clearBlocks total s start n)
  | 0, _, _, h => h
  | n + 1, (data, dirty, free), start, h => by
    rw [clearBlocks]
    split_ifs with hc
    · exact clearBlocks_induct hstep n _ _ (hstep data dirty free start hc h)
    · exact clearBlocks_induct hstep n _ _ h

theorem clearBlocks_length (n : Nat) (s : List Byte × List Bool × Nat) (start : Nat) :
    (clearBlocks total s start n).1.length = s.1.length ∧
      (clearBlocks total s start n).2.1.length = s.2.1.length := by
  refine clearBlocks_induct (P := fun r => r.1.length = s.1.length ∧ r.2.1.length = s.2.1.length)
    (fun data dirty free b _ h => ?_) n s start ⟨rfl, rfl⟩
  simpa [markBlockDirty] using h

theorem clearBlocks_bit : ∀ (n : Nat) (s : List Byte × List Bool × Nat)
    (start : Nat), (∀ b, b < total → b / 8 < s.1.length) → start + n ≤ total → ∀ m,
      bitClear (clearBlocks total s start n).1 m =
        (bitClear s.1 m || decide (start ≤ m ∧ m < start + n))
  | 0, s, start, _, _, m => by
    simp [clearBlocks]
  | n + 1, (data, dirty, free), start, hlen, hle, m => by
    have hrest : m ≠ start → decide (start + 1 ≤ m ∧ m < start + 1 + n) =
        decide (start ≤ m ∧ m < start + (n + 1)) := by
      intro hm
      rw [decide_eq_decide]
      omega
    rw [clearBlocks]
    split_ifs with h
    · rw [clearBlocks_bit n _ (start + 1) (by intro b hb; simpa using hlen b hb) (by omega),
        bitClear_clearBit (hlen start h.1)]
      by_cases hm : m = start
      · simp [hm]
      · rw [hrest hm]
        simp [hm]
    · rw [clearBlocks_bit n _ (start + 1) hlen (by omega)]
      by_cases hm : m = start
      · -- a bit that was clear before
        have hclear : bitClear data start = true := by
          have hlt : start < total := by omega
          simpa [hlt] using h
        simp [hm, hclear]
      · rw [hrest hm]

theorem clearBlocks_count (n : Nat) (s : List Byte × List Bool × Nat) (start : Nat)
    (hlen : ∀ b, b < total → b / 8 < s.1.length) (hs : s.2.2 = countClear s.1 total) :
    (clearBlocks total s start n).2.2 = countClear (clearBlocks total s start n).1 total := by
  refine (clearBlocks_induct
    (P := fun r => r.1.length = s.1.length ∧ r.2.2 = countClear r.1 total)
    (fun data dirty free b hb h => ⟨(length_clearBit ..).trans h.1, ?_⟩) n s start ⟨rfl, hs⟩).2
  rw [countClear_clearBit (h.1 ▸ hlen b hb.1) hb.1 hb.2, ← h.2]

/-! ## What `alloc` and `free` do -/

variable {bm' : Bitmap} {s : Nat}

/-- The blocks of `find_run`'s run were free and inside the searched range. -/
theorem findRun_some {lo hi : Nat} (h : bm.findRun lo hi count = some (s, bm')) :
    lo ≤ s ∧ s + count ≤ max lo hi ∧ (∀ k, s ≤ k → k < s + count → bm.isFree k = true) ∧
      bm' = bm.takeRun s count := by
  obtain ⟨start, hs, heq⟩ := Option.map_eq_some_iff.mp h
  obtain ⟨rfl, rfl⟩ := Prod.mk.inj heq
  obtain ⟨h1, h2, h3⟩ := findRunLoop_some hs (by omega) (by omega) (by omega)
  exact ⟨by omega, by omega, h3, rfl⟩

theorem findRun_none {lo hi : Nat} (hcount : 0 < count) (h : bm.findRun lo hi count = none)
    (hlo : lo ≤ s) (hhi : s + count ≤ hi) : ∃ k, s ≤ k ∧ k < s + count ∧ bm.isFree k = false :=
  findRunLoop_none (Option.map_eq_none_iff.mp h) hcount (by omega) s (by omega) (by omega)

/-- **`alloc` returns free blocks of the data area** and takes exactly those. -/
theorem alloc_ok (hinv : bm.Inv) (h : bm.alloc count = .ok (s, bm')) :
    0 < count ∧ count ≤ bm.freeCount ∧ bm.geo.dataStart ≤ s ∧ s + count ≤ bm.geo.totalBlocks ∧
      (∀ k, s ≤ k → k < s + count → bm.isFree k = true) ∧ bm' = bm.takeRun s count := by
  have hge := hinv.cursor_ge
  have hle := hinv.cursor_le
  unfold alloc at h
  split at h
  · cases h
  suffices hfound : ∃ lo hi, bm.geo.dataStart ≤ lo ∧ max lo hi ≤ bm.geo.totalBlocks ∧
      bm.findRun lo hi count = some (s, bm') by
    obtain ⟨lo, hi, hlo, hhi, hf⟩ := hfound
    obtain ⟨h1, h2, h3, h4⟩ := findRun_some hf
    exact ⟨by omega, by omega, by omega, by omega, h3, h4⟩
  cases hf : bm.findRun bm.allocCursor bm.geo.totalBlocks count with
  | some r =>
    rw [hf] at h
    cases h
    exact ⟨_, _, hge, by omega, hf⟩
  | none =>
    rw [hf] at h
    split_ifs at h
    cases hf' : bm.findRun bm.geo.dataStart bm.allocCursor count with
    | some r =>
      rw [hf'] at h
      cases h
      exact ⟨_, _, Nat.le_refl _, by omega, hf'⟩
    | none => rw [hf'] at h; cases h

/-- `alloc` fails only without a run of free blocks on one side of the cursor. -/
theorem alloc_error {e : FsError} (h : bm.alloc count = .error e) (hcount : 0 < count)
    (hfree : count ≤ bm.freeCount) (hside : bm.allocCursor ≤ s ∧ s + count ≤ bm.geo.totalBlocks ∨
      bm.geo.dataStart ≤ s ∧ s + count ≤ bm.allocCursor) :
    ∃ k, s ≤ k ∧ k < s + count ∧ bm.isFree k = false := by
  unfold alloc at h
  rw [if_neg (by omega)] at h
  cases hf : bm.findRun bm.allocCursor bm.geo.totalBlocks count with
  | some r => rw [hf] at h; cases h
  | none =>
    rw [hf] at h
    rcases hside with ⟨h1, h2⟩ | ⟨h1, h2⟩
    · exact findRun_none hcount hf h1 h2
    rw [if_pos (by omega)] at h
    cases hf' : bm.findRun bm.geo.dataStart bm.allocCursor count with
    | some r => rw [hf'] at h; cases h
    | none => exact findRun_none hcount hf' h1 h2

/-- A single block is found as long as one is free. -/
theorem alloc_one (hinv : bm.Inv) (hfree : 0 < bm.freeCount) : ∃ r, bm.alloc 1 = .ok r := by
  cases h : bm.alloc 1 with
  | ok r => exact ⟨r, rfl⟩
  | error e =>
    rw [hinv.count] at hfree
    obtain ⟨n, hn, hclear⟩ := exists_clear_of_countClear_pos hfree
    have hdata : bm.geo.dataStart ≤ n := by
      by_contra hlt
      have := hinv.metaUsed n (by omega)
      rw [isFree, hclear] at this
      cases this
    obtain ⟨k, h1, h2, h3⟩ := alloc_error h Nat.one_pos (by rw [hinv.count]; omega)
      (s := n) (by omega)
    obtain rfl : k = n := by omega
    rw [isFree, hclear] at h3
    cases h3

theorem takeRun_isFree (hinv : bm.Inv) (hle : s + count ≤ bm.geo.totalBlocks) (m : Nat) :
    (bm.takeRun s count).isFree m = (bm.isFree m && decide (¬ (s ≤ m ∧ m < s + count))) :=
  useBlocks_bit count _ s (fun _ hb => hinv.byte_lt (by omega)) m

/-- Taking a free run keeps the invariant. -/
theorem Inv.takeRun (hinv : bm.Inv) (hlo : bm.geo.dataStart ≤ s)
    (hle : s + count ≤ bm.geo.totalBlocks)
    (hfree : ∀ k, s ≤ k → k < s + count → bm.isFree k = true) :
    (bm.takeRun s count).Inv where
  size := (useBlocks_length _ _ _).1.trans hinv.size
  dirtySize := (useBlocks_length _ _ _).2.trans hinv.dirtySize
  metaUsed := by
    intro b hb
    rw [takeRun_isFree hinv hle, hinv.metaUsed b hb, Bool.false_and]
  count := by
    have := useBlocks_count count (bm.data, bm.dirtyBlocks) s bm.geo.totalBlocks
      (fun _ hb => hinv.byte_lt hb) hle hfree
    show bm.freeCount - count =
      countClear (useBlocks (bm.data, bm.dirtyBlocks) s count).1 bm.geo.totalBlocks
    rw [hinv.count]
    exact Nat.sub_eq_of_eq_add this.symm
  cursor_ge := by
    show bm.geo.dataStart ≤ if bm.geo.totalBlocks ≤ s + count then bm.geo.dataStart else s + count
    split_ifs <;> omega
  cursor_le := by
    have := bm.geo.data_le
    show (if bm.geo.totalBlocks ≤ s + count then bm.geo.dataStart else s + count) ≤
      bm.geo.totalBlocks
    split_ifs <;> omega
  pending := hinv.pending
  flags := fun h => Bool.noConfusion h

theorem Inv.alloc (hinv : bm.Inv) (h : bm.alloc count = .ok (s, bm')) : bm'.Inv := by
  obtain ⟨-, -, hlo, hle, hfree, rfl⟩ := alloc_ok hinv h
  exact hinv.takeRun hlo hle hfree

@[simp] theorem free_geo (bm : Bitmap) (start count : Nat) :
    (bm.free start count).geo = bm.geo := by
  unfold free
  split_ifs <;> rfl

variable {start : Nat}

theorem freeRange_isFree (hinv : bm.Inv) (hle : start + count ≤ bm.geo.totalBlocks) (m : Nat) :
    (bm.freeRange start count).isFree m = (bm.isFree m || decide (start ≤ m ∧ m < start + count)) :=
  clearBlocks_bit count _ start (fun _ hb => hinv.byte_lt hb) hle m

/-- `free` clears the range if it lies in the data area and nothing else. -/
theorem free_isFree (hinv : bm.Inv) (start count m : Nat) : (bm.free start count).isFree m =
      (bm.isFree m || decide (bm.geo.dataStart ≤ start ∧ start + count ≤ bm.geo.totalBlocks ∧
        start ≤ m ∧ m < start + count)) := by
  have hlt := bm.geo.total_lt
  unfold free
  split_ifs with h
  · rw [freeRange_isFree hinv h.2.2]
    simp only [h.2, true_and]
  · have : ¬ (bm.geo.dataStart ≤ start ∧ start + count ≤ bm.geo.totalBlocks ∧
        start ≤ m ∧ m < start + count) := by omega
    simp [this]

theorem Inv.freeRange (hinv : bm.Inv) (hlo : bm.geo.dataStart ≤ start)
    (hle : start + count ≤ bm.geo.totalBlocks) : (bm.freeRange start count).Inv where
  size := (clearBlocks_length _ _ _).1.trans hinv.size
  dirtySize := (clearBlocks_length _ _ _).2.trans hinv.dirtySize
  metaUsed := by
    intro b hb
    have hb' : b < bm.geo.dataStart := hb
    rw [freeRange_isFree hinv hle, hinv.metaUsed b hb]
    simp [show ¬ start ≤ b by omega]
  count := clearBlocks_count count _ start (fun _ hb => hinv.byte_lt hb) hinv.count
  cursor_ge := hinv.cursor_ge
  cursor_le := hinv.cursor_le
  pending := by
    simp only [Bitmap.freeRange]
    split_ifs with hcount
    · exact forall_mem_append.mpr ⟨hinv.pending, forall_mem_singleton.mpr ⟨hcount, hlo, hle⟩⟩
    · exact hinv.pending
  flags := by
    simp only [Bitmap.freeRange]
    split_ifs with hcount
    · rintro ⟨⟩
    · obtain rfl : count = 0 := by omega
      exact hinv.flags

theorem Inv.free (hinv : bm.Inv) (start count : Nat) : (bm.free start count).Inv := by
  unfold Bitmap.free
  by_cases h : start + count < 2 ^ 64 ∧ bm.geo.dataStart ≤ start ∧
      start + count ≤ bm.geo.totalBlocks
  · rw [if_pos h]
    exact hinv.freeRange h.2.1 h.2.2
  · rw [if_neg h]
    exact hinv

/-! ## The bitmap blocks on disk -/

/-- The disk holds the bytes of every bitmap block that is not flagged dirty. -/
def CleanOk (start : Nat) (disk : Disk) (data : List Byte) (flags : List Bool) : Prop :=
  ∀ i, flags[i]? = some false → ∀ k, k / BLOCK_SIZE = i → k < data.length →
    disk (start + i) (k % BLOCK_SIZE) = data.getD k 0

variable {disk : Disk}

/-- A byte may change if its bitmap block is flagged. -/
theorem CleanOk.modify {flags : List Bool} (h : CleanOk start disk data flags) (b : Nat)
    (f : Byte → Byte) : CleanOk start disk (data.modify (b / 8) f) (markBlockDirty flags b) := by
  intro i hi k hk hlt
  have hne : b / 8 / BLOCK_SIZE ≠ i := by
    rintro rfl
    simp only [markBlockDirty, getElem?_set_self'] at hi
    cases hf : flags[b / 8 / BLOCK_SIZE]? with
    | none => rw [hf] at hi; cases hi
    | some x => rw [hf] at hi; cases hi
  have hi' : flags[i]? = some false := by
    rwa [markBlockDirty, getElem?_set_ne hne] at hi
  have hkb : k ≠ b / 8 := fun heq => hne (by rw [← hk, heq])
  rw [getD_modify_of_ne hkb]
  exact h i hi' k hk (by simpa using hlt)

theorem CleanOk.useBlocks :
    ∀ (n : Nat) (s : List Byte × List Bool) (b : Nat), CleanOk start disk s.1 s.2 →
      CleanOk start disk (useBlocks s b n).1 (useBlocks s b n).2
  | 0, _, _, h => h
  | n + 1, _, b, h => CleanOk.useBlocks n _ (b + 1) (h.modify b _)

/-- The bitmap agrees with its clean blocks on disk. -/
def OnDisk (bm : Bitmap) (disk : Disk) : Prop :=
  CleanOk bm.geo.bitmapStart disk bm.data bm.dirtyBlocks

/-- The whole bitmap is on disk. -/
def AllOnDisk (bm : Bitmap) (disk : Disk) : Prop :=
  ∀ k, k < bm.geo.byteCount →
    disk (bm.geo.bitmapStart + k / BLOCK_SIZE) (k % BLOCK_SIZE) = bm.data.getD k 0

theorem OnDisk.free (h : bm.OnDisk disk) (start count : Nat) :
    (bm.free start count).OnDisk disk := by
  unfold Bitmap.free
  split_ifs with hguard
  · exact clearBlocks_induct (P := fun r => CleanOk bm.geo.bitmapStart disk r.1 r.2.1)
      (fun _ _ _ b _ h => h.modify b _) _ _ _ h
  · exact h

theorem OnDisk.takeRun (h : bm.OnDisk disk) (start count : Nat) :
    (bm.takeRun start count).OnDisk disk :=
  CleanOk.useBlocks count (bm.data, bm.dirtyBlocks) start h

/-- Writing bitmap block `i` and clearing its flag. -/
theorem OnDisk.write (h : bm.OnDisk disk) (i : Nat) :
    ({ bm with dirtyBlocks := bm.dirtyBlocks.set i false } : Bitmap).OnDisk
      (update disk (bm.geo.bitmapStart + i) (bm.blockBuf i)) := by
  intro j hj k hk hlt
  by_cases hij : j = i
  · subst hij
    rw [update_self]
    show bm.data.getD (j * BLOCK_SIZE + k % BLOCK_SIZE) 0 = bm.data.getD k 0
    rw [← hk, Nat.div_add_mod']
  · have hj' : bm.dirtyBlocks[j]? = some false := by
      simpa [getElem?_set_ne (Ne.symm hij)] using hj
    show update disk _ _ (bm.geo.bitmapStart + j) _ = _
    rw [update_of_ne (by omega)]
    exact h j hj' k hk hlt

/-- The flags may change, nothing else of the bitmap. -/
def SameButFlags (bm bm' : Bitmap) : Prop :=
  ∃ flags : List Bool, flags.length = bm.dirtyBlocks.length ∧ bm' = { bm with dirtyBlocks := flags }

/-- What the loop of `sync` does: the bitmap blocks it passed are clean when it
returns `Ok`, those before it keep their flag, and clean blocks stay on disk
also when a write fails. -/
theorem syncLoop_spec (fails : Nat → Option FsError) :
    ∀ (n i : Nat) (bm : Bitmap) (disk : Disk), bm.OnDisk disk →
      let r := syncLoop fails n i (bm, disk)
      SameButFlags bm r.2.1 ∧ r.2.1.OnDisk r.2.2 ∧
        (∀ j, j < i → r.2.1.dirtyBlocks[j]? = bm.dirtyBlocks[j]?) ∧
        (r.1 = .ok () → ∀ j, i ≤ j → j < i + n → r.2.1.dirtyBlocks[j]? ≠ some true)
  | 0, i, bm, disk, h => ⟨⟨_, rfl, rfl⟩, h, fun _ _ => rfl, fun _ j _ _ => by omega⟩
  | n + 1, i, bm, disk, h => by
    simp only [syncLoop]
    split_ifs with hclean
    · -- a clean block is skipped
      obtain ⟨hsame, hdisk, hlow, hok⟩ := syncLoop_spec fails n (i + 1) bm disk h
      refine ⟨hsame, hdisk, fun j hj => hlow j (by omega), fun hr j hj hj' => ?_⟩
      by_cases hji : j = i
      · rw [hji, hlow i (by omega), hclean]
        simp
      · exact hok hr j (by omega) (by omega)
    · cases hf : fails (bm.geo.bitmapStart + i) with
      | some e => exact ⟨⟨_, rfl, rfl⟩, h, fun _ _ => rfl, nofun⟩
      | none =>
        obtain ⟨⟨flags, hlen, hsame⟩, hdisk, hlow, hok⟩ :=
          syncLoop_spec fails n (i + 1) _ _ (h.write i)
        refine ⟨⟨flags, by simpa using hlen, hsame⟩, hdisk, ?_, fun hr j hj hj' => ?_⟩
        · intro j hj
          rw [hlow j (by omega)]
          exact getElem?_set_ne (by omega)
        · by_cases hji : j = i
          · rw [hji, hlow i (by omega), getElem?_set_self']
            cases bm.dirtyBlocks[i]? <;> simp
          · exact hok hr j (by omega) (by omega)

/-- The loop returns `Ok` if the cache takes every bitmap block. -/
theorem syncLoop_ok : ∀ (n i : Nat) (bm : Bitmap) (disk : Disk),
    (∀ j, j < i + n → fails (bm.geo.bitmapStart + j) = none) →
    (syncLoop fails n i (bm, disk)).1 = .ok ()
  | 0, _, _, _, _ => rfl
  | n + 1, i, bm, disk, h => by
    have hrest (bm' : Bitmap) (hgeo : bm'.geo = bm.geo) (disk' : Disk) :=
      syncLoop_ok n (i + 1) bm' disk' fun j hj => by rw [hgeo]; exact h j (by omega)
    rw [syncLoop]
    split_ifs
    · exact hrest bm rfl disk
    · rw [h i (by omega)]
      exact hrest { bm with dirtyBlocks := bm.dirtyBlocks.set i false } rfl _

theorem sync_ok (h : ∀ j, j < bm.geo.bitmapCount → fails (bm.geo.bitmapStart + j) = none) :
    (bm.sync fails disk).1 = .ok () := by
  unfold sync
  split_ifs
  · exact syncLoop_ok _ 0 bm disk fun j hj => h j (by omega)
  · rfl

theorem sync_spec (fails : Nat → Option FsError) (hinv : bm.Inv) (h : bm.OnDisk disk) :
    let r := bm.sync fails disk
    r.2.1.Inv ∧ r.2.1.OnDisk r.2.2 ∧ SameButFlags bm r.2.1 ∧
      (r.1 = .ok () → r.2.1.AllOnDisk r.2.2) := by
  have of_clean : ∀ {bm' : Bitmap} {disk' : Disk}, bm'.Inv → bm'.OnDisk disk' →
      (∀ j, j < bm'.geo.bitmapCount → bm'.dirtyBlocks[j]? ≠ some true) →
      bm'.AllOnDisk disk' := by
    intro bm' disk' hinv' hdisk' hclean k hk
    have hi : k / BLOCK_SIZE < bm'.geo.bitmapCount := by
      rw [bm'.geo.count_eq, Nat.div_lt_iff_lt_mul (by decide)]
      unfold Geometry.byteCount at hk
      simp only [BLOCK_SIZE]
      omega
    refine hdisk' (k / BLOCK_SIZE) ?_ k rfl (by rw [hinv'.size]; exact hk)
    have hlt : k / BLOCK_SIZE < bm'.dirtyBlocks.length := by rw [hinv'.dirtySize]; exact hi
    have hnt := hclean _ hi
    rw [getElem?_eq_getElem hlt] at hnt ⊢
    simpa using hnt
  unfold sync
  cases hd : bm.dirty with
  | false =>
    rw [if_neg (by simp)]
    exact ⟨hinv, h, ⟨_, rfl, rfl⟩, fun _ => of_clean hinv h fun j _ => hinv.flags hd j⟩
  | true =>
    rw [if_pos rfl]
    obtain ⟨hsame, hdisk, -, hok⟩ := syncLoop_spec fails bm.geo.bitmapCount 0 bm disk h
    have hinv' : (syncLoop fails bm.geo.bitmapCount 0 (bm, disk)).2.1.Inv := by
      obtain ⟨flags, hlen, heq⟩ := hsame
      rw [heq]
      exact { hinv with
        dirtySize := hlen.trans hinv.dirtySize
        flags := fun hf => absurd (hd.symm.trans hf) (by simp) }
    refine ⟨hinv', hdisk, hsame, fun hr => of_clean hinv' hdisk fun j hj => ?_⟩
    refine hok hr j (Nat.zero_le j) ?_
    obtain ⟨flags, -, heq⟩ := hsame
    rw [heq] at hj
    simpa using hj

/-! ## The bitmaps a file system starts from -/

theorem foldl_setBit_eq : ∀ (n start : Nat) (data : List Byte) (flags : List Bool),
    (range' start n).foldl setBit data = (useBlocks (data, flags) start n).1
  | 0, _, _, _ => rfl
  | n + 1, start, data, flags => by
    rw [range'_succ, foldl_cons, useBlocks]
    exact foldl_setBit_eq n (start + 1) (setBit data start) _

theorem bitClear_replicate (n m : Nat) : bitClear (List.replicate n 0) m = true := by
  have : (List.replicate n (0 : Byte)).getD (m / 8) 0 = 0 := by
    rw [getD_eq_getElem?_getD, getElem?_replicate]
    split_ifs <;> rfl
  unfold bitClear
  rw [this]
  simp

variable (g : Geometry)

theorem newForMkfs_data : (newForMkfs g).data =
      (useBlocks (List.replicate g.byteCount 0, []) 0 g.dataStart).1 := by
  show (List.range g.dataStart).foldl setBit _ = _
  rw [range_eq_range']
  exact foldl_setBit_eq _ _ _ _

/-- `new_for_mkfs` marks the metadata blocks used and counts the rest free. -/
theorem inv_newForMkfs : (newForMkfs g).Inv := by
  have hlen : ∀ b, b < g.totalBlocks → b / 8 < (List.replicate g.byteCount (0 : Byte)).length := by
    intro b hb
    simpa using g.div_lt_byteCount hb
  have hle := g.data_le
  refine ⟨?_, length_replicate, ?_, ?_, Nat.le_refl _, g.data_le, ?_, ?_⟩
  · rw [newForMkfs_data]
    exact (useBlocks_length _ _ _).1.trans (by simp [newForMkfs])
  · intro b hb
    have hb' : b < g.dataStart := hb
    show bitClear (newForMkfs g).data b = false
    rw [newForMkfs_data, useBlocks_bit _ _ _ (fun b hb => hlen b (by omega))]
    simp [hb']
  · have := useBlocks_count g.dataStart (List.replicate g.byteCount 0, []) 0 g.totalBlocks hlen
      (by omega) (fun b _ _ => bitClear_replicate _ b)
    have hall : countClear (List.replicate g.byteCount 0) g.totalBlocks = g.totalBlocks := by
      unfold countClear
      rw [countP_eq_length.mpr fun b _ => bitClear_replicate _ b, length_range]
    rw [newForMkfs_data]
    show g.totalBlocks - g.dataStart = countClear _ g.totalBlocks
    simp only [hall] at this
    omega
  · intro r hr
    cases hr
  · rintro ⟨⟩

theorem onDisk_newForMkfs (disk : Disk) : (newForMkfs g).OnDisk disk := by
  intro i hi
  have : (List.replicate g.bitmapCount true)[i]? = some false := hi
  rw [getElem?_replicate] at this
  split_ifs at this
  cases this

/-- A loaded bitmap satisfies the invariant if its metadata blocks are used. -/
theorem inv_load {g : Geometry} (hmeta : ∀ b, b < g.dataStart → (load g disk).isFree b = false) :
    (load g disk).Inv where
  size := by simp [load]
  dirtySize := length_replicate
  metaUsed := hmeta
  count := rfl
  cursor_ge := Nat.le_refl _
  cursor_le := g.data_le
  pending := nofun
  flags := by
    intro _ i
    simp only [load, getElem?_replicate]
    split_ifs <;> simp

theorem onDisk_load (disk : Disk) : (load g disk).OnDisk disk := by
  rintro i - k rfl hlt
  have hk : k < g.byteCount := by simpa [load] using hlt
  simp [load, getD_eq_getElem?_getD, getElem?_map, getElem?_range hk]

end Bitmap

/-! ## Runs -/

/-- One call on the bitmap, with what the environment decides: which cache
writes fail, and whether the build checks arithmetic. -/
inductive BitmapOp where
  | alloc (count : Nat)
  | free (start count : Nat)
  | sync (fails : Nat → Option FsError)
  | flushTrims (checks : Bool)

/-- The bitmap and the disk its blocks are on. -/
structure BitmapState where
  bm : Bitmap
  disk : Disk

namespace BitmapState

/-- A call and its effect; a failed `alloc` changes nothing, and a call that
panics has no next state. -/
inductive Step : BitmapState → BitmapOp → BitmapState → Prop where
  | alloc {s : BitmapState} {count start : Nat} {bm : Bitmap} :
      s.bm.alloc count = .ok (start, bm) → Step s (.alloc count) { s with bm }
  | allocFull {s : BitmapState} {count : Nat} {e : FsError} :
      s.bm.alloc count = .error e → Step s (.alloc count) s
  | free (s : BitmapState) (start count : Nat) :
      Step s (.free start count) { s with bm := s.bm.free start count }
  | sync (s : BitmapState) (fails : Nat → Option FsError) :
      Step s (.sync fails) ⟨(s.bm.sync fails s.disk).2.1, (s.bm.sync fails s.disk).2.2⟩
  | flushTrims {s : BitmapState} {checks : Bool} {merged : List (Nat × Nat)} {bm : Bitmap} :
      s.bm.flushTrims checks = some (merged, bm) → Step s (.flushTrims checks) { s with bm }

/-- The bitmap of a fresh format, or one loaded from a disk whose metadata
blocks are marked used. -/
inductive Start (g : Geometry) (disk : Disk) : BitmapState → Prop where
  | mkfs : Start g disk ⟨.newForMkfs g, disk⟩
  | load {bm : Bitmap} :
      loadArgs disk g.totalBlocks g.bitmapStart g.bitmapCount g.dataStart = .ok bm →
      (∀ b, b < g.dataStart → bm.isFree b = false) → Start g disk ⟨bm, disk⟩

/-- What holds in every state of a run. -/
def Good (g : Geometry) (s : BitmapState) : Prop :=
  s.bm.geo = g ∧ s.bm.Inv ∧ s.bm.OnDisk s.disk

variable {g : Geometry}

theorem good_start {disk : Disk} {s : BitmapState} (h : Start g disk s) : Good g s := by
  cases h with
  | mkfs => exact ⟨rfl, inv_newForMkfs g, onDisk_newForMkfs g disk⟩
  | load hargs hmeta =>
    cases (loadArgs_geometry g disk).symm.trans hargs
    exact ⟨rfl, inv_load hmeta, onDisk_load g disk⟩

theorem good_step (s : BitmapState) (op : BitmapOp) (s' : BitmapState) (h : Good g s)
    (hstep : Step s op s') : Good g s' := by
  obtain ⟨hgeo, hinv, hdisk⟩ := h
  cases hstep with
  | alloc ha =>
    have hinv' := hinv.alloc ha
    obtain ⟨-, -, -, -, -, rfl⟩ := alloc_ok hinv ha
    exact ⟨hgeo, hinv', hdisk.takeRun _ _⟩
  | allocFull => exact ⟨hgeo, hinv, hdisk⟩
  | free start count =>
    exact ⟨(free_geo _ _ _).trans hgeo, hinv.free start count, hdisk.free start count⟩
  | sync fails =>
    obtain ⟨hinv', hdisk', ⟨flags, -, hsame⟩, -⟩ := sync_spec fails hinv hdisk
    refine ⟨?_, hinv', hdisk'⟩
    rw [hsame]
    exact hgeo
  | flushTrims hflush =>
    obtain ⟨m, -, heq⟩ := Option.map_eq_some_iff.mp hflush
    obtain ⟨-, rfl⟩ := Prod.mk.inj heq
    exact ⟨hgeo, { hinv with pending := fun r hr => by cases hr }, hdisk⟩

/-- **The invariant holds after every run.** -/
theorem good_run {disk : Disk} {s₀ s : BitmapState} {ops : List BitmapOp} (h : Start g disk s₀)
    (hrun : Run Step s₀ ops s) : Good g s :=
  hrun.invariant good_step (good_start h)

end BitmapState

end NopeekOS.Storage
