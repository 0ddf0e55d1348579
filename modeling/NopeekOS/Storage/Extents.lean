import NopeekOS.Storage.BitmapInv

/-!
# Extent allocation of `put_inner` (`storage/npkfs/storage.rs`)

A payload gets its blocks contiguous-first: ask for all that is missing, halve
the request while the bitmap has no such run, and go on with the rest. On an
empty bitmap everything taken so far is given back.

`ExtentsInv` relates the bitmap inside the loop to the one at its start: the
extents so far are disjoint, were free, and are exactly what is used now.
-/

namespace NopeekOS.Storage

open Lib List

namespace Bitmap

/-- The inner loop (storage.rs:902): halve the request until it fits. The request
shrinks in every round but the last, so its size is fuel enough. -/
def allocHalving : (fuel : Nat) → Bitmap → (trySize : Nat) → Option (Extent × Bitmap)
  | 0, _, _ => none
  | fuel + 1, bm, trySize =>
    match bm.alloc trySize with
    | .ok (start, bm) => some (⟨start, trySize⟩, bm)
    | .error _ => if 1 < trySize then allocHalving fuel bm ((trySize + 1) / 2) else none

/-- Give extents back. -/
def freeExtents (bm : Bitmap) (extents : List Extent) : Bitmap :=
  extents.foldl (fun bm ext => bm.free ext.startBlock ext.blockCount) bm

/-- The outer loop (storage.rs:899). Every round allocates a block, so the number
of blocks still missing is fuel enough. -/
def extentLoop (blocksNeeded : Nat) :
    (fuel : Nat) → Bitmap → (allExtents : List Extent) → (allocated : Nat) →
      Except FsError (List Extent) × Bitmap
  | 0, bm, allExtents, _ => (.ok allExtents, bm)
  | fuel + 1, bm, allExtents, allocated =>
    if allocated < blocksNeeded then
      match allocHalving (blocksNeeded - allocated) bm (blocksNeeded - allocated) with
      | some (ext, bm) =>
        extentLoop blocksNeeded fuel bm (allExtents ++ [ext]) (allocated + ext.blockCount)
      | none => (.error .diskFull, bm.freeExtents allExtents)
    else (.ok allExtents, bm)

/-- The extent loop of `put_inner` (storage.rs:895-917). -/
def allocExtents (bm : Bitmap) (blocksNeeded : Nat) : Except FsError (List Extent) × Bitmap :=
  extentLoop blocksNeeded blocksNeeded bm [] 0

/-! ## The inner loop -/

theorem allocHalving_some : ∀ {fuel : Nat} {bm bm' : Bitmap} {trySize : Nat} {ext : Extent},
    allocHalving fuel bm trySize = some (ext, bm') →
      ext.blockCount ≤ trySize ∧ bm.alloc ext.blockCount = .ok (ext.startBlock, bm')
  | fuel + 1, bm, bm', trySize, ext, h => by
    rw [allocHalving] at h
    cases ha : bm.alloc trySize with
    | ok r =>
      rw [ha] at h
      obtain ⟨rfl, rfl⟩ := Prod.mk.inj (Option.some.inj h)
      exact ⟨Nat.le_refl _, ha⟩
    | error e =>
      rw [ha] at h
      split_ifs at h with hlt
      obtain ⟨hle, hok⟩ := allocHalving_some h
      exact ⟨by omega, hok⟩

/-- The inner loop gives up only when no block is free. -/
theorem allocHalving_none : ∀ {fuel : Nat} {bm : Bitmap} {trySize : Nat}, bm.Inv →
    0 < trySize → trySize ≤ fuel → allocHalving fuel bm trySize = none → bm.freeCount = 0
  | 0, _, _, _, hpos, hfuel, _ => by omega
  | fuel + 1, bm, trySize, hinv, hpos, hfuel, h => by
    rw [allocHalving] at h
    cases ha : bm.alloc trySize with
    | ok r => rw [ha] at h; cases h
    | error e =>
      rw [ha] at h
      split_ifs at h with hlt
      · exact allocHalving_none hinv (by omega) (by omega) h
      -- a single block was refused
      obtain rfl : trySize = 1 := by omega
      by_contra hne
      obtain ⟨r, hr⟩ := alloc_one hinv (Nat.pos_of_ne_zero hne)
      rw [hr] at ha
      cases ha

/-! ## The outer loop -/

/-- The blocks of a list of extents. -/
def extentBlocks (extents : List Extent) : List Nat := extents.flatMap Extent.blocks

theorem extentBlocks_append (extents : List Extent) (ext : Extent) :
    extentBlocks (extents ++ [ext]) = extentBlocks extents ++ ext.blocks := by
  simp [extentBlocks]

theorem length_extentBlocks (extents : List Extent) :
    (extentBlocks extents).length = (extents.map Extent.blockCount).sum := by
  rw [extentBlocks, length_flatMap]
  simp only [Extent.blocks, length_range']

/-- The loop's invariant, over the bitmap `bm₀` it started from. -/
structure ExtentsInv (bm₀ bm : Bitmap) (extents : List Extent) (allocated : Nat) : Prop where
  inv : bm.Inv
  geo : bm.geo = bm₀.geo
  nodup : (extentBlocks extents).Nodup
  total : (extentBlocks extents).length = allocated
  inData : ∀ e ∈ extents, bm.geo.dataStart ≤ e.startBlock ∧
    e.startBlock + e.blockCount ≤ bm.geo.totalBlocks
  wasFree : ∀ b ∈ extentBlocks extents, bm₀.isFree b = true
  isFree_iff : ∀ b, bm.isFree b = true ↔ bm₀.isFree b = true ∧ b ∉ extentBlocks extents
  freeCount : bm.freeCount + allocated = bm₀.freeCount

theorem ExtentsInv.start {bm : Bitmap} (h : bm.Inv) : ExtentsInv bm bm [] 0 where
  inv := h
  geo := rfl
  nodup := nodup_nil
  total := rfl
  inData := nofun
  wasFree := nofun
  isFree_iff := by simp [extentBlocks]
  freeCount := rfl

/-- One round of the outer loop. -/
theorem ExtentsInv.step {bm₀ bm bm' : Bitmap} {extents : List Extent} {ext : Extent}
    {allocated : Nat} (h : ExtentsInv bm₀ bm extents allocated)
    (ha : bm.alloc ext.blockCount = .ok (ext.startBlock, bm')) :
    ExtentsInv bm₀ bm' (extents ++ [ext]) (allocated + ext.blockCount) := by
  obtain ⟨hpos, hcount, hlo, hhi, hfree, rfl⟩ := alloc_ok h.inv ha
  have hnew : ∀ b ∈ ext.blocks, bm.isFree b = true := by
    intro b hb
    obtain ⟨h1, h2⟩ := Extent.mem_blocks.mp hb
    exact hfree b h1 h2
  have hmem : ∀ b, b ∈ extentBlocks (extents ++ [ext]) ↔
      b ∈ extentBlocks extents ∨ b ∈ ext.blocks := by
    intro b
    rw [extentBlocks_append, mem_append]
  refine ⟨h.inv.takeRun hlo hhi hfree, h.geo, ?_, ?_, ?_, ?_, ?_, ?_⟩
  · rw [extentBlocks_append]
    refine nodup_append.mpr ⟨h.nodup, nodup_range', ?_⟩
    intro b hb c hc heq
    subst heq
    exact ((h.isFree_iff b).mp (hnew b hc)).2 hb
  · rw [extentBlocks_append, length_append, h.total]
    simp [Extent.blocks]
  · exact forall_mem_append.mpr ⟨h.inData, forall_mem_singleton.mpr ⟨hlo, hhi⟩⟩
  · intro b hb
    rcases (hmem b).mp hb with hb | hb
    · exact h.wasFree b hb
    · exact ((h.isFree_iff b).mp (hnew b hb)).1
  · intro b
    rw [takeRun_isFree h.inv hhi, hmem, Extent.mem_blocks]
    simp only [Bool.and_eq_true, decide_eq_true_eq, h.isFree_iff b]
    tauto
  · have := h.freeCount
    show bm.freeCount - ext.blockCount + (allocated + ext.blockCount) = bm₀.freeCount
    omega

/-- Giving extents back restores exactly their bits. -/
theorem freeExtents_spec : ∀ (extents : List Extent) {bm : Bitmap}, bm.Inv →
    (∀ e ∈ extents, bm.geo.dataStart ≤ e.startBlock ∧
      e.startBlock + e.blockCount ≤ bm.geo.totalBlocks) →
    (bm.freeExtents extents).Inv ∧ ∀ b, (bm.freeExtents extents).isFree b = true ↔
        bm.isFree b = true ∨ b ∈ extentBlocks extents
  | [], bm, h, _ => ⟨h, fun b => by simp [freeExtents, extentBlocks]⟩
  | ext :: rest, bm, h, hin => by
    obtain ⟨hinv, hbit⟩ := freeExtents_spec rest (h.free ext.startBlock ext.blockCount)
      (by rw [free_geo]; exact fun e he => hin e (mem_cons_of_mem _ he))
    refine ⟨hinv, fun b => ?_⟩
    have hext := hin ext mem_cons_self
    show ((bm.free ext.startBlock ext.blockCount).freeExtents rest).isFree b = true ↔ _
    rw [hbit b, free_isFree h]
    show _ ↔ _ ∨ b ∈ ext.blocks ++ extentBlocks rest
    rw [mem_append, Extent.mem_blocks]
    simp only [hext.1, hext.2, true_and, Bool.or_eq_true, decide_eq_true_eq]
    tauto

/-- What the loop returns, by induction on the rounds left. -/
theorem extentLoop_spec {bm₀ : Bitmap} {blocksNeeded : Nat} :
    ∀ (fuel : Nat) {bm : Bitmap} {extents : List Extent} {allocated : Nat},
      ExtentsInv bm₀ bm extents allocated → allocated ≤ blocksNeeded →
      blocksNeeded - allocated ≤ fuel →
      match extentLoop blocksNeeded fuel bm extents allocated with
      | (.ok exts, bm') => blocksNeeded ≤ bm₀.freeCount ∧ ExtentsInv bm₀ bm' exts blocksNeeded
      | (.error e, bm') => e = .diskFull ∧ bm₀.freeCount < blocksNeeded ∧ bm'.Inv ∧
          ∀ b, bm'.isFree b = bm₀.isFree b
  | 0, bm, extents, allocated, h, hle, hfuel => by
    obtain rfl : allocated = blocksNeeded := by omega
    have := h.freeCount
    exact ⟨by omega, h⟩
  | fuel + 1, bm, extents, allocated, h, hle, hfuel => by
    rw [extentLoop]
    by_cases hlt : allocated < blocksNeeded
    · rw [if_pos hlt]
      cases hal : allocHalving (blocksNeeded - allocated) bm (blocksNeeded - allocated) with
      | some r =>
        obtain ⟨ext, bm'⟩ := r
        obtain ⟨hsize, hok⟩ := allocHalving_some hal
        have hpos := (alloc_ok h.inv hok).1
        have hle' : allocated + ext.blockCount ≤ blocksNeeded := by omega
        exact extentLoop_spec fuel (h.step hok) hle' (by omega)
      | none =>
        have hzero := allocHalving_none h.inv (by omega) (Nat.le_refl _) hal
        have hfree := h.freeCount
        obtain ⟨hinv, hbit⟩ := freeExtents_spec extents h.inv h.inData
        refine ⟨rfl, by omega, hinv, fun b => ?_⟩
        rw [Bool.eq_iff_iff, hbit b, h.isFree_iff b]
        by_cases hb : b ∈ extentBlocks extents
        · simp [hb, h.wasFree b hb]
        · simp [hb]
    · rw [if_neg hlt]
      obtain rfl : allocated = blocksNeeded := by omega
      have := h.freeCount
      exact ⟨by omega, h⟩

/-- **The extent loop**: with enough free blocks it returns disjoint extents of
exactly the blocks needed, all free before and exactly those used afterwards;
without, it returns `DiskFull` and every bit is as before. -/
theorem allocExtents_spec {bm : Bitmap} (h : bm.Inv) (blocksNeeded : Nat) :
    match bm.allocExtents blocksNeeded with
    | (.ok exts, bm') => blocksNeeded ≤ bm.freeCount ∧ ExtentsInv bm bm' exts blocksNeeded
    | (.error e, bm') => e = .diskFull ∧ bm.freeCount < blocksNeeded ∧ bm'.Inv ∧
        ∀ b, bm'.isFree b = bm.isFree b :=
  extentLoop_spec blocksNeeded (ExtentsInv.start h) (Nat.zero_le _) (Nat.sub_le _ _)

end Bitmap

/-! ## The bitmap's guarantee -/

/-- **The bitmap over whole runs**, from a fresh format or a loaded bitmap: the
counter counts the zero bits; `alloc` returns free blocks of the data area and
marks exactly those; `free` clears nothing below it; the extent loop succeeds
exactly if enough blocks are free; after a `sync` that returns `Ok` the disk holds the bitmap; and
`sync` returns `Ok` if the cache takes every bitmap block. -/
theorem bitmap_invariant {g : Geometry} {disk : Disk} {s₀ s : BitmapState} {ops : List BitmapOp}
    (hstart : BitmapState.Start g disk s₀) (hrun : Run BitmapState.Step s₀ ops s) :
    s.bm.freeCount = countClear s.bm.data g.totalBlocks ∧
    (∀ count start bm', s.bm.alloc count = .ok (start, bm') →
      g.dataStart ≤ start ∧ start + count ≤ g.totalBlocks ∧
      (∀ b, start ≤ b → b < start + count → s.bm.isFree b = true) ∧
      ∀ b, bm'.isFree b = (s.bm.isFree b && decide (¬ (start ≤ b ∧ b < start + count)))) ∧
    (∀ start count b, b < g.dataStart → (s.bm.free start count).isFree b = false) ∧
    (∀ blocksNeeded, (∃ exts bm', s.bm.allocExtents blocksNeeded = (.ok exts, bm') ∧
        (exts.map Extent.blockCount).sum = blocksNeeded ∧
        exts.Pairwise (fun e e' => List.Disjoint e.blocks e'.blocks) ∧
        (∀ b ∈ Bitmap.extentBlocks exts, s.bm.isFree b = true)) ↔
      blocksNeeded ≤ s.bm.freeCount) ∧
    (∀ fails, (s.bm.sync fails s.disk).1 = .ok () →
      (s.bm.sync fails s.disk).2.1.AllOnDisk (s.bm.sync fails s.disk).2.2) ∧
    ∀ fails, (∀ i, i < g.bitmapCount → fails (g.bitmapStart + i) = none) →
      (s.bm.sync fails s.disk).1 = .ok () := by
  obtain ⟨rfl, hinv, hdisk⟩ := BitmapState.good_run hstart hrun
  refine ⟨hinv.count, ?_, ?_, ?_, fun fails => (Bitmap.sync_spec fails hinv hdisk).2.2.2,
    fun fails => Bitmap.sync_ok⟩
  · intro count start bm' ha
    obtain ⟨-, -, hlo, hhi, hfree, rfl⟩ := Bitmap.alloc_ok hinv ha
    exact ⟨hlo, hhi, hfree, Bitmap.takeRun_isFree hinv hhi⟩
  · intro start count b hb
    exact (hinv.free start count).metaUsed b (by rw [Bitmap.free_geo]; exact hb)
  · intro blocksNeeded
    have hspec := Bitmap.allocExtents_spec hinv blocksNeeded
    constructor
    · rintro ⟨exts, bm', heq, -⟩
      rw [heq] at hspec
      exact hspec.1
    · intro hle
      cases heq : s.bm.allocExtents blocksNeeded with
      | mk r bm' =>
        rw [heq] at hspec
        cases r with
        | error e => exact absurd hle (Nat.not_le.mpr hspec.2.1)
        | ok exts =>
          obtain ⟨-, hext⟩ := hspec
          refine ⟨exts, bm', rfl, ?_, ?_, hext.wasFree⟩
          · rw [← Bitmap.length_extentBlocks, hext.total]
          · -- blocks without repetition
            exact (nodup_flatMap.mp hext.nodup).2

/-- The smallest disk `mkfs` formats: 281 blocks, data from block 266. -/
def smallDisk : Geometry := ⟨281, 265, 1, 266, by decide, by decide, by decide, by decide⟩

/-- An `alloc` that the search from the cursor serves, then a `free`. -/
theorem run_alloc_free (bm : Bitmap) (count start : Nat) (hpos : 0 < count)
    (hcount : count ≤ bm.freeCount)
    (hfind : Bitmap.findRunLoop bm.data count (bm.geo.totalBlocks - bm.allocCursor)
      bm.allocCursor bm.allocCursor 0 = some start) (disk : Disk) (first n : Nat) :
    Run BitmapState.Step ⟨bm, disk⟩ [.alloc count, .free first n]
      ⟨(bm.takeRun start count).free first n, disk⟩ := by
  have halloc : bm.alloc count = .ok (start, bm.takeRun start count) := by
    unfold Bitmap.alloc
    rw [if_neg (by omega)]
    simp only [Bitmap.findRun, hfind, Option.map_some]
  have hstep : BitmapState.Step ⟨bm, disk⟩ (.alloc count) ⟨bm.takeRun start count, disk⟩ :=
    .alloc halloc
  exact .cons hstep (.single (.free ⟨bm.takeRun start count, disk⟩ first n))

/-- On the smallest disk, after four blocks are allocated and two of them freed: the other 13 can
be had as extents, and a `sync` without errors puts the bitmap on the disk. -/
theorem bitmap_invariant_smallDisk :
    ∃ s, Run BitmapState.Step ⟨.newForMkfs smallDisk, fun _ _ => 0⟩ [.alloc 4, .free 267 2] s ∧
      s.bm.freeCount = countClear s.bm.data smallDisk.totalBlocks ∧
      (∃ exts bm', s.bm.allocExtents 13 = (.ok exts, bm') ∧ (exts.map Extent.blockCount).sum = 13) ∧
      (s.bm.sync (fun _ => none) s.disk).2.1.AllOnDisk (s.bm.sync (fun _ => none) s.disk).2.2 := by
  have hrun := run_alloc_free (.newForMkfs smallDisk) 4 266 (by decide) (by decide +kernel)
    (by decide +kernel) (fun _ _ => 0) 267 2
  obtain ⟨hcount, -, -, hexts, hsync, hok⟩ := bitmap_invariant .mkfs hrun
  obtain ⟨exts, bm', hal, hsum, -⟩ := (hexts 13).mpr (by decide +kernel)
  exact ⟨_, hrun, hcount, ⟨exts, bm', hal, hsum⟩, hsync _ (hok _ fun _ _ => rfl)⟩

end NopeekOS.Storage
