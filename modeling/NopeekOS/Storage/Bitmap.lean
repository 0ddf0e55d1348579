import NopeekOS.Lib.Word
import NopeekOS.Storage.Types

/-!
# The block allocation bitmap (`storage/npkfs/bitmap.rs`)

In-memory bitmap with next-fit allocation, one dirty flag per on-disk bitmap
block, and a list of freed ranges waiting for TRIM. The bytes are modelled as
bytes (`Lib.bitClear`, `Lib.setBit`, `Lib.clearBit` are `is_free`, `set_used`,
`set_free`); counters and block numbers are `Nat`, bounded by the geometry.

`find_run` searches and marks in one loop; the search is `findRunLoop` and the
marking `takeRun`. `sync` writes through the block cache: what it writes is
modelled as the content the cache then serves for each bitmap block. In
`flush_trims` the arithmetic is that of the build (`checks`), since there it can
leave the range of `u64`.
-/

namespace NopeekOS.Storage

open Lib

/-- `Bitmap` (bitmap.rs:10). -/
structure Bitmap where
  geo : Geometry
  data : List Byte
  freeCount : Nat
  dirty : Bool
  dirtyBlocks : List Bool
  trimPending : List (Nat × Nat)
  allocCursor : Nat

/-- What the block cache serves: the byte of a block at an offset below
`BLOCK_SIZE`. -/
abbrev Disk := Nat → Nat → Byte

namespace Bitmap

/-- The bitmap `load_args` reads for a geometry that passed its checks: byte `k`
comes from offset `k % BLOCK_SIZE` of bitmap block `k / BLOCK_SIZE`. -/
def load (g : Geometry) (disk : Disk) : Bitmap :=
  let data := (List.range g.byteCount).map fun k =>
    disk (g.bitmapStart + k / BLOCK_SIZE) (k % BLOCK_SIZE)
  { geo := g
    data
    freeCount := countClear data g.totalBlocks
    dirty := false
    dirtyBlocks := List.replicate g.bitmapCount false
    trimPending := []
    allocCursor := g.dataStart }

/-- `Bitmap::load_args` (bitmap.rs:29): the geometry must describe a bitmap that
fits before anything is read. A failed reservation or read gives an error and
no bitmap, too, and is left out; the sum saturates in the source, which only a
disk of 2^64 - 1 blocks would notice. -/
def loadArgs (disk : Disk) (total start count dataStart : Nat) : Except FsError Bitmap :=
  if h : total < 2 ^ 64 ∧ count = (((total + 7) / 8) + (BLOCK_SIZE - 1)) / BLOCK_SIZE ∧
      start + count ≤ dataStart ∧ dataStart ≤ total then
    .ok (load ⟨total, start, count, dataStart, h.1, h.2.1, h.2.2.1, h.2.2.2⟩ disk)
  else .error .corrupt

theorem loadArgs_geometry (g : Geometry) (disk : Disk) :
    loadArgs disk g.totalBlocks g.bitmapStart g.bitmapCount g.dataStart = .ok (load g disk) :=
  dif_pos ⟨g.total_lt, g.count_eq, g.bitmap_le, g.data_le⟩

/-- `Bitmap::new_for_mkfs` (bitmap.rs:79): metadata blocks are used. -/
def newForMkfs (g : Geometry) : Bitmap where
  geo := g
  data := (List.range g.dataStart).foldl setBit (List.replicate g.byteCount 0)
  freeCount := g.totalBlocks - g.dataStart
  dirty := true
  dirtyBlocks := List.replicate g.bitmapCount true
  trimPending := []
  allocCursor := g.dataStart

variable (bm : Bitmap)

/-- `Bitmap::is_allocated` (bitmap.rs:108). -/
def isAllocated (block : Nat) : Bool :=
  decide (block < bm.geo.totalBlocks) && !bitClear bm.data block

/-- `Bitmap::mark_block_dirty` (bitmap.rs:191). -/
def markBlockDirty (dirtyBlocks : List Bool) (block : Nat) : List Bool :=
  dirtyBlocks.set (block / 8 / BLOCK_SIZE) true

/-- Where the free run that block `b` belongs to starts. -/
def runStartAt (b runStart runLen : Nat) : Nat := if runLen = 0 then b else runStart

/-- The search of `find_run` (bitmap.rs:131) over the `n` blocks from `b`. -/
def findRunLoop (data : List Byte) (count : Nat) : (n b runStart runLen : Nat) → Option Nat
  | 0, _, _, _ => none
  | n + 1, b, runStart, runLen =>
    if bitClear data b then
      if runLen + 1 = count then some (runStartAt b runStart runLen)
      else findRunLoop data count n (b + 1) (runStartAt b runStart runLen) (runLen + 1)
    else findRunLoop data count n (b + 1) runStart 0

/-- Set the bits of a run and mark their bitmap blocks dirty, block by block. -/
def useBlocks : List Byte × List Bool → (start n : Nat) → List Byte × List Bool
  | s, _, 0 => s
  | s, b, n + 1 => useBlocks (setBit s.1 b, markBlockDirty s.2 b) (b + 1) n

/-- What `find_run` does with the run it found. -/
def takeRun (start count : Nat) : Bitmap :=
  let s := useBlocks (bm.data, bm.dirtyBlocks) start count
  { bm with
    data := s.1
    dirtyBlocks := s.2
    freeCount := bm.freeCount - count
    dirty := true
    allocCursor := if bm.geo.totalBlocks ≤ start + count then bm.geo.dataStart
      else start + count }

/-- `Bitmap::find_run` (bitmap.rs:131). -/
def findRun (lo hi count : Nat) : Option (Nat × Bitmap) :=
  (findRunLoop bm.data count (hi - lo) lo lo 0).map fun start =>
    (start, bm.takeRun start count)

/-- `Bitmap::alloc` (bitmap.rs:114): from the cursor to the end, then from the
data area to the cursor. -/
def alloc (count : Nat) : Except FsError (Nat × Bitmap) :=
  if count = 0 ∨ bm.freeCount < count then .error .diskFull
  else
    match bm.findRun bm.allocCursor bm.geo.totalBlocks count with
    | some r => .ok r
    | none =>
      if bm.geo.dataStart < bm.allocCursor then
        match bm.findRun bm.geo.dataStart bm.allocCursor count with
        | some r => .ok r
        | none => .error .diskFull
      else .error .diskFull

/-- The loop of `free`: clear every set bit of the range and count it. -/
def clearBlocks (total : Nat) :
    List Byte × List Bool × Nat → (start n : Nat) → List Byte × List Bool × Nat
  | s, _, 0 => s
  | (data, dirtyBlocks, freeCount), b, n + 1 =>
    if b < total ∧ bitClear data b = false then
      clearBlocks total (clearBit data b, markBlockDirty dirtyBlocks b, freeCount + 1) (b + 1) n
    else clearBlocks total (data, dirtyBlocks, freeCount) (b + 1) n

/-- `free` on a range it accepts. -/
def freeRange (start count : Nat) : Bitmap :=
  let s := clearBlocks bm.geo.totalBlocks (bm.data, bm.dirtyBlocks, bm.freeCount) start count
  { bm with
    data := s.1
    dirtyBlocks := s.2.1
    freeCount := s.2.2
    trimPending := if 0 < count then bm.trimPending ++ [(start, count)] else bm.trimPending
    dirty := if 0 < count then true else bm.dirty }

/-- `Bitmap::free` (bitmap.rs:166). A range outside the data area, or one whose
end does not fit a `u64`, frees nothing. -/
def free (start count : Nat) : Bitmap :=
  if start + count < 2 ^ 64 ∧ bm.geo.dataStart ≤ start ∧ start + count ≤ bm.geo.totalBlocks then
    bm.freeRange start count
  else bm

/-- The buffer `sync` writes for bitmap block `i`, zeros after the last byte. -/
def blockBuf (i : Nat) : Nat → Byte := fun offset =>
  bm.data.getD (i * BLOCK_SIZE + offset) 0

/-- The loop of `sync` over `n` bitmap blocks from `i`. `fails b` says that the
cache cannot take the write of block `b`; the loop then returns its error. -/
def syncLoop (fails : Nat → Option FsError) :
    (n i : Nat) → Bitmap × Disk → Except FsError Unit × (Bitmap × Disk)
  | 0, _, s => (.ok (), s)
  | n + 1, i, (bm, disk) =>
    if bm.dirtyBlocks[i]? = some false then syncLoop fails n (i + 1) (bm, disk)
    else
      match fails (bm.geo.bitmapStart + i) with
      | some e => (.error e, (bm, disk))
      | none =>
        syncLoop fails n (i + 1)
          ({ bm with dirtyBlocks := bm.dirtyBlocks.set i false },
            Function.update disk (bm.geo.bitmapStart + i) (bm.blockBuf i))

/-- `Bitmap::sync` (bitmap.rs:203). -/
def sync (fails : Nat → Option FsError) (bm : Bitmap) (disk : Disk) :
    Except FsError Unit × (Bitmap × Disk) :=
  if bm.dirty then syncLoop fails bm.geo.bitmapCount 0 (bm, disk) else (.ok (), (bm, disk))

/-- The merge step of `flush_trims` (bitmap.rs:237) for the free run from `run`
to `b`. `merged` has its last range first. -/
def mergeTrim (checks : Bool) (run b : Nat) : List (Nat × Nat) → Option (List (Nat × Nat))
  | [] => some [(run, b - run)]
  | (start, len) :: merged => do
    let stop ← add64 checks start len
    if run ≤ stop then
      let reach ← sub64 checks b start
      some ((start, max len reach) :: merged)
    else some ((run, b - run) :: (start, len) :: merged)

/-- The two nested loops of `flush_trims` over the `n` blocks from `b`; `run` is
the start of the free run the inner loop is in. -/
def trimRange (checks : Bool) (data : List Byte) :
    (n b : Nat) → (run : Option Nat) → List (Nat × Nat) → Option (List (Nat × Nat))
  | 0, b, some run, merged => mergeTrim checks run b merged
  | 0, _, none, merged => some merged
  | n + 1, b, run, merged =>
    if bitClear data b then trimRange checks data n (b + 1) (some (run.getD b)) merged
    else
      match run with
      | none => trimRange checks data n (b + 1) none merged
      | some run => do
        let merged ← mergeTrim checks run b merged
        trimRange checks data n (b + 1) none merged

/-- `trim_pending.sort_by_key(|&(s, _)| s)`, a stable sort. -/
def sortedTrims : List (Nat × Nat) :=
  bm.trimPending.insertionSort fun r r' => r.1 ≤ r'.1

/-- One pending range of `flush_trims` (bitmap.rs:229). -/
def trimOne (checks : Bool) (bm : Bitmap) (merged : List (Nat × Nat)) (r : Nat × Nat) :
    Option (List (Nat × Nat)) := do
  let stop ← add64 checks r.1 r.2
  trimRange checks bm.data (min stop bm.geo.totalBlocks - r.1) r.1 none merged

/-- `Bitmap::flush_trims` (bitmap.rs:226): the ranges given to `discard_ranges`
and the bitmap afterwards; `none` is a panic. A failed discard is only logged. -/
def flushTrims (checks : Bool) (bm : Bitmap) : Option (List (Nat × Nat) × Bitmap) :=
  (bm.sortedTrims.foldlM (trimOne checks bm) []).map fun merged =>
    (merged.reverse, { bm with trimPending := [] })

end Bitmap

end NopeekOS.Storage
