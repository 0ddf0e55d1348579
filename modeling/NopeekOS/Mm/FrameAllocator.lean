import NopeekOS.Lib.ByteBits
import NopeekOS.Lib.Word

/-!
# The frame allocator (`mm/memory.rs`)

One bit per 4 KiB frame, set if the frame is used. Single frames are taken from
the lowest free one, starting the search at a cursor; contiguous ones are searched
from the top of memory down. The bitmap lies outside of the memory it describes
or in a part of it that `init` marks as used; here it is a list.

The kernel is built without overflow checks: sums of addresses wrap around.
-/

namespace NopeekOS.Mm

open Lib

abbrev PAGE_SIZE : Nat := 4096

/-- `arch::IDENTITY_MAX` (paging.rs:66). -/
abbrev IDENTITY_MAX : Nat := 8 * 2 ^ 40

/-- `MAX_FRAMES` (memory.rs:16). -/
abbrev MAX_FRAMES : Nat := IDENTITY_MAX / PAGE_SIZE

/-- `STATIC_FRAMES` (memory.rs:21): those of the first 64 GiB. -/
abbrev STATIC_FRAMES : Nat := 64 * 2 ^ 30 / PAGE_SIZE

/-- `FrameAllocator` (memory.rs:26). -/
structure FrameAllocator where
  /-- A set bit is a used frame. -/
  bitmap : List Byte
  freeCount : Nat
  memoryTop : Nat
  /-- The byte at which `allocate` starts. -/
  nextByte : Nat
  deriving DecidableEq, Repr

namespace FrameAllocator

variable (a : FrameAllocator)

/-- `frames` (memory.rs:64). -/
def frames : Nat := a.bitmap.length * 8

/-- A frame of the bitmap that is not used. -/
def isFree (frame : Nat) : Bool := decide (frame < a.frames) && bitClear a.bitmap frame

/-- `mark_all_used` (memory.rs:68). -/
def markAllUsed : FrameAllocator :=
  { a with bitmap := List.replicate a.bitmap.length 0xFF, freeCount := 0 }

/-- `set_free` (memory.rs:73). -/
def setFree (frame : Nat) : FrameAllocator :=
  if a.frames ≤ frame then a
  else if !bitClear a.bitmap frame then
    { a with
      bitmap := clearBit a.bitmap frame
      freeCount := a.freeCount + 1
      nextByte := min a.nextByte (frame / 8) }
  else a

/-- `set_used` (memory.rs:83). -/
def setUsed (frame : Nat) : FrameAllocator :=
  if a.frames ≤ frame then a
  else if bitClear a.bitmap frame then
    { a with
      bitmap := setBit a.bitmap frame
      freeCount := if 0 < a.freeCount then a.freeCount - 1 else a.freeCount }
  else a

/-- The body of the loop of `mark_region_free`. -/
def freeFrame (frame : Nat) : FrameAllocator :=
  let a := a.setFree frame
  if a.memoryTop ≤ frame then { a with memoryTop := frame + 1 } else a

/-- `for frame in start..end`. -/
def forFrames (f : FrameAllocator → Nat → FrameAllocator) (start last : Nat) : FrameAllocator :=
  (List.range' start (last - start)).foldl f a

/-- `mark_region_free` (memory.rs:92): whole frames only. -/
def markRegionFree (base length : Nat) : FrameAllocator :=
  if length = 0 then a
  else
    let start := (base + PAGE_SIZE - 1) % 2 ^ 64 / PAGE_SIZE
    let last := (base + length) % 2 ^ 64 / PAGE_SIZE
    a.forFrames freeFrame start (min last a.frames)

/-- `mark_region_used` (memory.rs:102): also a frame that is only touched. -/
def markRegionUsed (base length : Nat) : FrameAllocator :=
  if length = 0 then a
  else
    let start := base / PAGE_SIZE
    let last := (base + length + PAGE_SIZE - 1) % 2 ^ 64 / PAGE_SIZE
    a.forFrames setUsed start (min last a.frames)

/-! ## Single frames -/

/-- `u8::trailing_ones`. -/
def trailingOnes (b : Byte) : Nat := ((List.range 8).takeWhile b.getLsbD).length

/-- The first byte from `byteIdx` on that is not full, among `n`. -/
def notFull (bitmap : List Byte) : (n byteIdx : Nat) → Option Nat
  | 0, _ => none
  | n + 1, byteIdx =>
    if bitmap.getD byteIdx 0 = 0xFF then notFull bitmap n (byteIdx + 1) else some byteIdx

/-- `allocate` (memory.rs:111). -/
def allocate : Option Nat × FrameAllocator :=
  let topByte := min ((a.memoryTop + 7) / 8) a.bitmap.length
  match notFull a.bitmap (topByte - a.nextByte) a.nextByte with
  | none => (none, { a with nextByte := topByte })
  | some byteIdx =>
    let a := { a with nextByte := byteIdx }
    let frame := byteIdx * 8 + trailingOnes (a.bitmap.getD byteIdx 0)
    if a.memoryTop ≤ frame then (none, a)
    else
      (some (frame * PAGE_SIZE),
        { a with bitmap := setBit a.bitmap frame, freeCount := a.freeCount - 1 })

/-- `deallocate` (memory.rs:128). -/
def deallocate (addr : Nat) : FrameAllocator := a.setFree (addr / PAGE_SIZE)

/-! ## Contiguous frames -/

/-- Take the frames that a search found. -/
def take (count : Nat) : Option Nat → Option Nat × FrameAllocator
  | none => (none, a)
  | some start => (some (start * PAGE_SIZE), a.forFrames setUsed start (start + count))

/-- The lowest used frame of a window. -/
def firstUsed (bitmap : List Byte) (start count : Nat) : Option Nat :=
  (List.range' start count).find? fun frame => !bitClear bitmap frame

/-- The loop of `contiguous_below` (memory.rs:338): the next window to look at is
the one that ends right below the used frame that was met. -/
def searchBelow (bitmap : List Byte) (count start : Nat) : Option Nat :=
  match firstUsed bitmap start count with
  | none => some start
  | some frame =>
    if start = 0 then none
    else
      let skipTo := if count < frame then frame - count else 0
      if start ≤ skipTo then searchBelow bitmap count (start - 1)
      else searchBelow bitmap count skipTo
termination_by start
decreasing_by all_goals omega

/-- `contiguous_below` (memory.rs:326). A limit of 0 is none. -/
def contiguousBelow (count limitBytes : Nat) : Option Nat × FrameAllocator :=
  if count = 0 then (none, a)
  else
    let top := if 0 < limitBytes then min (limitBytes / PAGE_SIZE) a.memoryTop else a.memoryTop
    if top < count then (none, a)
    else a.take count (searchBelow a.bitmap count (top - count))

/-- The loop of the aligned searches, over the test that a window is free; `n` is
the number of windows below the first. -/
def searchAligned (free : Nat → Bool) (align : Nat) : (n start : Nat) → Option Nat
  | n, start =>
    if free start then some start
    else if start < align then none
    else match n with
      | 0 => none
      | n + 1 => searchAligned free align n (start - align)

/-- `contiguous_aligned_below` (memory.rs:371). -/
def contiguousAlignedBelow (count align limitBytes : Nat) : Option Nat × FrameAllocator :=
  if count = 0 ∨ align = 0 ∨ ¬ align.isPowerOfTwo then (none, a)
  else
    let top := min (limitBytes / PAGE_SIZE) a.memoryTop
    if top < count then (none, a)
    else
      let start := alignDown (top - count) align
      let free := fun start => (List.range' start count).all (bitClear a.bitmap)
      a.take count (searchAligned free align (start / align) start)

/-- `contiguous_aligned` (memory.rs:412): windows of whole bytes. -/
def contiguousAligned (count align : Nat) : Option Nat × FrameAllocator :=
  if count = 0 ∨ count % 8 ≠ 0 ∨ align < 8 ∨ ¬ align.isPowerOfTwo then (none, a)
  else
    let top := min a.memoryTop a.frames
    if top < count then (none, a)
    else
      let start := alignDown (top - count) align
      let free := fun start =>
        ((a.bitmap.drop (start / 8)).take ((start + count) / 8 - start / 8)).all (· == 0)
      a.take count (searchAligned free align (start / align) start)

/-- `deallocate_contiguous` (memory.rs:433). -/
def deallocateContiguous (base count : Nat) : FrameAllocator :=
  a.forFrames setFree (base / PAGE_SIZE) (base / PAGE_SIZE + count)

end FrameAllocator

/-! ## The memory map -/

abbrev UEFI_BOOT_SERVICES_CODE : Nat := 3
abbrev UEFI_BOOT_SERVICES_DATA : Nat := 4
abbrev UEFI_CONVENTIONAL_MEMORY : Nat := 7

/-- `MemoryRegion` (boot_info.rs:34). -/
structure MemoryRegion where
  physicalStart : Nat
  pageCount : Nat
  uefiType : Nat
  deriving DecidableEq, Repr

namespace MemoryRegion

/-- `is_usable` (boot_info.rs:48). -/
def isUsable (r : MemoryRegion) : Bool :=
  r.uefiType == UEFI_CONVENTIONAL_MEMORY || r.uefiType == UEFI_BOOT_SERVICES_CODE ||
    r.uefiType == UEFI_BOOT_SERVICES_DATA

/-- `page_count * PAGE_SIZE` -/
def length (r : MemoryRegion) : Nat := r.pageCount * PAGE_SIZE % 2 ^ 64

/-- `physical_start + page_count * PAGE_SIZE` -/
def last (r : MemoryRegion) : Nat := (r.physicalStart + r.length) % 2 ^ 64

end MemoryRegion

variable (regions : List MemoryRegion)

/-- `usable_regions` (boot_info.rs:101). -/
def usableRegions : List MemoryRegion :=
  regions.filter fun r => r.isUsable && decide (0 < r.pageCount)

/-- `u64::next_multiple_of`. -/
def nextMultipleOf (n m : Nat) : Nat := (n + m - 1) / m * m % 2 ^ 64

/-- Where a bitmap of `bytes` goes: the first conventional region above 1 MiB that
holds it (memory.rs:222). -/
def bitmapHome (bytes : Nat) : Option Nat :=
  (((regions.filter fun r => r.uefiType == UEFI_CONVENTIONAL_MEMORY).map fun r =>
    (nextMultipleOf (max r.physicalStart 0x100000) PAGE_SIZE, r.last)).find? fun be =>
      decide ((be.1 + bytes) % 2 ^ 64 ≤ be.2) &&
        decide ((be.1 + bytes) % 2 ^ 64 ≤ IDENTITY_MAX)).map Prod.fst

/-- The length of the bitmap, and the part of memory set aside for it
(memory.rs:211-237). -/
def bitmapPlace : Nat × Option (Nat × Nat) :=
  let top := min (((usableRegions regions).map fun r => r.last / PAGE_SIZE).foldl max 0) MAX_FRAMES
  let need := (top + 7) / 8
  if STATIC_FRAMES / 8 < need then
    let bytes := nextMultipleOf need PAGE_SIZE
    match bitmapHome regions bytes with
    | some base => (need, some (base, bytes))
    | none => (STATIC_FRAMES / 8, none)
  else (STATIC_FRAMES / 8, none)

/-- `init` (memory.rs:206). -/
def init : FrameAllocator :=
  let (len, carved) := bitmapPlace regions
  let a : FrameAllocator := ⟨List.replicate len 0, 0, 0, 0⟩
  let a := (usableRegions regions).foldl
    (fun a r => if r.length = 0 then a else a.markRegionFree r.physicalStart r.length) a.markAllUsed
  let a := a.markRegionUsed 0 0x100000
  match carved with
  | some (base, bytes) => a.markRegionUsed base bytes
  | none => a

end NopeekOS.Mm
