import NopeekOS.Lib.Word

/-!
# The heap (`mm/heap.rs`)

Segregated free lists with boundary tags. Memory is a function from addresses to
machine words; the allocator only touches words at multiples of eight. A block has
its size in its first word, with bit 0 set if it is free, and again in its last
word; a free block has the two pointers of its list in between, an allocated one the
way back from the payload to the block.

The regions are kept as a list here (in the source they are linked through their
headers, which are outside of all blocks). The counters are statistics and left out.
-/

namespace NopeekOS.Mm

open Lib Function

abbrev BLOCK_ALIGN : Nat := 16
/-- `REGION_HDR` (heap.rs:35). -/
abbrev REGION_HDR : Nat := 16
/-- `TAG` (heap.rs:38). -/
abbrev TAG : Nat := 8
/-- `FREE_BIT` (heap.rs:40). -/
abbrev FREE_BIT : Nat := 1
/-- `SENTINEL` (heap.rs:42). -/
abbrev SENTINEL : Nat := 16
/-- `HEADER_SIZE` (heap.rs:44): two words. -/
abbrev HEADER_SIZE : Nat := 16
/-- `MIN_BLOCK_SIZE` (heap.rs:46). -/
abbrev MIN_BLOCK_SIZE : Nat := 32
/-- `NBINS` (heap.rs:70). -/
abbrev NBINS : Nat := 52

/-- The loop of `bin_of`; `n` is the number of bins above `b`. -/
def binFrom (size : Nat) : (n b s : Nat) → Nat
  | 0, b, _ => b
  | n + 1, b, s => if s * 2 ≤ size then binFrom size n (b + 1) (s * 2) else b

/-- `bin_of` (heap.rs:73). -/
def binOf (size : Nat) : Nat :=
  if size < 512 then size / 16 else binFrom size (NBINS - 1 - 32) 32 512

/-- `core::alloc::Layout`: the alignment is a power of two, and the size rounded up
to it does not exceed `isize::MAX`. -/
structure Layout where
  size : Nat
  align : Nat
  pow : align.isPowerOfTwo
  bound : size + align ≤ 2 ^ 63

/-- Words by address. -/
abbrev Words := Nat → Nat

namespace Heap

/-- `tag_of` (heap.rs:115). -/
def tagOf (mem : Words) (block : Nat) : Nat := mem block

/-- `size_of_block` (heap.rs:121): `tag & !FREE_BIT`. -/
def sizeOfBlock (mem : Words) (block : Nat) : Nat := alignDown (tagOf mem block) (FREE_BIT + 1)

/-- `is_free` (heap.rs:127). -/
def isFree (mem : Words) (block : Nat) : Bool := tagOf mem block &&& FREE_BIT != 0

/-- `set_tags` (heap.rs:135). -/
def setTags (mem : Words) (block size : Nat) (free : Bool) : Words :=
  update (update mem block (size ||| if free then FREE_BIT else 0))
    (block + size - TAG) size

/-- `prev_size` (heap.rs:145). -/
def prevSize (mem : Words) (block : Nat) : Nat := mem (block - TAG)

end Heap

/-- `Heap` (heap.rs:102), with the memory it lies in. A region is its start and end. -/
structure Heap where
  mem : Words
  bins : Nat → Nat
  regions : List (Nat × Nat)
  totalSize : Nat
  allocatedBytes : Nat

namespace Heap

variable (h : Heap)

/-- `empty` (heap.rs:152). -/
def empty (mem : Words) : Heap := ⟨mem, fun _ => 0, [], 0, 0⟩

/-- `bin_push` (heap.rs:166). A node has its `prev` in its first word and its `next`
in the second. -/
def binPush (block size : Nat) : Heap :=
  let b := binOf size
  let node := block + TAG
  let mem := update (update h.mem node 0) (node + 8) (h.bins b)
  let mem := if h.bins b ≠ 0 then update mem (h.bins b) node else mem
  { h with mem := mem, bins := update h.bins b node }

/-- `bin_remove` (heap.rs:187). -/
def binRemove (block size : Nat) : Heap :=
  let b := binOf size
  let node := block + TAG
  let p := h.mem node
  let n := h.mem (node + 8)
  let mem := if p = 0 then h.mem else update h.mem (p + 8) n
  let mem := if n = 0 then mem else update mem n p
  { h with mem := mem, bins := if p = 0 then update h.bins b n else h.bins }

/-- `add_region` (heap.rs:209). -/
def addRegion (region size : Nat) : Heap :=
  let start := region + REGION_HDR
  let body := size - REGION_HDR - 2 * SENTINEL
  let mem := setTags h.mem start SENTINEL false
  let mem := setTags mem (start + SENTINEL + body) SENTINEL false
  let mem := setTags mem (start + SENTINEL) body true
  binPush { h with
    mem := mem
    regions := (region, region + size) :: h.regions
    totalSize := h.totalSize + size } (start + SENTINEL) body

/-- `init` (heap.rs:200). -/
def init (start size : Nat) : Heap := addRegion { h with allocatedBytes := 0 } start size

/-- `contains` (heap.rs:227). -/
def contains (addr : Nat) : Bool := h.regions.any fun r => decide (r.1 ≤ addr) && decide (addr < r.2)

/-- `need_for` (heap.rs:253): the payload and the size of a block for it. -/
def needFor (blockStart size align : Nat) : Nat × Nat :=
  let data := alignUp (blockStart + TAG + HEADER_SIZE) align
  let total := max (alignUp ((data - blockStart) + size + TAG) BLOCK_ALIGN) MIN_BLOCK_SIZE
  (data, total)

/-- The walk over one bin (heap.rs:282): the first block that is large enough. `fuel`
bounds its steps. -/
def walkBin (size align : Nat) : (fuel node : Nat) → Option Nat
  | 0, _ => none
  | fuel + 1, node =>
    if node = 0 then none
    else
      let block := node - TAG
      if (needFor block size align).2 ≤ sizeOfBlock h.mem block then some block
      else walkBin size align fuel (h.mem (node + 8))

/-- The walk over `n` bins from `b` on (heap.rs:280). -/
def walkBins (size align : Nat) : (n b : Nat) → Option Nat
  | 0, _ => none
  | n + 1, b => (h.walkBin size align h.totalSize (h.bins b)).or (walkBins size align n (b + 1))

/-- Take a free block for a payload (heap.rs:290-315): the tail is split off if it is
large enough for a block. -/
def place (block size align : Nat) : Nat × Heap :=
  let bsize := sizeOfBlock h.mem block
  let (data, need) := needFor block size align
  let h := h.binRemove block bsize
  let rest := bsize - need
  let (actual, h) :=
    if MIN_BLOCK_SIZE ≤ rest then
      let mem := setTags h.mem block need false
      let mem := setTags mem (block + need) rest true
      (need, binPush { h with mem := mem } (block + need) rest)
    else (bsize, { h with mem := setTags h.mem block bsize false })
  let mem := update (update h.mem (data - HEADER_SIZE) block)
    (data - HEADER_SIZE + 8) actual
  (data, { h with mem := mem, allocatedBytes := h.allocatedBytes + actual })

/-- `try_allocate` (heap.rs:260). The null pointer is `none`. -/
def tryAllocate (layout : Layout) : Option Nat × Heap :=
  let size := layout.size
  let align := max layout.align BLOCK_ALIGN
  let dataOff := alignUp (TAG + HEADER_SIZE) align
  let lower := max (alignUp (dataOff + size + TAG) BLOCK_ALIGN) MIN_BLOCK_SIZE
  let first := binOf lower
  match h.walkBins size align (NBINS - first) first with
  | none => (none, h)
  | some block =>
    let (data, h) := h.place block size align
    (some data, h)

/-- `allocate` (heap.rs:239). `grown` is the region that `grow` got from the frame
allocator, if it got one. -/
def allocate (layout : Layout) (grown : Option (Nat × Nat)) : Option Nat × Heap :=
  match h.tryAllocate layout with
  | (some data, h) => (some data, h)
  | (none, h) =>
    match grown with
    | some (base, size) => (h.addRegion base size).tryAllocate layout
    | none => (none, h)

/-- The merge with the block behind (heap.rs:368). -/
def coalesceNext (block size : Nat) : Nat × Heap :=
  let next := block + size
  if isFree h.mem next then
    let ns := sizeOfBlock h.mem next
    (size + ns, h.binRemove next ns)
  else (size, h)

/-- The merge with the block in front (heap.rs:376). -/
def coalescePrev (block size : Nat) : Nat × Nat × Heap :=
  let ps := prevSize h.mem block
  if ps ≠ SENTINEL ∧ isFree h.mem (block - ps) = true then
    (block - ps, size + ps, h.binRemove (block - ps) ps)
  else (block, size, h)

/-- `deallocate` (heap.rs:349). -/
def deallocate (ptr : Nat) : Heap :=
  if ptr = 0 then h
  else if !h.contains ptr then h
  else
    let block := h.mem (ptr - HEADER_SIZE)
    let size := h.mem (ptr - HEADER_SIZE + 8)
    if !h.contains block then h
    else
      let h := { h with allocatedBytes := h.allocatedBytes - size }
      let (size, h) := h.coalesceNext block size
      let (block, size, h) := h.coalescePrev block size
      binPush { h with mem := setTags h.mem block size true } block size

end Heap

end NopeekOS.Mm
