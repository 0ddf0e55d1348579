import NopeekOS.Lib.ByteBits

/-!
# Shared types of npkFS (`storage/npkfs/types.rs`)

Block geometry, the error type and extents. Block numbers and counts are `u64`
in the source and `Nat` here; `Geometry` bounds them.
-/

namespace NopeekOS.Storage

open Lib

abbrev BLOCK_SIZE : Nat := 4096
abbrev SUPERBLOCK_SLOTS : Nat := 8
/-- Block 0 is reserved (MBR/GPT/UEFI). -/
abbrev SUPERBLOCK_START : Nat := 1
abbrev JOURNAL_START : Nat := SUPERBLOCK_START + SUPERBLOCK_SLOTS
abbrev JOURNAL_BLOCKS : Nat := 256
abbrev META_END : Nat := JOURNAL_START + JOURNAL_BLOCKS
abbrev MAX_JOURNAL_ENTRIES : Nat := (BLOCK_SIZE - 24) / 16

/-- `[u8; 32]`, ordered as the comparison of byte strings orders it. -/
abbrev Hash := Nat

/-- `FsError` (types.rs:59). The payload of `Disk` is the driver's and is left
out. -/
inductive FsError where
  | disk
  | notFormatted
  | notMounted
  | corrupt
  | objectNotFound
  | objectExists
  | nameTooLong
  | invalidName
  | reservedName
  | diskFull
  | treeTooDeep
  | tooManyExtents
  | locked
  | outOfMemory
  deriving DecidableEq, Repr

/-- A run of blocks (types.rs:26). -/
structure Extent where
  startBlock : Nat
  blockCount : Nat
  deriving DecidableEq, Repr

/-- The blocks of an extent. -/
def Extent.blocks (e : Extent) : List Nat := List.range' e.startBlock e.blockCount

theorem Extent.mem_blocks {e : Extent} {b : Nat} :
    b ∈ e.blocks ↔ e.startBlock ≤ b ∧ b < e.startBlock + e.blockCount := by
  simp [Extent.blocks]

/-- The layout a superblock describes: the bitmap has one bit per block and
ends before the data area, which ends with the disk. `mkfs` computes it and
`load_args` checks it before it reads a bitmap. -/
structure Geometry where
  totalBlocks : Nat
  bitmapStart : Nat
  bitmapCount : Nat
  dataStart : Nat
  total_lt : totalBlocks < 2 ^ 64
  count_eq : bitmapCount = (((totalBlocks + 7) / 8) + (BLOCK_SIZE - 1)) / BLOCK_SIZE
  bitmap_le : bitmapStart + bitmapCount ≤ dataStart
  data_le : dataStart ≤ totalBlocks

/-- `total_blocks.div_ceil(8)`, the bytes of the bitmap. -/
def Geometry.byteCount (g : Geometry) : Nat := (g.totalBlocks + 7) / 8

/-- The byte of every block of the disk is in the bitmap. -/
theorem Geometry.div_lt_byteCount (g : Geometry) {b : Nat} (h : b < g.totalBlocks) :
    b / 8 < g.byteCount := by
  unfold byteCount
  omega

/-- The data area of a disk that has blocks does not start at block 0. -/
theorem Geometry.dataStart_pos (g : Geometry) (h : 0 < g.totalBlocks) : 0 < g.dataStart := by
  have hcount : 0 < g.bitmapCount := by
    rw [g.count_eq]
    exact Nat.div_pos (by omega) (by decide)
  have := g.bitmap_le
  omega

end NopeekOS.Storage
