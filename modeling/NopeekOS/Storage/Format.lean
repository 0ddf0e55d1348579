import NopeekOS.Lib.FaultState
import NopeekOS.Storage.Bitmap

/-!
# npkFS on-disk format (`storage/npkfs/format.rs`)

What a block can hold is a type (`Content`), so a block read as something it was
not written as fails the way a bad magic or checksum does. Addresses of objects
are 32-byte hashes compared byte by byte: natural numbers here, with the
all-zero hash as `0`.

A leaf is its entries: slots past `num_entries` are never read. An internal node
keeps its slots past `num_entries`, since a count that wraps around brings them
back (`Internal.numEntries` is the raw 16-bit field, `Internal.count` what
`read_header` makes of it).
-/

namespace NopeekOS.Storage

open Lib

abbrev NODE_HEADER_SIZE : Nat := 16
abbrev CHECKSUM_SIZE : Nat := 32
abbrev LEAF_ENTRY_SIZE : Nat := 112
abbrev INTERNAL_ENTRY_SIZE : Nat := 40
abbrev MAX_INTERNAL_KEYS : Nat :=
  (BLOCK_SIZE - NODE_HEADER_SIZE - CHECKSUM_SIZE) / INTERNAL_ENTRY_SIZE
abbrev MAX_LEAF_ENTRIES : Nat :=
  (BLOCK_SIZE - NODE_HEADER_SIZE - CHECKSUM_SIZE) / LEAF_ENTRY_SIZE

/-- `BTreeEntryRaw` (format.rs:71): where an object's bytes are. -/
structure BTreeEntry where
  hash : Hash
  plaintextSize : Nat
  diskSize : Nat
  extentCount : Nat
  extents : List Extent
  indirectBlock : Nat
  deriving DecidableEq, Repr

/-- An internal node: `(key, child)` slots and the rightmost child. -/
structure Internal where
  numEntries : Nat
  rightChild : Nat
  slots : List (Hash × Nat)
  deriving DecidableEq, Repr

/-- A B-tree node whose magic and checksum verify. -/
inductive Node where
  | leaf (entries : List BTreeEntry)
  | internal (node : Internal)
  deriving DecidableEq, Repr

/-- What a block holds. -/
inductive Content where
  | node (n : Node)
  | other
  deriving DecidableEq, Repr

namespace Internal

/-- `num_entries` as `read_header` clamps it to the node's capacity
(btree.rs:43). -/
def count (nd : Internal) : Nat := min nd.numEntries MAX_INTERNAL_KEYS

/-- `internal_key` (btree.rs:78). -/
def key (nd : Internal) (i : Nat) : Hash := (nd.slots.getD i (0, 0)).1

/-- `internal_child` (btree.rs:83). -/
def child (nd : Internal) (i : Nat) : Nat := (nd.slots.getD i (0, 0)).2

/-- `find_child_with_idx` (btree.rs:407). -/
def findChildWithIdx (nd : Internal) (key : Hash) : Nat × Nat :=
  match (List.range nd.count).find? fun i => decide (key < nd.key i) with
  | some i => (i, nd.child i)
  | none => (nd.count, nd.rightChild)

/-- The slots of a zeroed node buffer with the first ones set. -/
def fillSlots (entries : List (Hash × Nat)) : List (Hash × Nat) :=
  entries ++ List.replicate (MAX_INTERNAL_KEYS - entries.length) (0, 0)

end Internal

/-- What stops a file system call: an error it returns, a panic, or a node taken for one of
another kind, where the model ends. -/
inductive Fault where
  | fs (e : FsError)
  | panic
  | misread
  deriving DecidableEq, Repr

/-- The block cache, seen through as what it serves for every block, and the
bitmap. -/
structure Vol where
  blocks : Nat → Content
  bm : Bitmap

/-- A call on the volume. -/
abbrev FsM (α : Type) := FaultState Vol Fault α

/-- `bitmap.alloc(1)?`. -/
def allocBlock : FsM Nat := fun v =>
  match v.bm.alloc 1 with
  | .ok (b, bm) => (.ok b, { v with bm })
  | .error e => (.error (.fs e), v)

/-- `cache.write(block, ..)?` on a device without errors. -/
def writeBlock (block : Nat) (c : Content) : FsM Unit :=
  FaultState.modify fun v => { v with blocks := Function.update v.blocks block c }

end NopeekOS.Storage
