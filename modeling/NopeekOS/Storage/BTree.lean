import NopeekOS.Storage.Format

/-!
# The copy-on-write B-tree (`storage/npkfs/btree.rs`)

Keyed by content hashes, `BTreeEntry` in the leaves. Every change writes new
nodes up to a new root and returns the blocks of the old ones.

The path array with its depth is a list, innermost parent first; the descent is
bounded by how much of `MAX_TREE_DEPTH` is left. The loops that shift slots are
written as what they do to the list of slots. `checks` is the build mode: the
two subtractions of `remove_from_parent` can leave their range, and there a
build without checks reads the slot before the first one, which is the
`right_child` field of the header.
-/

namespace NopeekOS.Storage

open Lib FaultState

abbrev MAX_TREE_DEPTH : Nat := 8

namespace BTree

/-- `read_node` (btree.rs:117). -/
def readNode (block : Nat) : FsM Node := fun v =>
  match v.blocks block with
  | .node n => (.ok n, v)
  | _ => (.error (.fs .corrupt), v)

/-- `write_node` (btree.rs:124). -/
def writeNode (block : Nat) (n : Node) : FsM Unit := writeBlock block (.node n)

/-- `read_node` of a block of the path (btree.rs:516, 563, 690), which was an internal node on
the way down. Its kind is not looked at again: were it a leaf by now, its bytes would be taken for
slots, and the model ends there. -/
def readInternal (block : Nat) : FsM Internal := do
  match ← readNode block with
  | .internal nd => pure nd
  | .leaf _ => fault .misread

/-- Write a node into a fresh block. -/
def writeFresh (n : Node) : FsM Nat := do
  let block ← allocBlock
  writeNode block n
  pure block

/-! ## Lookup -/

/-- The loop of `lookup` (btree.rs:150). -/
def lookupFrom (key : Hash) : (levels : Nat) → (block : Nat) → FsM (Option BTreeEntry)
  | 0, _ => fault (.fs .treeTooDeep)
  | levels + 1, block => do
    match ← readNode block with
    | .leaf entries => pure (entries.find? fun e => e.hash == key)
    | .internal nd => lookupFrom key levels (nd.findChildWithIdx key).2

/-- `lookup` (btree.rs:143). -/
def lookup (root : Nat) (key : Hash) : FsM (Option BTreeEntry) :=
  if root = 0 then pure none else lookupFrom key MAX_TREE_DEPTH root

/-! ## The way back up -/

variable (nd : Internal)

/-- Point slot `idx` of a parent at `child`; the rightmost child is in the
header. -/
def setChild (idx child : Nat) : Internal :=
  if idx < nd.count then
    { nd with slots := nd.slots.modify idx fun slot => (slot.1, child) }
  else { nd with rightChild := child }

/-- `fixup_path` (btree.rs:501): propagate a new child pointer up the path. -/
def fixupPath : (path : List (Nat × Nat)) → (newChild : Nat) → (oldBlocks : List Nat) →
    FsM (Nat × List Nat)
  | [], newChild, oldBlocks => pure (newChild, oldBlocks)
  | (parent, idx) :: path, newChild, oldBlocks => do
    let nd ← readInternal parent
    let newParent ← writeFresh (.internal (setChild nd idx newChild))
    fixupPath path newParent (oldBlocks ++ [parent])

/-- The loop that moves slots `pos..n` one to the right. -/
def shiftRight (slots : List (Hash × Nat)) (pos n : Nat) : List (Hash × Nat) :=
  slots.take (pos + 1) ++ (slots.take n).drop pos ++ slots.drop (n + 1)

/-- The loop that moves slots `idx + 1..n` one to the left. -/
def shiftLeft (slots : List (Hash × Nat)) (idx n : Nat) : List (Hash × Nat) :=
  slots.take idx ++ (slots.take n).drop (idx + 1) ++ slots.drop (n - 1)

/-- `(0..n).find(|&i| split_key < internal_key(i)).unwrap_or(n)`. -/
def splitPos (splitKey : Hash) : Nat :=
  ((List.range nd.count).find? fun i => decide (splitKey < nd.key i)).getD nd.count

/-- A parent with room takes the two halves of a split child (btree.rs:573). -/
def insertSplit (left right : Nat) (splitKey : Hash) : Internal :=
  let n := nd.count
  let pos := splitPos nd splitKey
  if pos = n then
    { numEntries := n + 1, rightChild := right, slots := nd.slots.set n (splitKey, left) }
  else
    let slots := (shiftRight nd.slots pos n).set pos (splitKey, left)
    { nd with
      numEntries := n + 1
      slots := slots.modify (pos + 1) fun slot => (slot.1, right) }

/-- The merge loop of `split_internal` (btree.rs:624). -/
def mergeKey (newKey : Hash) (newLeft : Nat) : List (Hash × Nat) → List (Hash × Nat)
  | [] => [(newKey, newLeft)]
  | (key, child) :: rest =>
    if newKey < key then (newKey, newLeft) :: (key, child) :: rest
    else (key, child) :: mergeKey newKey newLeft rest

/-- The entries and the rightmost child `split_internal` distributes
(btree.rs:622-646). -/
def splitEntries (newKey : Hash) (newLeft newRight : Nat) : List (Hash × Nat) × Nat :=
  let entries := mergeKey newKey newLeft (nd.slots.take nd.count)
  let insertPos := entries.findIdx fun e => e.1 == newKey
  if insertPos = entries.length - 1 then (entries, newRight)
  else (entries.modify (insertPos + 1) fun e => (e.1, newRight), nd.rightChild)

/-- A fresh internal node with these slots. -/
def freshInternal (entries : List (Hash × Nat)) (rightChild : Nat) : Internal where
  numEntries := entries.length
  rightChild := rightChild
  slots := Internal.fillSlots entries

/-- `split_internal` (btree.rs:614): the middle key goes up. -/
def splitInternal (newKey : Hash) (newLeft newRight : Nat) : FsM (Nat × Nat × Hash) := do
  let (entries, rightmost) := splitEntries nd newKey newLeft newRight
  let mid := entries.length / 2
  let promoted := entries.getD mid (0, 0)
  let leftBlock ← allocBlock
  let rightBlock ← allocBlock
  writeNode leftBlock (.internal (freshInternal (entries.take mid) promoted.2))
  writeNode rightBlock (.internal (freshInternal (entries.drop (mid + 1)) rightmost))
  pure (leftBlock, rightBlock, promoted.1)

/-- `fixup_path_split` (btree.rs:541): propagate a split up the path. -/
def fixupPathSplit : (path : List (Nat × Nat)) → (left right : Nat) → (splitKey : Hash) →
    (oldBlocks : List Nat) → FsM (Nat × List Nat)
  | [], left, right, splitKey, oldBlocks => do
    -- the tree grows: a new root with one key
    let root ← writeFresh (.internal (freshInternal [(splitKey, left)] right))
    pure (root, oldBlocks)
  | (parent, _) :: path, left, right, splitKey, oldBlocks => do
    let nd ← readInternal parent
    if nd.count < MAX_INTERNAL_KEYS then
      let newParent ← writeFresh (.internal (insertSplit nd left right splitKey))
      fixupPath path newParent (oldBlocks ++ [parent])
    else
      let (intLeft, intRight, intKey) ← splitInternal nd splitKey left right
      fixupPathSplit path intLeft intRight intKey (oldBlocks ++ [parent])

/-! ## Insert -/

/-- `find_leaf_insert_pos` (btree.rs:417). -/
def leafInsertPos (entries : List BTreeEntry) (key : Hash) : Nat :=
  (entries.findIdx? fun e => decide (key < e.hash)).getD entries.length

/-- The merge loop of `split_leaf` (btree.rs:458). -/
def mergeEntry (new : BTreeEntry) : List BTreeEntry → List BTreeEntry
  | [] => [new]
  | e :: rest => if new.hash < e.hash then new :: e :: rest else e :: mergeEntry new rest

/-- `split_leaf` (btree.rs:449). -/
def splitLeaf (entries : List BTreeEntry) (new : BTreeEntry) : FsM (Nat × Nat × Hash) := do
  let all := mergeEntry new entries
  let mid := all.length / 2
  let leftBlock ← allocBlock
  let rightBlock ← allocBlock
  writeNode leftBlock (.leaf (all.take mid))
  writeNode rightBlock (.leaf (all.drop mid))
  pure (leftBlock, rightBlock, ((all.drop mid).map BTreeEntry.hash).headD 0)

/-- The leaf case of `insert` (btree.rs:207). -/
def insertLeaf (root block : Nat) (path : List (Nat × Nat)) (entries : List BTreeEntry)
    (entry : BTreeEntry) : FsM (Nat × List Nat × Bool) := do
  if entries.any fun e => e.hash == entry.hash then pure (root, [], false)
  else if entries.length < MAX_LEAF_ENTRIES then
    let newBlock ← writeFresh
      (.leaf (entries.insertIdx (leafInsertPos entries entry.hash) entry))
    let (newRoot, frees) ← fixupPath path newBlock [block]
    pure (newRoot, frees, true)
  else
    let (left, right, splitKey) ← splitLeaf entries entry
    let (newRoot, frees) ← fixupPathSplit path left right splitKey [block]
    pure (newRoot, frees, true)

/-- The descent of `insert` (btree.rs:200), with `levels` left below. -/
def insertFrom (root : Nat) (entry : BTreeEntry) :
    (levels : Nat) → (block : Nat) → (path : List (Nat × Nat)) → FsM (Nat × List Nat × Bool)
  | levels, block, path => do
    match ← readNode block with
    | .leaf entries => insertLeaf root block path entries entry
    | .internal nd =>
      match levels with
      | 0 => fault (.fs .treeTooDeep)
      | levels + 1 =>
        let (idx, child) := nd.findChildWithIdx entry.hash
        insertFrom root entry levels child ((block, idx) :: path)

/-- `insert` (btree.rs:178): the new root, the blocks to free, and whether the
hash was new. -/
def insert (root : Nat) (entry : BTreeEntry) : FsM (Nat × List Nat × Bool) :=
  if root = 0 then do
    let newBlock ← writeFresh (.leaf [entry])
    pure (newBlock, [], true)
  else insertFrom root entry (MAX_TREE_DEPTH - 1) root []

/-! ## Delete -/

/-- `internal_child(&buf, n - 1)` (btree.rs:719). Without a slot before it a
checked build panics; otherwise the index wraps to the header's `right_child`. -/
def lastChild (checks : Bool) (nd : Internal) : FsM Nat :=
  if nd.count = 0 then
    if checks then fault .panic else pure nd.rightChild
  else pure (nd.child (nd.count - 1))

/-- `num_entries -= 1` on the 16-bit field (btree.rs:721). -/
def decEntries (checks : Bool) (n : Nat) : FsM Nat :=
  if n = 0 then
    if checks then fault .panic else pure (2 ^ 16 - 1)
  else pure (n - 1)

/-- The parent without its child `idx` (btree.rs:712-722). -/
def removeChild (checks : Bool) (nd : Internal) (idx : Nat) : FsM Internal :=
  if idx < nd.count then do
    let numEntries ← decEntries checks nd.count
    pure { nd with numEntries, slots := shiftLeft nd.slots idx nd.count }
  else do
    -- removing the rightmost child promotes the one before it
    let rightChild ← lastChild checks nd
    let numEntries ← decEntries checks nd.count
    pure { nd with numEntries, rightChild }

/-- `remove_from_parent` (btree.rs:681). -/
def removeFromParent (checks : Bool) : (path : List (Nat × Nat)) → (oldBlocks : List Nat) →
    FsM (Nat × List Nat)
  | [], oldBlocks => pure (0, oldBlocks)
  | (parent, idx) :: path, oldBlocks => do
    let nd ← readInternal parent
    if nd.count ≤ 1 ∧ path = [] then
      -- a root with one key shrinks to the surviving child
      let remaining :=
        if idx = 0 then (if 0 < nd.count then nd.rightChild else 0) else nd.child 0
      pure (remaining, oldBlocks ++ [parent])
    else
      let newParent ← allocBlock
      let nd ← removeChild checks nd idx
      writeNode newParent (.internal nd)
      fixupPath path newParent (oldBlocks ++ [parent])

/-- The leaf case of `delete` (btree.rs:271). -/
def deleteLeaf (checks : Bool) (block : Nat) (path : List (Nat × Nat))
    (entries : List BTreeEntry) (key : Hash) : FsM (Nat × List Nat) :=
  match entries.findIdx? fun e => e.hash == key with
  | none => fault (.fs .objectNotFound)
  | some pos =>
    if entries.length = 1 ∧ path ≠ [] then removeFromParent checks path [block]
    else do
      let newBlock ← writeFresh (.leaf (entries.eraseIdx pos))
      if path = [] ∧ entries.length = 1 then pure (0, [block])
      else fixupPath path newBlock [block]

/-- The descent of `delete` (btree.rs:264). -/
def deleteFrom (checks : Bool) (key : Hash) :
    (levels : Nat) → (block : Nat) → (path : List (Nat × Nat)) → FsM (Nat × List Nat)
  | levels, block, path => do
    match ← readNode block with
    | .leaf entries => deleteLeaf checks block path entries key
    | .internal nd =>
      match levels with
      | 0 => fault (.fs .treeTooDeep)
      | levels + 1 =>
        let (idx, child) := nd.findChildWithIdx key
        deleteFrom checks key levels child ((block, idx) :: path)

/-- `delete` (btree.rs:253): the new root and the blocks to free. -/
def delete (checks : Bool) (root : Nat) (key : Hash) : FsM (Nat × List Nat) :=
  if root = 0 then fault (.fs .objectNotFound)
  else deleteFrom checks key (MAX_TREE_DEPTH - 1) root []

/-! ## Walk -/

/-- What `walk` reports (btree.rs:353). -/
inductive Walk where
  | entry (e : BTreeEntry)
  | child (block : Nat)
  | skip (block : Nat) (why : String)
  deriving DecidableEq, Repr

/-- The child pointers of an internal node, left to right, without zeros. -/
def children : List Nat :=
  ((nd.slots.take nd.count).map Prod.snd ++ [nd.rightChild]).filter fun c => c != 0

/-- The work-list loop of `walk` (btree.rs:367): `todo` has its top first. `none`
is a loop that needs more rounds than `fuel`. -/
def walkLoop (blocks : Nat → Content) : (fuel : Nat) → (todo : List (Nat × Nat)) →
    (seen : List Nat) → Option (List Walk)
  | _, [], _ => some []
  | 0, _ :: _, _ => none
  | fuel + 1, (block, depth) :: todo, seen =>
    if 64 < depth then
      (walkLoop blocks fuel todo seen).map (Walk.skip block "deeper than 64" :: ·)
    else if block ∈ seen then
      (walkLoop blocks fuel todo seen).map (Walk.skip block "visited twice" :: ·)
    else
      match blocks block with
      | .node (.leaf entries) =>
        (walkLoop blocks fuel todo (block :: seen)).map (entries.map Walk.entry ++ ·)
      | .node (.internal nd) =>
        let cs := children nd
        (walkLoop blocks fuel (cs.map (fun c => (c, depth + 1)) ++ todo) (block :: seen)).map
          (cs.map Walk.child ++ ·)
      | _ =>
        (walkLoop blocks fuel todo (block :: seen)).map
          (Walk.skip block "fails its checksum" :: ·)

/-- `iter_all` (btree.rs:308): the entries it reports, with enough rounds. -/
def iterAll (blocks : Nat → Content) (root fuel : Nat) : Option (List BTreeEntry) :=
  if root = 0 then some []
  else (walkLoop blocks fuel [(root, 0)] []).map fun ws => ws.filterMap fun
    | .entry e => some e
    | _ => none

end BTree

end NopeekOS.Storage
