import NopeekOS.Lib.FaultState
import NopeekOS.Storage.Object

/-!
# The path layer (`storage/npkfs/paths.rs`)

Functions from a root hash and a path to a new root hash, over the object store.
They only ever put objects. A call that fails may leave objects behind that no
root leads to; the store of a `FaultState` computation keeps them.

Storage itself never fails here: what is modelled is the name space on top of it.
The cache of decoded trees (`tree_cache`) is keyed by content address and is left
out. The clock read by `now_unix` is an argument.
-/

namespace NopeekOS.Storage

open Lib FaultState

/-- `PathError` (paths.rs:32). -/
inductive PathError where
  | invalidPath
  | notFound
  | notADirectory
  | alreadyExists
  | notEmpty
  | corrupt
  | storage (e : FsError)
  deriving DecidableEq, Repr

/-- `WalkOk` (paths.rs:57). -/
structure WalkOk where
  hash : Hash
  kind : EntryKind
  size : Nat
  mtime : Nat
  deriving DecidableEq, Repr

/-- Size above which a file is stored in chunks (fs.rs:587). -/
abbrev STREAMING_CHUNK_SIZE : Nat := 1024 * 1024

/-- `u64::MAX` -/
abbrev U64_MAX : Nat := 2 ^ 64 - 1

namespace Paths

/-- `.` -/
abbrev DOT : Name := [46]
/-- `..` -/
abbrev DOT_DOT : Name := [46, 46]

/-- Computations of the path layer. -/
abbrev PathM (A : ObjectAddress) := FaultState (ObjectStore A) PathError

/-! ## Path parsing -/

/-- The checks of `parse_path` on one component. -/
def checkSegment (s : Name) : Except PathError Unit :=
  if s.isEmpty then .error .invalidPath
  else if s.any (· == 0) then .error .invalidPath
  else if s == DOT || s == DOT_DOT then .error .invalidPath
  else if MAX_NAME_LEN < s.length then .error .invalidPath
  else .ok ()

/-- `parse_path` (paths.rs:74). -/
def parsePath (path : List Byte) : Except PathError (List Name) := do
  let trimmed := (path.dropWhile (· == SLASH)).rdropWhile (· == SLASH)
  if trimmed.isEmpty then return []
  let out := trimmed.splitOn SLASH
  out.forM checkSegment
  if out.head? == some EXT_ROOT then .error .invalidPath
  else .ok out

variable {A : ObjectAddress}

/-! ## Trees -/

/-- `fetch_tree` (paths.rs:95). -/
def fetchTree (hash : Hash) : PathM A (List TreeEntry) :=
  if hash = A.null then pure []
  else fun st =>
    match st.get hash with
    | some (.tree entries) => (.ok entries, st)
    | some _ => (.error .notADirectory, st)
    | none => (.error .corrupt, st)

/-- `storage::put` of an object under its address. -/
def putObject (o : Object) : PathM A Hash := do
  modify fun st => st.put o
  pure (A.addr o)

/-- `if !storage::has(&hash) { storage::put(..) }`. -/
def putIfAbsent (o : Object) : PathM A Hash := do
  if (← gets fun st => st.get (A.addr o)).isSome then pure (A.addr o)
  else putObject o

/-- The sum of the entries' sizes, with `saturating_add`. -/
def recursiveSize (entries : List TreeEntry) : Nat :=
  entries.foldl (fun acc e => min (acc + e.size) U64_MAX) 0

/-- `store_tree` (paths.rs:120). -/
def storeTree (entries : List TreeEntry) : PathM A (Hash × Nat) := do
  match Object.treeSorted entries with
  | .error _ => fault .corrupt
  | .ok obj => pure (← putObject obj, recursiveSize entries)

/-! ## Walking -/

/-- `entries.iter().find(|e| e.name == *seg)`. -/
def findEntry (entries : List TreeEntry) (seg : Name) : Option TreeEntry :=
  entries.find? fun e => e.name == seg

/-- The loop of `walk` (paths.rs:153). -/
def walkFrom : (hash : Hash) → (seg : Name) → (segs : List Name) → PathM A WalkOk
  | hash, seg, segs => do
    let entries ← fetchTree hash
    match findEntry entries seg with
    | none => fault .notFound
    | some entry =>
      match segs with
      | [] => pure ⟨entry.hash, entry.kind, entry.size, entry.mtime⟩
      | seg' :: segs =>
        if entry.kind ≠ .dir then fault .notADirectory
        else walkFrom entry.hash seg' segs

variable (root : Hash)

/-- `walk` (paths.rs:141). -/
def walk (path : List Byte) : PathM A WalkOk := do
  match ← ofExcept (parsePath path) with
  | [] => do
    let entries ← fetchTree root
    pure ⟨root, .dir, recursiveSize entries, 0⟩
  | seg :: segs => walkFrom root seg segs

/-- The loop of `list` (paths.rs:488). -/
def listFrom : (hash : Hash) → (segs : List Name) → PathM A (List TreeEntry)
  | hash, [] => fetchTree hash
  | hash, seg :: segs => do
    let entries ← fetchTree hash
    match findEntry entries seg with
    | none => fault .notFound
    | some entry =>
      if entry.kind ≠ .dir then fault .notADirectory
      else listFrom entry.hash segs

/-- `list` (paths.rs:486). -/
def list (path : List Byte) : PathM A (List TreeEntry) := do
  listFrom root (← ofExcept (parsePath path))

/-- The loop of `walk_for_mutation` (paths.rs:188): the trees from `cur` on. -/
def walkTrees : (cur : List TreeEntry) → (segs : List Name) → PathM A (List (List TreeEntry))
  | cur, [] => pure [cur]
  | cur, seg :: segs => do
    match findEntry cur seg with
    | none => fault .notFound
    | some entry =>
      if entry.kind ≠ .dir then fault .notADirectory
      else do
        let next ← fetchTree entry.hash
        pure (cur :: (← walkTrees next segs))

/-- `walk_for_mutation` (paths.rs:181). -/
def walkForMutation (parentSegs : List Name) : PathM A (List (List TreeEntry)) := do
  walkTrees (← fetchTree root) parentSegs

/-! ## Rebuilding -/

/-- Point the entry `seg` at a new tree: the first one of that name, if any. -/
def setEntry (seg : Name) (hash size : Nat) : List TreeEntry → Option (List TreeEntry)
  | [] => none
  | e :: es =>
    if e.name == seg then some ({ e with hash := hash, size := size } :: es)
    else (setEntry seg hash size es).map (e :: ·)

/-- One turn of the loop of `rebuild_up`: an ancestor with its new child. -/
def rebuildStep (cur : Hash × Nat) (anc : Name × List TreeEntry) : PathM A (Hash × Nat) :=
  match setEntry anc.1 cur.1 cur.2 anc.2 with
  | none => fault .corrupt
  | some entries => storeTree entries

/-- `rebuild_up` (paths.rs:200). The last tree is the leaf, which is replaced; the
others are taken from the innermost to the root. -/
def rebuildUp (parentSegs : List Name) (trees : List (List TreeEntry))
    (newLeaf : List TreeEntry) : PathM A Hash := do
  let leaf ← storeTree newLeaf
  let top ← (parentSegs.zip trees).reverse.foldlM rebuildStep leaf
  pure top.1

/-- `insert_entry_at` (paths.rs:238). -/
def insertEntryAt (segs : List Name) (newEntry : TreeEntry) (allowReplace : Bool) :
    PathM A Hash := do
  match segs.getLast? with
  | none => fault .invalidPath
  | some name =>
    let trees ← walkForMutation root segs.dropLast
    let leaf := trees.getLastD []
    match findEntry leaf name with
    | some existing =>
      if !(allowReplace && existing.kind == newEntry.kind) then fault .alreadyExists
      else rebuildUp segs.dropLast trees ((leaf.filter fun e => e.name != name) ++ [newEntry])
    | none => rebuildUp segs.dropLast trees (leaf ++ [newEntry])

/-- `remove_entry_at` (paths.rs:265). -/
def removeEntryAt (segs : List Name) (requireEmptyDir : Bool) : PathM A (TreeEntry × Hash) := do
  match segs.getLast? with
  | none => fault .invalidPath
  | some name =>
    let trees ← walkForMutation root segs.dropLast
    let leaf := trees.getLastD []
    match findEntry leaf name with
    | none => fault .notFound
    | some entry =>
      if requireEmptyDir && entry.kind == .dir then
        if !(← fetchTree entry.hash).isEmpty then fault .notEmpty
      let newRoot ← rebuildUp segs.dropLast trees (leaf.eraseP fun e => e.name == name)
      pure (entry, newRoot)

/-! ## Public mutations -/

/-- `data.chunks(size)`; `fuel` bounds the number of chunks. -/
def chunksFrom (size : Nat) : (fuel : Nat) → List Byte → List (List Byte)
  | 0, _ => []
  | fuel + 1, data =>
    if data.isEmpty then [] else data.take size :: chunksFrom size fuel (data.drop size)

/-- `data.chunks(STREAMING_CHUNK_SIZE)`. -/
def chunks (data : List Byte) : List (List Byte) :=
  chunksFrom STREAMING_CHUNK_SIZE data.length data

/-- `install_chunked_file` (paths.rs:367). -/
def installChunkedFile (now : Nat) (root : Hash) (path : List Byte) (manifestHash totalSize : Nat) :
    PathM A Hash := do
  let segs ← ofExcept (parsePath path)
  match segs.getLast? with
  | none => fault .invalidPath
  | some name =>
    insertEntryAt root segs
      ⟨name, manifestHash, .file, totalSize, now, TreeEntry.FLAG_CHUNKED⟩ true

/-- `store_chunked` (paths.rs:333). The chunks are put by several cores; each put
only adds its own object. -/
def storeChunked (now : Nat) (root : Hash) (path data : List Byte) : PathM A Hash := do
  let hashes ← (chunks data).mapM fun piece => putIfAbsent (.blob piece)
  let manifestHash ← putObject (.chunked data.length hashes)
  installChunkedFile now root path manifestHash data.length

/-- `store` (paths.rs:295). -/
def store (now : Nat) (root : Hash) (path data : List Byte) : PathM A Hash := do
  let segs ← ofExcept (parsePath path)
  match segs.getLast? with
  | none => fault .invalidPath
  | some name =>
    if STREAMING_CHUNK_SIZE < data.length then storeChunked now root path data
    else do
      let blobHash ← putIfAbsent (.blob data)
      insertEntryAt root segs
        ⟨name, blobHash, .file, data.length, now, TreeEntry.FLAG_BLOB⟩ true

/-- `mkdir` (paths.rs:390). -/
def mkdir (now : Nat) (root : Hash) (path : List Byte) : PathM A Hash := do
  let segs ← ofExcept (parsePath path)
  match segs.getLast? with
  | none => fault .invalidPath
  | some name =>
    let hash ← putObject (.tree [])
    insertEntryAt root segs ⟨name, hash, .dir, 0, now, 0⟩ false

/-- `delete` (paths.rs:419). -/
def delete (path : List Byte) : PathM A Hash := do
  let segs ← ofExcept (parsePath path)
  if segs.isEmpty then fault .invalidPath
  else do
    let (_, newRoot) ← removeEntryAt root segs true
    pure newRoot

/-- `rename` (paths.rs:428). -/
def rename (old new : List Byte) : PathM A Hash := do
  let oldSegs ← ofExcept (parsePath old)
  let newSegs ← ofExcept (parsePath new)
  match newSegs.getLast? with
  | none => fault .invalidPath
  | some name =>
    if oldSegs.isEmpty then fault .invalidPath
    else if oldSegs = newSegs then pure root
    else if oldSegs.length < newSegs.length && newSegs.take oldSegs.length == oldSegs then
      fault .invalidPath
    else do
      let (entry, root₁) ← removeEntryAt root oldSegs false
      insertEntryAt root₁ newSegs { entry with name := name } false

/-- `copy` (paths.rs:456). -/
def copy (now : Nat) (root : Hash) (old new : List Byte) : PathM A Hash := do
  let oldSegs ← ofExcept (parsePath old)
  let newSegs ← ofExcept (parsePath new)
  match oldSegs.getLast?, newSegs.getLast? with
  | some oldName, some name =>
    if oldSegs = newSegs then fault .alreadyExists
    else do
      let trees ← walkForMutation root oldSegs.dropLast
      match findEntry (trees.getLastD []) oldName with
      | none => fault .notFound
      | some src => insertEntryAt root newSegs { src with name := name, mtime := now } false
  | _, _ => fault .invalidPath

end Paths

end NopeekOS.Storage
