import NopeekOS.Wasm.Guards

/-!
# The file system behind the host calls (`npkfs/fs.rs`, `npkfs/mod.rs`)

The store with its current root. A mutation runs a function of the path layer on
the root and commits the root it returns; one that fails leaves the root. Storage
does not fail here, as in the path layer. The range reader's chunk cache and the
split of its reads over cores are left out: they do not change the bytes.
-/

namespace NopeekOS.Wasm

open Lib.FaultState
open Lib hiding Byte
open Storage Storage.Paths

variable {A : ObjectAddress} {α : Type}

/-- The store and its committed root. -/
structure Fs (A : ObjectAddress) where
  store : ObjectStore A
  root : Hash

/-- Computations on the file system. -/
abbrev FsM (A : ObjectAddress) := FaultState (Fs A) PathError

namespace Fs

/-- Run a function of the path layer on the current root. -/
def onRoot (x : Hash → PathM A α) : FsM A α := fun fs =>
  let r := x fs.root fs.store
  (r.1, { fs with store := r.2 })

/-- The same for a mutation, whose root is committed. -/
def commit (x : Hash → PathM A Hash) : FsM A Unit := fun fs =>
  match x fs.root fs.store with
  | (.ok root, st) => (.ok (), ⟨st, root⟩)
  | (.error e, st) => (.error e, ⟨st, fs.root⟩)

/-- `Err(PathError::NotFound) => Ok(None)`. -/
def found (x : FsM A α) : FsM A (Option α) := fun fs =>
  match x fs with
  | (.ok a, fs') => (.ok (some a), fs')
  | (.error .notFound, fs') => (.ok none, fs')
  | (.error e, fs') => (.error e, fs')

/-- `stat` (fs.rs:70). -/
def stat (path : List Byte) : FsM A (Option WalkOk) := found (onRoot fun root => walk root path)

/-- `list` (fs.rs:152). -/
def list (path : List Byte) : FsM A (Option (List TreeEntry)) :=
  found (onRoot fun root => Paths.list root path)

/-- `write` (fs.rs:165). -/
def write (now : Nat) (path data : List Byte) : FsM A Unit :=
  commit fun root => Paths.store now root path data

/-- `mkdir` (fs.rs:195). -/
def mkdir (now : Nat) (path : List Byte) : FsM A Unit := commit fun root => Paths.mkdir now root path

/-- `ensure_dir` (fs.rs:205). -/
def ensureDir (now : Nat) (path : List Byte) : FsM A Unit := do
  match ← stat path with
  | some w => if w.kind = .dir then pure () else fault .alreadyExists
  | none => mkdir now path

/-- The loop of `ensure_dirs`: `acc` are the segments made so far. -/
def ensureDirsFrom (now : Nat) : (acc segs : List Name) → FsM A Unit
  | _, [] => pure ()
  | acc, seg :: segs => do
    ensureDir now (joinPath (acc ++ [seg]))
    ensureDirsFrom now (acc ++ [seg]) segs

/-- `ensure_dirs` (fs.rs:263). -/
def ensureDirs (now : Nat) (path : List Byte) : FsM A Unit := do
  ensureDirsFrom now [] (← ofExcept (parsePath path))

/-- `delete` (fs.rs:220): idempotent on a missing path. -/
def deletePath (path : List Byte) : FsM A Unit := do
  let _ ← found (commit fun root => Paths.delete root path)

/-- `rename` (fs.rs:235). -/
def renamePath (old new : List Byte) : FsM A Unit := commit fun root => Paths.rename root old new

/-- `copy` (fs.rs:249). -/
def copyPath (now : Nat) (old new : List Byte) : FsM A Unit :=
  commit fun root => Paths.copy now root old new

/-! ## Names (`mod.rs`) -/

/-- `validate` (mod.rs:279). -/
def validate (path : List Byte) : FsM A Unit :=
  if path.isEmpty || path.any (· == 0) then fault .invalidPath else pure ()

/-- `exists_inner` (mod.rs:285). -/
def existsInner (path : List Byte) : FsM A Bool := fun fs =>
  match stat path fs with
  | (.ok (some _), fs') => (.ok true, fs')
  | (_, fs') => (.ok false, fs')

/-- `path.rfind('/')` and the part before it. -/
def parentOf (path : List Byte) : Option (List Byte) :=
  if path.contains SLASH then some ((path.rdropWhile (· != SLASH)).dropLast) else none

/-- `if let Some(slash) = path.rfind('/') { ensure_dirs(parent)? }`. -/
def ensureParents (now : Nat) (path : List Byte) : FsM A Unit :=
  match parentOf path with
  | some parent => ensureDirs now parent
  | none => pure ()

/-- `upsert` (mod.rs:140). -/
def upsert (now : Nat) (name data : List Byte) : FsM A Unit := do
  let path := trimSlashes name
  validate path
  ensureParents now path
  write now path data

/-- `delete` (mod.rs:216). -/
def delete (name : List Byte) : FsM A Unit := do
  let path := trimSlashes name
  validate path
  if !(← existsInner path) then fault .notFound
  deletePath path

/-- `rename` (mod.rs:225). -/
def rename (old new : List Byte) : FsM A Unit := do
  let old := trimSlashes old
  let new := trimSlashes new
  validate old
  validate new
  if !(← existsInner old) then fault .notFound
  if ← existsInner new then fault .alreadyExists
  renamePath old new

/-- `copy` (mod.rs:237). -/
def copy (now : Nat) (old new : List Byte) : FsM A Unit := do
  let old := trimSlashes old
  let new := trimSlashes new
  validate old
  validate new
  if !(← existsInner old) then fault .notFound
  if ← existsInner new then fault .alreadyExists
  copyPath now old new

/-- `walk_recursive` (mod.rs:312) as far as `tree_bytes` uses it: the sizes of the files it found,
after those in `out`, and whether an error ended it. `fuel` bounds the depth. -/
def walkRecursive : (fuel : Nat) → (path : List Byte) → (out : List Nat) → FsM A (List Nat × Bool)
  | 0, _, out => pure (out, true)
  | fuel + 1, path, out => fun fs =>
    match list path fs with
    | (.error _, fs') => (.ok (out, true), fs')
    | (.ok none, fs') => (.ok (out, false), fs')
    | (.ok (some entries), fs') =>
      entries.foldlM (fun r e =>
        let full := if path.isEmpty then e.name else path ++ SLASH :: e.name
        if r.2 || under (joinPath [DOT_SYSTEM]) full then pure r
        else if e.kind = .file then pure (r.1 ++ [e.size], false)
        else walkRecursive fuel full r.1) (out, false) fs'

/-- `tree_bytes` (mod.rs:115). After an error it sums the files found so far. -/
def treeBytes (fuel : Nat) (name : List Byte) : FsM A Nat := fun fs =>
  let path := trimSlashes name
  match stat path fs with
  | (.ok (some w), fs') =>
    if w.kind = .file then (.ok w.size, fs')
    else (do let r ← walkRecursive fuel path []; pure r.1.sum : FsM A Nat) fs'
  | (_, fs') => (.ok 0, fs')

/-! ## Readers and writers -/

/-- `RangeReader` (fs.rs:640): the object of the file as it was at open. -/
inductive RangeReader where
  | whole (bytes : List Byte)
  | chunked (total : Nat) (chunks : List Hash)
  deriving DecidableEq, Repr

/-- `size` (fs.rs:699). -/
def RangeReader.size : RangeReader → Nat
  | .whole bytes => bytes.length
  | .chunked total _ => total

/-- The bytes of an object as they are encoded: the budget of an open is compared
with their number. -/
abbrev EncodedSize := Object → Nat

/-- `RangeReader::open` (fs.rs:663). -/
def RangeReader.open (encoded : EncodedSize) (path : List Byte) (budget : Nat) :
    FsM A RangeReader := do
  match ← stat path with
  | none => fault .notFound
  | some w =>
    if w.kind ≠ .file then fault .notADirectory
    else do
      match ← gets fun fs => fs.store.get w.hash with
      | none => fault .corrupt
      | some o =>
        if budget < encoded o then fault (.storage .outOfMemory)
        else match o with
          | .blob bytes => pure (.whole bytes)
          | .chunked total chunks => pure (.chunked total chunks)
          | .tree _ => fault .corrupt

/-- `open_range` (mod.rs:180). -/
def openRange (encoded : EncodedSize) (name : List Byte) (budget : Nat) : FsM A RangeReader := do
  let path := trimSlashes name
  validate path
  RangeReader.open encoded path budget

/-- The chunks of a chunked file that meet `[offset, last)`, cut to it. A chunk
longer than the budget is refused, and the chunks must add up to `total`. -/
def readChunks (st : ObjectStore A) (total offset last budget : Nat) :
    (start : Nat) → List Hash → Except PathError (List Byte)
  | start, [] => if start < last then .error .corrupt else .ok []
  | start, c :: cs =>
    if last ≤ start then .ok []
    else match st.blob c with
      | none => .error .corrupt
      | some piece =>
        let next := start + piece.length
        if total < next || (cs.isEmpty && next != total) then .error .corrupt
        else if next ≤ offset then readChunks st total offset last budget next cs
        else if budget < piece.length then .error (.storage .outOfMemory)
        else do
          let rest ← readChunks st total offset last budget next cs
          .ok ((piece.take (last - start)).drop (offset - start) ++ rest)

/-- `read_at` (fs.rs:721). -/
def RangeReader.readAt (reader : RangeReader) (offset len budget : Nat) : FsM A (List Byte) :=
  if reader.size ≤ offset || len = 0 then pure []
  else
    let last := min (offset + len) reader.size
    match reader with
    | .whole bytes => pure ((bytes.take last).drop offset)
    | .chunked total chunks => fun fs => (readChunks fs.store total offset last budget 0 chunks, fs)

/-- `StreamingWriter` (fs.rs:908). -/
structure StreamingWriter where
  path : List Byte
  buf : List Byte
  chunkHashes : List Hash
  written : Nat
  deriving DecidableEq, Repr

/-- `written` (fs.rs:918). -/
def StreamingWriter.bytes (w : StreamingWriter) : Nat := w.written + w.buf.length

/-- Put an object unless it is there. -/
def putIfAbsent (o : Object) : FsM A Hash := onRoot fun _ => Paths.putIfAbsent o

/-- `flush_chunk` (fs.rs:966). -/
def StreamingWriter.flushChunk (w : StreamingWriter) : FsM A StreamingWriter :=
  if w.buf.isEmpty then pure w
  else do
    let hash ← putIfAbsent (.blob w.buf)
    pure { w with
      buf := []
      chunkHashes := w.chunkHashes ++ [hash]
      written := w.written + w.buf.length }

/-- `write` (fs.rs:922); `fuel` bounds the turns of its loop. -/
def StreamingWriter.writeFrom : (fuel : Nat) → StreamingWriter → List Byte → FsM A StreamingWriter
  | 0, w, _ => pure w
  | fuel + 1, w, remaining =>
    if remaining.isEmpty then pure w
    else do
      let take := min (STREAMING_CHUNK_SIZE - w.buf.length) remaining.length
      let w := { w with buf := w.buf ++ remaining.take take }
      let w ← if STREAMING_CHUNK_SIZE ≤ w.buf.length then w.flushChunk else pure w
      writeFrom fuel w (remaining.drop take)

/-- `write` (fs.rs:922). A turn takes at least one byte. -/
def StreamingWriter.write (w : StreamingWriter) (data : List Byte) : FsM A StreamingWriter :=
  w.writeFrom data.length data

/-- `finish` (fs.rs:992). -/
def StreamingWriter.finish (now : Nat) (w : StreamingWriter) : FsM A Unit := do
  let w ← w.flushChunk
  let manifestHash ← putIfAbsent (.chunked w.written w.chunkHashes)
  commit fun root => installChunkedFile now root w.path manifestHash w.written

/-- `open_streaming_write` (mod.rs:205). -/
def openStreamingWrite (now : Nat) (name : List Byte) : FsM A StreamingWriter := do
  let path := trimSlashes name
  validate path
  ensureParents now path
  pure ⟨path, [], [], 0⟩

end Fs

end NopeekOS.Wasm
