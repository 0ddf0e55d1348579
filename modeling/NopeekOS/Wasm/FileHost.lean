import NopeekOS.Wasm.Fs

/-!
# The file host calls (`wasm/host_core.rs`)

What a module can do with files. A call is given its name and data as already read
from guest memory, and answers with what it writes there; a name that cannot be
read is answered with -1 by every call and is left out, as are the audit journal
and the console.

Everything a call asks of the rest of the kernel is its `Env`: which rights the
module's capability has at that moment, the path grants, the clock, the free space
and memory. External volumes (`ext/`) are another machine that never sees the
store: a call on such a name is one request to it.
-/

namespace NopeekOS.Wasm

open Lib hiding Byte
open Storage Storage.Paths Security

/-- What a call writes back: a code, or bytes and their number. -/
inductive Reply where
  /-- -1 -/
  | denied
  /-- A number from 0 on: done, a handle, a count. -/
  | code (n : Nat)
  | bytes (data : List Byte)
  /-- `too_small`: -(needed + 2) -/
  | tooSmall (needed : Nat)
  deriving DecidableEq, Repr

/-- What the kernel answers during one call. -/
structure Env where
  /-- `capability::holds` of the module's capability. -/
  holds : Rights → Bool
  grants : List PathGrant
  now : Nat
  /-- `room_for` -/
  room : Nat → Bool
  /-- The private area's quota in bytes. -/
  quota : Nat
  /-- `file_budget` -/
  budget : Nat
  /-- Depth to which a directory is searched. -/
  fuel : Nat
  encoded : Fs.EncodedSize

/-- A request to the external volumes. -/
inductive ExtRequest where
  | fetch (name : List Byte) (max : Nat)
  | store (name data : List Byte)
  | open (name : List Byte)
  | read (name : List Byte) (offset len : Nat)
  | create (name : List Byte)
  | write (name data : List Byte)
  | close (name : List Byte)
  | abort (name : List Byte)
  | stat (name : List Byte)
  | list (name : List Byte) (recursive : Bool) (max : Nat)
  | writable (name : List Byte)
  | mkdir (name : List Byte)
  | delete (name : List Byte)
  | rename (old new : List Byte)

/-- The external volumes. -/
structure ExtMachine where
  State : Type
  handle : ExtRequest → State → Reply × State

/-- `OpenFile` (host_core.rs:2918). -/
inductive OpenFile where
  | ext (name : List Byte)
  | extWrite (name : List Byte)
  | read (name : List Byte) (reader : Fs.RangeReader)
  | write (name : List Byte) (writer : Fs.StreamingWriter) (committed : Option (Hash × Nat))
  deriving DecidableEq, Repr

/-- `FILES_PER_MODULE` (host_core.rs:2958). -/
abbrev FILES_PER_MODULE : Nat := 32

/-- The module's state (`HostState`), the file system and the external volumes. -/
structure World (A : ObjectAddress) (X : ExtMachine) where
  module : Name
  cap : CapId
  files : List (Option OpenFile)
  fs : Fs A
  ext : X.State

variable {A : ObjectAddress} {X : ExtMachine}

namespace World

variable (w : World A X)

/-- Run a computation on the file system. -/
def run {α : Type} (w : World A X) (x : FsM A α) : Except PathError α × World A X :=
  let r := x w.fs
  (r.1, { w with fs := r.2 })

/-- One request to the external volumes. -/
def ask (r : ExtRequest) : Reply × World A X :=
  let a := X.handle r w.ext
  (a.1, { w with ext := a.2 })

/-- `Ok(_) => 0, Err(_) => -1`. -/
def runUnit {α : Type} (w : World A X) (x : FsM A α) : Reply × World A X :=
  match w.run x with
  | (.ok _, w') => (.code 0, w')
  | (.error _, w') => (.denied, w')

variable (env : Env)

/-- `ext_allowed` (host_core.rs:2456). -/
def extAllowed (name : List Byte) (want : Rights) : Bool :=
  (env.holds Rights.EXTERNAL && env.holds want) ||
    PathGrants.checkPathGrant env.grants w.cap (trimSlashes name) want

/-- `read_allowed` (host_core.rs:2498). -/
def readAllowed (name : List Byte) : Bool :=
  if isExt name then w.extAllowed env name Rights.READ
  else privateAreaAllows name w.module &&
    (isOwnPrivate name w.module || env.holds Rights.READ)

/-- `sys/config/<module>` -/
def ownConfig : List Byte := joinPath [SYS, CONFIG, w.module]

/-- `write_allowed` (host_core.rs:2778): `some true` if only through the private
area. -/
def writeAllowed (name : List Byte) : Option Bool × World A X :=
  if isExt name then
    if !w.extAllowed env name Rights.WRITE then (none, w)
    else match w.ask (.writable name) with
      | (.code _, w') => (some false, w')
      | (_, w') => (none, w')
  else if isTrustCriticalPath name then (none, w)
  else if !privateAreaAllows name w.module then (none, w)
  else if env.holds Rights.WRITE || PathGrants.checkPathGrant env.grants w.cap name Rights.WRITE ||
      (name == w.ownConfig && w.module != EXT_MODULE) then (some false, w)
  else if isOwnPrivate name w.module then (some true, w)
  else (none, w)

/-- `private_pending` (host_core.rs:2850). -/
def privatePending : Nat :=
  (w.files.map fun f => match f with
    | some (.write name writer _) => if isOwnPrivate name w.module then writer.bytes else 0
    | _ => 0).sum

/-- `private_quota_ok` (host_core.rs:2860). -/
def privateQuotaOk (committed len : Nat) : Bool :=
  decide (committed + w.privatePending + len ≤ env.quota)

/-- `private_committed` (host_core.rs:2871). -/
def privateCommitted (name : List Byte) : FsM A Nat := do
  let area ← Fs.treeBytes env.fuel (joinPath [PRIVATE_ROOT, w.module])
  let file ← Fs.treeBytes env.fuel name
  pure (area - file)

/-- `write_whole` into a buffer of `max` bytes. -/
def writeWhole (max : Nat) (data : List Byte) : Reply :=
  if max < data.length then .tooSmall data.length else .bytes data

/-! ## Whole files -/

/-- `npk_fetch` (host_core.rs:2527). -/
def fetch (name : List Byte) (max : Nat) : Reply × World A X :=
  if !w.readAllowed env name then (.denied, w)
  else if isExt name then w.ask (.fetch name max)
  else match w.run (Fs.openRange env.encoded name env.budget) with
    | (.error _, w') => (.denied, w')
    | (.ok reader, w') =>
      if max < reader.size then (.tooSmall reader.size, w')
      else match w'.run (reader.readAt 0 reader.size env.budget) with
        | (.ok data, w'') => (.bytes data, w'')
        | (.error _, w'') => (.denied, w'')

/-- The quota test of `npk_store`, if the write goes through the private area. -/
def quotaFor (byPrivate : Bool) (name : List Byte) (len : Nat) : Bool × World A X :=
  if byPrivate then
    match w.run (w.privateCommitted env name) with
    | (.ok committed, w') => (w'.privateQuotaOk env committed len, w')
    | (.error _, w') => (false, w')
  else (true, w)

/-- `npk_store` (host_core.rs:2876). -/
def store (name data : List Byte) : Reply × World A X :=
  match w.writeAllowed env name with
  | (none, w) => (.denied, w)
  | (some byPrivate, w) =>
    if isExt name then w.ask (.store name data)
    else if !env.room data.length then (.denied, w)
    else match w.quotaFor env byPrivate name data.length with
      | (false, w) => (.denied, w)
      | (true, w) => w.runUnit (Fs.upsert env.now name data)

/-! ## Open files -/

/-- `file_slot` (host_core.rs:2972). -/
def fileSlot : Option (Nat × World A X) :=
  match w.files.findIdx? Option.isNone with
  | some i => some (i, w)
  | none =>
    if FILES_PER_MODULE ≤ w.files.length then none
    else some (w.files.length, { w with files := w.files ++ [none] })

/-- Put a file into a slot. -/
def setFile (i : Nat) (f : Option OpenFile) : World A X :=
  { w with files := w.files.set i f }

/-- `npk_file_open` (host_core.rs:2993). -/
def fileOpen (name : List Byte) : Reply × World A X :=
  if !w.readAllowed env name then (.denied, w)
  else if isExt name then
    match w.ask (.open name) with
    | (.code _, w) =>
      match w.fileSlot with
      | none => (.denied, w)
      | some (i, w) => (.code i, w.setFile i (some (.ext name)))
    | (_, w) => (.denied, w)
  else match w.fileSlot with
    | none => (.denied, w)
    | some (i, w) =>
      match w.run (Fs.openRange env.encoded name env.budget) with
      | (.error _, w) => (.denied, w)
      | (.ok reader, w) => (.code i, w.setFile i (some (.read name reader)))

/-- `npk_file_read` (host_core.rs:3015). -/
def fileRead (handle offset max : Nat) : Reply × World A X :=
  match w.files[handle]?.join with
  | some (.read name reader) =>
    if !w.readAllowed env name then (.denied, w)
    else match w.run (reader.readAt offset max env.budget) with
      | (.ok data, w) => (.bytes data, w)
      | (.error _, w) => (.denied, w)
  | some (.ext name) =>
    if !w.readAllowed env name then (.denied, w) else w.ask (.read name offset max)
  | _ => (.denied, w)

/-- `npk_file_create` (host_core.rs:3059). -/
def fileCreate (name : List Byte) : Reply × World A X :=
  match w.writeAllowed env name with
  | (none, w) => (.denied, w)
  | (some _, w) =>
    match w.fileSlot with
    | none => (.denied, w)
    | some (i, w) =>
      if isExt name then
        match w.ask (.create name) with
        | (.code _, w) => (.code i, w.setFile i (some (.extWrite name)))
        | (_, w) => (.denied, w)
      else if env.budget < STREAMING_CHUNK_SIZE then (.denied, w)
      else match w.run (Fs.openStreamingWrite env.now name) with
        | (.error _, w) => (.denied, w)
        | (.ok writer, w) => (.code i, w.setFile i (some (.write name writer none)))

/-- What the private area holds besides the file, from the cache if the root is
still the one it was computed for (host_core.rs:3107-3121). -/
def committedFor (handle : Nat) (name : List Byte) (writer : Fs.StreamingWriter)
    (cached : Option (Hash × Nat)) : Option Nat × World A X :=
  match cached with
  | some (root, bytes) => if root = w.fs.root then (some bytes, w) else fresh w
  | none => fresh w
where
  fresh (w : World A X) : Option Nat × World A X :=
    match w.run (w.privateCommitted env name) with
    | (.ok bytes, w') =>
      (some bytes, w'.setFile handle (some (.write name writer (some (w'.fs.root, bytes)))))
    | (.error _, w') => (none, w')

/-- `npk_file_write` (host_core.rs:3082). -/
def fileWrite (handle : Nat) (data : List Byte) : Reply × World A X :=
  match w.files[handle]?.join with
  | some (.extWrite name) =>
    match w.writeAllowed env name with
    | (none, w) => (.denied, w)
    | (some _, w) => w.ask (.write name data)
  | some (.write name writer cached) =>
    match w.writeAllowed env name with
    | (none, w) => (.denied, w)
    | (some byPrivate, w) =>
      if !env.room data.length then (.denied, w)
      else
        let (ok, w) := if byPrivate then
            match w.committedFor env handle name writer cached with
            | (some committed, w) => (w.privateQuotaOk env committed data.length, w)
            | (none, w) => (false, w)
          else (true, w)
        if !ok then (.denied, w)
        else match w.run (writer.write data), w.files[handle]?.join with
          | (.ok writer, w), some (.write name _ cached) =>
            (.code data.length, w.setFile handle (some (.write name writer cached)))
          | (_, w), _ => (.denied, w)
  | _ => (.denied, w)

/-- `npk_file_close` (host_core.rs:3131). -/
def fileClose (handle : Nat) : Reply × World A X :=
  match w.files[handle]?.join with
  | none => (.denied, w)
  | some file =>
    let w := w.setFile handle none
    match file with
    | .write name writer _ =>
      match w.writeAllowed env name with
      | (none, w) => (.denied, w)
      | (some _, w) => w.runUnit (writer.finish env.now)
    | .extWrite name =>
      match w.writeAllowed env name with
      | (none, w) => (.denied, (w.ask (.abort name)).2)
      | (some _, w) => w.ask (.close name)
    | .read _ _ => (.code 0, w)
    | .ext _ => (.code 0, w)

/-- `npk_file_abort` (host_core.rs:3159). -/
def fileAbort (handle : Nat) : Reply × World A X :=
  match w.files[handle]?.join with
  | none => (.denied, w)
  | some (.extWrite name) => (.code 0, ((w.setFile handle none).ask (.abort name)).2)
  | some _ => (.code 0, w.setFile handle none)

/-! ## The tree -/

/-- `n.to_le_bytes()` of a `u64`. -/
def leBytes (n : Nat) : List Byte := (List.range 8).map fun i => Fin.ofNat 256 (n / 256 ^ i)

/-- `append_entry` (wasm.rs:1422). -/
def appendEntry (out : List Byte) (name : List Byte) (size : Nat) (isDir : Bool) (mtime : Nat) :
    List Byte :=
  (if out.isEmpty then out else out ++ [10]) ++ name ++ [0] ++ leBytes size ++ [0] ++
    [if isDir then 1 else 0] ++ [0] ++ leBytes mtime

/-- `full_of`: a name below a directory. -/
def below (base rel : List Byte) : List Byte := if base.isEmpty then rel else base ++ SLASH :: rel

/-- The recursive search of `npk_fs_list` (host_core.rs:4035): the visible entries
below `abs`, with their names relative to the directory asked for. -/
def dfs (module : Name) : (fuel : Nat) → (abs rel out : List Byte) → FsM A (List Byte)
  | 0, _, _, _ => FaultState.fault .corrupt
  | fuel + 1, abs, rel, out => do
    match ← Fs.list abs with
    | none => pure out
    | some entries =>
      entries.foldlM (fun out e =>
        if !privateAreaAllows (below abs e.name) module then pure out
        else match e.kind with
          | .file => pure (appendEntry out (below rel e.name) e.size false e.mtime)
          | .dir => dfs module fuel (below abs e.name) (below rel e.name)
              (appendEntry out (below rel e.name) 0 true e.mtime)) out

/-- `npk_fs_list` (host_core.rs:3961). -/
def fsList (name : List Byte) (recursive : Bool) (max : Nat) : Reply × World A X :=
  if isExt name then
    if !w.extAllowed env name Rights.READ then (.denied, w) else w.ask (.list name recursive max)
  else if !env.holds Rights.READ then (.denied, w)
  else if !privateAreaAllows (trimSlashes name) w.module then (.denied, w)
  else if recursive then
    match w.run (dfs w.module env.fuel (trimSlashes name) [] []) with
    | (.ok out, w) => (writeWhole max out, w)
    | (.error _, w) => (.denied, w)
  else match w.run (Fs.list (trimSlashes name)) with
    | (.error _, w) => (.denied, w)
    | (.ok entries, w) =>
      let out := (entries.getD []).foldl (fun out e =>
        if !privateAreaAllows (below (trimSlashes name) e.name) w.module then out
        else appendEntry out e.name e.size (e.kind == .dir) e.mtime) []
      (writeWhole max out, w)

/-- `npk_fs_stat` (host_core.rs:4133). -/
def fsStat (name : List Byte) : Reply × World A X :=
  if !env.holds Rights.READ then (.denied, w)
  else if isExt name then
    if !w.extAllowed env name Rights.READ then (.denied, w) else w.ask (.stat name)
  else if !privateAreaAllows name w.module then (.denied, w)
  else match w.run (Fs.stat name) with
    | (.ok (some s), w) =>
      (.bytes (leBytes s.size ++ [if s.kind = .dir then 1 else 0] ++ leBytes s.mtime), w)
    | (.ok none, w) => (.code 0, w)
    | (.error _, w) => (.denied, w)

/-- `npk_fs_delete` (host_core.rs:5267). -/
def fsDelete (name : List Byte) : Reply × World A X :=
  if !env.holds Rights.WRITE then (.denied, w)
  else if isExt name then
    match w.writeAllowed env name with
    | (none, w) => (.denied, w)
    | (some _, w) => w.ask (.delete name)
  else if isTrustCriticalPath name then (.denied, w)
  else if !privateAreaAllows name w.module then (.denied, w)
  else w.runUnit (Fs.delete name)

/-- `npk_fs_mkdir` (host_core.rs:5301). -/
def fsMkdir (name : List Byte) : Reply × World A X :=
  if !env.holds Rights.WRITE then (.denied, w)
  else if isExt name then
    match w.writeAllowed env name with
    | (none, w) => (.denied, w)
    | (some _, w) => w.ask (.mkdir name)
  else if isTrustCriticalPath name then (.denied, w)
  else if !privateAreaAllows name w.module then (.denied, w)
  else w.runUnit (Fs.mkdir env.now name)

/-- `npk_fs_rename` (host_core.rs:5327). -/
def fsRename (old new : List Byte) : Reply × World A X :=
  if !env.holds Rights.WRITE then (.denied, w)
  else if isExt old || isExt new then
    match w.writeAllowed env old with
    | (none, w) => (.denied, w)
    | (some _, w) =>
      match w.writeAllowed env new with
      | (none, w) => (.denied, w)
      | (some _, w) => w.ask (.rename old new)
  else if isTrustCriticalPath old || isTrustCriticalPath new then (.denied, w)
  else if !privateAreaAllows old w.module || !privateAreaAllows new w.module then (.denied, w)
  else w.runUnit (Fs.rename old new)

/-- `npk_fs_copy` (host_core.rs:5373). -/
def fsCopy (old new : List Byte) : Reply × World A X :=
  if !env.holds Rights.WRITE then (.denied, w)
  else if isExt old || isExt new then (.denied, w)
  else if isTrustCriticalPath old || isTrustCriticalPath new then (.denied, w)
  else if !privateAreaAllows old w.module || !privateAreaAllows new w.module then (.denied, w)
  else w.runUnit (Fs.copy env.now old new)

end World

/-- A file host call with its arguments. -/
inductive HostCall where
  | fetch (name : List Byte) (max : Nat)
  | store (name data : List Byte)
  | fileOpen (name : List Byte)
  | fileRead (handle offset max : Nat)
  | fileCreate (name : List Byte)
  | fileWrite (handle : Nat) (data : List Byte)
  | fileClose (handle : Nat)
  | fileAbort (handle : Nat)
  | fsList (name : List Byte) (recursive : Bool) (max : Nat)
  | fsStat (name : List Byte)
  | fsDelete (name : List Byte)
  | fsMkdir (name : List Byte)
  | fsRename (old new : List Byte)
  | fsCopy (old new : List Byte)
  deriving DecidableEq, Repr

/-- One call of the module. -/
def World.call (w : World A X) (env : Env) : HostCall → Reply × World A X
  | .fetch name max => w.fetch env name max
  | .store name data => w.store env name data
  | .fileOpen name => w.fileOpen env name
  | .fileRead handle offset max => w.fileRead env handle offset max
  | .fileCreate name => w.fileCreate env name
  | .fileWrite handle data => w.fileWrite env handle data
  | .fileClose handle => w.fileClose env handle
  | .fileAbort handle => w.fileAbort handle
  | .fsList name recursive max => w.fsList env name recursive max
  | .fsStat name => w.fsStat env name
  | .fsDelete name => w.fsDelete env name
  | .fsMkdir name => w.fsMkdir env name
  | .fsRename old new => w.fsRename env old new
  | .fsCopy old new => w.fsCopy env old new

end NopeekOS.Wasm
