import NopeekOS.Lib.ContentStore
import NopeekOS.Storage.Types

/-!
# Objects of the content-addressed store (`storage/npkfs/object.rs`)

Blobs, directory trees and chunk manifests, each kept under the keyed hash of its
encoding. The encoding is injective and the hash is taken to be, so the address
is an injective function of the object (`Addressing`), and it is never the
all-zero `EMPTY_ROOT`. Hashes are natural numbers, of which there are enough for
such a function.

Names and paths are byte strings, ordered as `str::cmp` orders them.
-/

namespace NopeekOS.Storage

open Lib

abbrev Byte := Fin 256

instance byte_neZero : NeZero 256 := ⟨by decide⟩

/-- A path component. -/
abbrev Name := List Byte

/-- `sys` -/
abbrev SYS : Name := [115, 121, 115]
/-- `.system` -/
abbrev DOT_SYSTEM : Name := [46, 115, 121, 115, 116, 101, 109]
/-- `PRIVATE_ROOT`, `priv` (wasm.rs:1266). -/
abbrev PRIVATE_ROOT : Name := [112, 114, 105, 118]
/-- `ext::ROOT`, `ext` (ext.rs:27), under which external volumes are mounted. -/
abbrev EXT_ROOT : Name := [101, 120, 116]

/-- Longest name component, in bytes (object.rs:23). -/
abbrev MAX_NAME_LEN : Nat := 255

/-- `EntryKind` (object.rs:32). -/
inductive EntryKind where
  | file
  | dir
  deriving DecidableEq, Repr

/-- `TreeEntry` (object.rs:62). -/
structure TreeEntry where
  name : Name
  hash : Hash
  kind : EntryKind
  size : Nat
  mtime : Nat
  flags : Nat
  deriving DecidableEq, Repr

namespace TreeEntry

/-- The file is a manifest whose chunks are objects of their own. -/
abbrev FLAG_CHUNKED : Nat := 1
/-- The file is one blob. -/
abbrev FLAG_BLOB : Nat := 2

end TreeEntry

/-- `Object` (object.rs:89). -/
inductive Object where
  | blob (data : List Byte)
  | tree (entries : List TreeEntry)
  | chunked (totalSize : Nat) (chunks : List Hash)
  deriving DecidableEq, Repr

/-- `ObjectError` (object.rs:99). -/
inductive ObjectError where
  | encode
  | decode
  | invalidName
  | locked
  deriving DecidableEq, Repr

/-- `/` -/
abbrev SLASH : Byte := 47

/-- `validate_name` (object.rs:126). -/
def validateName (name : Name) : Except ObjectError Unit :=
  if name.isEmpty || MAX_NAME_LEN < name.length then .error .invalidName
  else if name.any fun b => b == 0 || b == SLASH then .error .invalidName
  else .ok ()

namespace Object

/-- `tree_sorted` (object.rs:141). -/
def treeSorted (entries : List TreeEntry) : Except ObjectError Object := do
  entries.forM fun e => validateName e.name
  .ok (.tree (entries.insertionSort fun a b => a.name ≤ b.name))

end Object

/-- Addresses of objects; `null` is `EMPTY_ROOT` (paths.rs:29). -/
abbrev ObjectAddress := Addressing Object Hash

/-- The object store as the path layer sees it. -/
abbrev ObjectStore (A : ObjectAddress) := ContentStore A

namespace ObjectStore

variable {A : ObjectAddress}

/-- A blob of the store. -/
def blob (st : ObjectStore A) (h : Hash) : Option (List Byte) :=
  match st.get h with
  | some (.blob data) => some data
  | _ => none

/-- The bytes of a file: those of its blob, or of its chunks if they add up
(`read_with_hash` and `stitch_chunked`, fs.rs:98 and 800). -/
def content (st : ObjectStore A) (h : Hash) : Option (List Byte) :=
  match st.get h with
  | some (.blob data) => some data
  | some (.chunked totalSize chunks) =>
    match chunks.mapM st.blob with
    | some pieces => if pieces.flatten.length = totalSize then some pieces.flatten else none
    | none => none
  | _ => none

end ObjectStore

end NopeekOS.Storage
