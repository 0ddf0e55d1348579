import NopeekOS.Lib.LeBytes
import NopeekOS.Lib.Run

/-!
# The keyvault (`security/keyvault.rs`)

Secrets in one object of npkFS, in a system and a user tier, each under its own data key. Every
call loads the object, changes it in memory and writes it back whole; the unlocked user key is
kept in a session.

What a call meets outside is in its `Env`: whether the object can be read, what becomes of its
writes, whether the disk is unlocked, what is drawn at random. The ciphers are a
`Crypto`, of which nothing is assumed.
-/

namespace NopeekOS.Keyvault

open Lib

abbrev Bytes := List UInt8

abbrev TIER_SYSTEM : UInt8 := 0
abbrev TIER_USER : UInt8 := 1
abbrev SLOT_BYTES : Nat := 128
/-- `NPKVAULT`. -/
abbrev MAGIC : Bytes := [78, 80, 75, 86, 65, 85, 76, 84]
abbrev VERSION : Nat := 1
abbrev HEADER_LEN : Nat := 8 + 2 + 2 + SLOT_BYTES * 3 + 4

/-- The ciphers: `aead_encrypt_aad` and its inverse, and the keyslots (`crypto/keyslot.rs`),
which wrap a data key under the device key or a passphrase. The number stands for what is drawn
for a slot and the memory that the key derivation finds. -/
structure Crypto where
  Key : Type
  encrypt (key : Key) (nonce aad plaintext : Bytes) : Bytes
  decrypt (key : Key) (nonce aad ct : Bytes) : Option Bytes
  createDevice (r : Nat) (kek dek : Key) : Option Bytes
  unlockDevice (slot : Bytes) (kek : Key) : Option Key
  create (r : Nat) (pass : Bytes) (dek : Key) : Option Bytes
  unlock (r : Nat) (slot pass : Bytes) : Option Key

/-- What becomes of a write: `upsert` asks for the address of the object behind the write, so a
disk that is locked in between has the object stored and the call refused
(`npkfs/mod.rs`:140). -/
inductive Write where
  | stored
  | refused
  | late
  deriving DecidableEq, Repr

/-- What a call meets. -/
structure Env (C : Crypto) where
  read : Bool
  /-- The write of a fresh vault, and that of the change. -/
  created : Write
  write : Write
  /-- The disk is unlocked: `vault_subkey` gives the device key. -/
  unlocked : Bool
  draw : Nat → Nat
  sysDek : C.Key
  userDek : C.Key
  nonce : Bytes

structure Entry where
  tier : UInt8
  name : String
  nonce : Bytes
  ct : Bytes
  deriving DecidableEq, Repr

structure VaultFile where
  sysDevice : Bytes
  sysPass : Bytes
  usrPass : Bytes
  entries : List Entry
  deriving DecidableEq, Repr

/-- `keyslot::is_empty`. -/
def isEmpty (slot : Bytes) : Bool := slot.head? = some 0

def utf8 (name : String) : Bytes := name.toUTF8.data.toList

/-- `String::from_utf8`. -/
def fromUtf8 (b : Bytes) : Option String := String.fromUTF8? ⟨b.toArray⟩

/-- The entry of a name. -/
def Entry.at (tier : UInt8) (name : String) (e : Entry) : Bool := e.tier = tier && e.name = name

def aad (tier : UInt8) (name : String) : Bytes := tier :: utf8 name

/-- Replacing the entry of the same name, or adding one. -/
def put (entry : Entry) : List Entry → List Entry
  | [] => [entry]
  | x :: xs => if x.at entry.tier entry.name then entry :: xs else x :: put entry xs

def Entry.serialize (e : Entry) : Bytes :=
  e.tier :: (leBytes 2 (utf8 e.name).length ++ (utf8 e.name ++ (e.nonce ++
    (leBytes 4 e.ct.length ++ e.ct))))

/-- The loop of `parse` (keyvault.rs:207-233), on the bytes that are left. -/
def parseEntries : Nat → Bytes → Option (List Entry)
  | 0, _ => some []
  | n + 1, tier :: l₀ :: l₁ :: b =>
    let nameLen := ofLe [l₀, l₁]
    if b.length < nameLen + 12 + 4 then none
    else do
      let name ← fromUtf8 (b.take nameLen)
      let b := b.drop nameLen
      let ctLen := ofLe ((b.drop 12).take 4)
      if (b.drop 16).length < ctLen then none
      else
        let entries ← parseEntries n ((b.drop 16).drop ctLen)
        return ⟨tier, name, b.take 12, (b.drop 16).take ctLen⟩ :: entries
  | _ + 1, _ => none

namespace VaultFile

variable {C : Crypto} (v : VaultFile)

/-- `create` (keyvault.rs:63). -/
def create (e : Env C) (subkey : C.Key) : Option VaultFile :=
  (C.createDevice (e.draw 0) subkey e.sysDek).map fun slot =>
    ⟨slot, List.replicate SLOT_BYTES 0, List.replicate SLOT_BYTES 0, []⟩

def hasUserTier : Bool := !isEmpty v.usrPass

/-- `set_passphrase` (keyvault.rs:80). -/
def setPassphrase (e : Env C) (subkey : C.Key) (old : Option Bytes) (new : Bytes) :
    Option VaultFile := do
  let sysDek ← C.unlockDevice v.sysDevice subkey
  let userDek ←
    (if v.hasUserTier then old.bind (C.unlock (e.draw 1) v.usrPass) else some e.userDek)
  let sysPass ← C.create (e.draw 2) new sysDek
  let usrPass ← C.create (e.draw 3) new userDek
  return { v with sysPass, usrPass }

/-- `set` (keyvault.rs:126). -/
def set (e : Env C) (dek : C.Key) (tier : UInt8) (name : String) (plaintext : Bytes) :
    Option VaultFile :=
  let ct := C.encrypt dek e.nonce (aad tier name) plaintext
  if ct.isEmpty then none else some { v with entries := put ⟨tier, name, e.nonce, ct⟩ v.entries }

/-- `delete` (keyvault.rs:143). -/
def delete (tier : UInt8) (name : String) : VaultFile :=
  { v with entries := v.entries.filter fun e => !e.at tier name }

/-- `get` (keyvault.rs:150). -/
def get (dek : C.Key) (tier : UInt8) (name : String) : Option Bytes :=
  (v.entries.find? (Entry.at tier name)).bind fun e => C.decrypt dek e.nonce (aad tier name) e.ct

/-- `names` (keyvault.rs:155). -/
def names (tier : UInt8) : List String := (v.entries.filter fun e => e.tier = tier).map Entry.name

/-- `serialize` (keyvault.rs:164). -/
def serialize : Bytes :=
  MAGIC ++ (leBytes 2 VERSION ++ (leBytes 2 0 ++ (v.sysDevice ++ (v.sysPass ++ (v.usrPass ++
    (leBytes 4 v.entries.length ++ v.entries.flatMap Entry.serialize))))))

/-- `parse` (keyvault.rs:188). -/
def parse (b : Bytes) : Option VaultFile :=
  if b.length < HEADER_LEN ∨ b.take 8 ≠ MAGIC then none
  else if ofLe ((b.drop 8).take 2) ≠ VERSION then none
  else
    let b := b.drop 12
    let b₁ := b.drop SLOT_BYTES
    let b₂ := b₁.drop SLOT_BYTES
    let b₃ := b₂.drop SLOT_BYTES
    (parseEntries (ofLe (b₃.take 4)) (b₃.drop 4)).map fun entries =>
      ⟨b.take SLOT_BYTES, b₁.take SLOT_BYTES, b₂.take SLOT_BYTES, entries⟩

end VaultFile

/-- The object `sys/vault` and `USER_SESSION`. -/
structure Vault (C : Crypto) where
  object : Option Bytes
  session : Option C.Key

inductive Call where
  | init
  | setPassphrase (old : Option Bytes) (new : Bytes)
  | unlockUser (pass : Bytes)
  | lockUser
  | userGet (name : String)
  | userSet (name : String) (value : Bytes)
  | userList
  | userDelete (name : String)
  | systemGet (name : String)
  | systemSet (name : String) (value : Bytes)
  | systemList
  | systemDelete (name : String)
  deriving DecidableEq, Repr

inductive Reply where
  | done (ok : Bool)
  | value (v : Option Bytes)
  | names (l : List String)
  deriving DecidableEq, Repr

namespace Vault

variable {C : Crypto} (subkey : C.Key) (e : Env C) (s : Vault C)

/-- `load` (keyvault.rs:239): an absent, an unreadable and an unparsable object are alike. -/
def load : Option VaultFile := if e.read then s.object.bind VaultFile.parse else none

/-- `save` (keyvault.rs:246). -/
def save (w : Write) (v : VaultFile) : Bool × Vault C :=
  match w with
  | .stored => (true, { s with object := some v.serialize })
  | .refused => (false, s)
  | .late => (false, { s with object := some v.serialize })

/-- `ensure` (keyvault.rs:252). -/
def ensure : Option VaultFile × Vault C :=
  match s.load e with
  | some v => (some v, s)
  | none =>
    match if e.unlocked then VaultFile.create e subkey else none with
    | none => (none, s)
    | some v =>
      let (ok, s) := s.save e.created v
      (if ok then some v else none, s)

/-- `set_passphrase` (keyvault.rs:282). -/
def setPassphrase (old : Option Bytes) (new : Bytes) : Bool × Vault C :=
  if !e.unlocked then (false, s)
  else
    let (v, s) := s.ensure subkey e
    match v.bind fun v => v.setPassphrase e subkey old new with
    | none => (false, s)
    | some v =>
      match s.save e.write v with
      | (false, s) => (false, s)
      | (true, s) =>
        match C.unlock (e.draw 4) v.usrPass new with
        | some dek => (true, { s with session := some dek })
        | none => (true, s)

/-- `unlock_user` (keyvault.rs:301). -/
def unlockUser (pass : Bytes) : Bool × Vault C :=
  match (s.load e).bind fun v => C.unlock (e.draw 4) v.usrPass pass with
  | some dek => (true, { s with session := some dek })
  | none => (false, s)

/-- `lock_user` (keyvault.rs:313). -/
def lockUser : Vault C := { s with session := none }

/-- `user_get` (keyvault.rs:326). -/
def userGet (name : String) : Option Bytes := do
  let dek ← s.session
  let v ← s.load e
  v.get dek TIER_USER name

/-- `user_set` (keyvault.rs:332). -/
def userSet (name : String) (value : Bytes) : Bool × Vault C :=
  match do
    let dek ← s.session
    let v ← s.load e
    v.set e dek TIER_USER name value with
  | none => (false, s)
  | some v => s.save e.write v

/-- `user_list` (keyvault.rs:341). -/
def userList : List String :=
  match s.session, s.load e with
  | some _, some v => v.names TIER_USER
  | _, _ => []

/-- `user_delete` (keyvault.rs:349). -/
def userDelete (name : String) : Bool × Vault C :=
  if s.session.isNone then (false, s)
  else
    match s.load e with
    | none => (false, s)
    | some v => s.save e.write (v.delete TIER_USER name)

/-- `system_get` (keyvault.rs:361). -/
def systemGet (name : String) : Option Bytes :=
  if !e.unlocked then none
  else do
    let v ← s.load e
    let dek ← C.unlockDevice v.sysDevice subkey
    v.get dek TIER_SYSTEM name

/-- `system_set` (keyvault.rs:369). -/
def systemSet (name : String) (value : Bytes) : Bool × Vault C :=
  if !e.unlocked then (false, s)
  else
    let (v, s) := s.ensure subkey e
    match do
      let v ← v
      let dek ← C.unlockDevice v.sysDevice subkey
      v.set e dek TIER_SYSTEM name value with
    | none => (false, s)
    | some v => s.save e.write v

/-- `system_list` (keyvault.rs:379). -/
def systemList : List String :=
  match s.load e with
  | some v => v.names TIER_SYSTEM
  | none => []

/-- `system_delete` (keyvault.rs:387). -/
def systemDelete (name : String) : Bool × Vault C :=
  match s.load e with
  | none => (false, s)
  | some v => s.save e.write (v.delete TIER_SYSTEM name)

/-- One call. -/
def call : Call → Reply × Vault C
  | .init => let (v, s) := s.ensure subkey e; (.done v.isSome, s)
  | .setPassphrase old new => (s.setPassphrase subkey e old new).map .done id
  | .unlockUser pass => (s.unlockUser e pass).map .done id
  | .lockUser => (.done true, s.lockUser)
  | .userGet name => (.value (s.userGet e name), s)
  | .userSet name value => (s.userSet e name value).map .done id
  | .userList => (.names (s.userList e), s)
  | .userDelete name => (s.userDelete e name).map .done id
  | .systemGet name => (.value (s.systemGet subkey e name), s)
  | .systemSet name value => (s.systemSet subkey e name value).map .done id
  | .systemList => (.names (s.systemList e), s)
  | .systemDelete name => (s.systemDelete e name).map .done id

end Vault

end NopeekOS.Keyvault
