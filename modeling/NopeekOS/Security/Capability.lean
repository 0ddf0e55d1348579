import Mathlib

/-!
# The capability vault (`security/capability.rs`)

Every permission is a token in a table of 256 slots. A token is created below a
parent with at most the parent's rights and at most its lifetime, checked on
every gated call, revoked with everything delegated from it, and its slot is
reused once it is revoked or expired.

The random id `create` draws and the ticks it reads are arguments here: the
state machine of `Attenuation.lean` supplies them. The timer interrupt may move
the clock between any two reads of one call, so `create` gets one tick per read
(`CreateClock`). The audit journal the calls write to is not part of the vault
and is left out.
-/

namespace NopeekOS.Security

open Function

/-- A 256-bit capability token id. -/
abbrev CapId := BitVec 256

/-- `MAX_CAPABILITIES` (capability.rs:19). -/
abbrev MAX_CAPABILITIES : Nat := 256

/-- The `bitflags` type `Rights: u32`. -/
abbrev Rights := BitVec 32

namespace Rights

def READ : Rights := 0b1
def WRITE : Rights := 0b10
def DELEGATE : Rights := 0b1000
def REVOKE : Rights := 0b10000
def EXTERNAL : Rights := 0b10000000000000
def ALL : Rights := 0b11111111111111111

/-- `Rights::contains`: every bit of `s` is set in `r`. -/
def contains (r s : Rights) : Bool := r &&& s == s

end Rights

/-- What a capability is about (capability.rs:83). -/
inductive ResourceKind where
  | kernel
  | memory (base size : Nat)
  | serial
  | network
  | store
  | display
  | execute
  | pciDevice (bus device function : BitVec 8)
  deriving DecidableEq, Repr

/-- One capability (capability.rs:96). `expiresAt` is a tick; `none` is no
expiry. -/
structure Capability where
  id : CapId
  resource : ResourceKind
  rights : Rights
  parent : Option CapId
  active : Bool
  expiresAt : Option Nat
  deriving DecidableEq, Repr

/-- `Capability::is_expired`, with `crate::time::ticks()` as an argument. -/
def Capability.isExpired (c : Capability) (now : Nat) : Bool :=
  c.expiresAt.any fun exp => decide (exp ≤ now)

/-- `CapError` (capability.rs:582). -/
inductive CapError where
  | notFound
  | revoked
  | expired
  | insufficientRights
  | escalationAttempt
  | vaultFull
  deriving DecidableEq, Repr

/-- The vault with its per-slot counters (`Vault`, `SLOT_CHECKS`, `SLOT_USED`).
The table has its 256 slots by type. -/
structure Vault where
  caps : Fin MAX_CAPABILITIES → Option Capability
  count : Nat
  slotChecks : Fin MAX_CAPABILITIES → Nat
  slotUsed : Fin MAX_CAPABILITIES → Rights

/-- The ticks one `create` reads, in program order: for the parent's expiry, for
the expiry of each slot it looks at, and for the child's lifetime. -/
structure CreateClock where
  parent : Nat
  slot : Fin MAX_CAPABILITIES → Nat
  child : Nat

/-- Every read of the call is at or after `now`, and none goes back. -/
def CreateClock.From (clock : CreateClock) (now : Nat) : Prop :=
  now ≤ clock.parent ∧ (∀ i, clock.parent ≤ clock.slot i) ∧ Monotone clock.slot ∧
    ∀ i, clock.slot i ≤ clock.child

namespace Vault

/-- `Vault::empty`. -/
def empty : Vault where
  caps _ := none
  count := 0
  slotChecks _ := 0
  slotUsed _ := 0

variable (v : Vault)

/-- The first slot, of index `i` and content `c`, that satisfies `p i c`. -/
def positionIdx (p : Fin MAX_CAPABILITIES → Option Capability → Bool) :
    Option (Fin MAX_CAPABILITIES) :=
  (List.finRange MAX_CAPABILITIES).find? fun i => p i (v.caps i)

/-- `self.caps.iter().position(p)`. -/
def position (p : Option Capability → Bool) : Option (Fin MAX_CAPABILITIES) :=
  v.positionIdx fun _ => p

/-- `Vault::find` (capability.rs:251). -/
def find (id : CapId) : Option Capability :=
  (v.position fun c => c.any fun c => c.id == id).bind v.caps

/-- The slot `create` takes (capability.rs:153): a free one, else one whose
capability is revoked or expired, never the root's. -/
def slotFor (root : CapId) (clock : CreateClock) : Option (Fin MAX_CAPABILITIES) :=
  (v.position Option.isNone).or
    (v.positionIdx fun i c => c.any fun c =>
      c.id != root && (!c.active || c.isExpired (clock.slot i)))

/-- Child expiry cannot exceed parent expiry (capability.rs:163). The tick sum
is a `u64` addition. -/
def childExpiry (now : Nat) (ttlTicks parentExp : Option Nat) : Option Nat :=
  match ttlTicks.map fun ttl => (now + ttl) % 2 ^ 64, parentExp with
  | some child, some parentExp => some (min child parentExp)
  | none, some parentExp => some parentExp
  | exp, none => exp

/-- Put a capability into a slot and reset the slot's counters. -/
def issue (slot : Fin MAX_CAPABILITIES) (c : Capability) : Vault where
  caps := update v.caps slot (some c)
  count := v.count + 1
  slotChecks := update v.slotChecks slot 0
  slotUsed := update v.slotUsed slot 0

/-- `Vault::create` (capability.rs:126): `id` is what `next_id()` draws. -/
def create (root : CapId) (clock : CreateClock) (id parentId : CapId) (resource : ResourceKind)
    (rights : Rights) (ttlTicks : Option Nat) : Except CapError (CapId × Vault) :=
  match v.find parentId with
  | none => .error .notFound
  | some parent =>
    if !parent.active then .error .revoked
    else if parent.isExpired clock.parent then .error .expired
    else if !parent.rights.contains Rights.DELEGATE then .error .insufficientRights
    else if !parent.rights.contains rights then .error .escalationAttempt
    else
      match v.slotFor root clock with
      | none => .error .vaultFull
      | some slot =>
        .ok (id, v.issue slot
          { id, resource, rights
            parent := some parentId
            active := true
            expiresAt := childExpiry clock.child ttlTicks parent.expiresAt })

/-- `Vault::init` (capability.rs:186): the root capability in slot 0. -/
def init (rootId : CapId) : Vault :=
  { empty with
    caps := update empty.caps 0 (some
      { id := rootId
        resource := .kernel
        rights := Rights.ALL
        parent := none
        active := true
        expiresAt := none })
    count := 1 }

/-- `for cap in self.caps.iter_mut().flatten()`: rewrite every capability. -/
def mapCaps (f : Capability → Capability) : Vault :=
  { v with caps := fun i => (v.caps i).map f }

/-- The ids of the capabilities that are not active (capability.rs:262). -/
def revokedIds : List CapId :=
  (List.finRange MAX_CAPABILITIES).filterMap fun i =>
    (v.caps i).bind fun c => if !c.active then some c.id else none

/-- An active child of a capability that is in the table and not active. -/
def isOrphan (c : Capability) : Bool :=
  c.active && c.parent.any fun p => v.revokedIds.contains p

/-- One pass of the loop in `revoke_recursive`: deactivate every orphan. The
list of revoked ids is the one from the start of the pass. -/
def revokePass : Vault :=
  v.mapCaps fun c => if v.isOrphan c then { c with active := false } else c

/-- `changed` after a pass. -/
def passChanges : Bool :=
  (List.finRange MAX_CAPABILITIES).any fun i => (v.caps i).any v.isOrphan

/-- The loop of `revoke_recursive`, bounded by a number of passes. -/
def revokeLoop : Nat → Vault → Vault
  | 0, v => v
  | n + 1, v => if v.passChanges then revokeLoop n v.revokePass else v.revokePass

/-- `Vault::revoke_recursive` (capability.rs:257). Every pass but the last
deactivates a capability, so 256 passes and the last are enough. -/
def revokeRecursive (targetId : CapId) : Vault :=
  revokeLoop (MAX_CAPABILITIES + 1)
    (v.mapCaps fun c => if c.id = targetId then { c with active := false } else c)

/-- `Vault::revoke` (capability.rs:207). -/
def revoke (revokerId targetId : CapId) : Except CapError Vault :=
  match v.find revokerId with
  | none => .error .notFound
  | some revoker =>
    if !revoker.rights.contains Rights.REVOKE then .error .insufficientRights
    else .ok (v.revokeRecursive targetId)

/-- `Vault::check` (capability.rs:222). A passed check counts in its slot. -/
def check (now : Nat) (capId : CapId) (required : Rights) : Except CapError (Capability × Vault) :=
  match v.position fun c => c.any fun c => c.id == capId with
  | none => .error .notFound
  | some slot =>
    match v.caps slot with
    | none => .error .notFound
    | some cap =>
      if !cap.active then .error .revoked
      else if cap.isExpired now then .error .expired
      else if !cap.rights.contains required then .error .insufficientRights
      else .ok (cap, { v with
        slotChecks := update v.slotChecks slot ((v.slotChecks slot + 1) % 2 ^ 64)
        slotUsed := update v.slotUsed slot (v.slotUsed slot ||| required) })

/-- `Vault::release` (capability.rs:276): revoke, then free the slot of every
capability that is not active. -/
def release (id : CapId) : Vault :=
  let v' := v.revokeRecursive id
  { v' with
    caps := fun i => (v'.caps i).filter fun c => c.active
    count := v'.count - ((List.finRange MAX_CAPABILITIES).countP fun i =>
      (v'.caps i).any fun c => !c.active) }

end Vault

end NopeekOS.Security
