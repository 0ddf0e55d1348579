import NopeekOS.Net.DhcpMessage

/-!
# DHCP leases (dhcp/lease.rs)

What an OFFER or ACK grants. Times are microseconds from the lease's `timestamp`. A message without
a usable address, server or lease time grants nothing; a malformed optional part is left out.
-/

namespace NopeekOS.Net.Dhcp

open Lib

def USEC_PER_SEC : Nat := 1000000
/-- `u64::MAX`: a time that never comes. -/
def INFINITY : Nat := 2 ^ 64 - 1

def OPT_SUBNET_MASK : Byte := 1
def OPT_ROUTER : Byte := 3
def OPT_DOMAIN_NAME_SERVER : Byte := 6
def OPT_HOST_NAME : Byte := 12
def OPT_DOMAIN_NAME : Byte := 15
def OPT_MTU_INTERFACE : Byte := 26
def OPT_BROADCAST : Byte := 28
def OPT_STATIC_ROUTE : Byte := 33
def OPT_NTP_SERVER : Byte := 42
def OPT_REQUESTED_IP_ADDRESS : Byte := 50
def OPT_LEASE_TIME : Byte := 51
def OPT_MESSAGE_TYPE : Byte := 53
def OPT_SERVER_IDENTIFIER : Byte := 54
def OPT_PARAMETER_REQUEST_LIST : Byte := 55
def OPT_MAXIMUM_MESSAGE_SIZE : Byte := 57
def OPT_RENEWAL_TIME : Byte := 58
def OPT_REBINDING_TIME : Byte := 59
def OPT_CLIENT_IDENTIFIER : Byte := 61
def OPT_RAPID_COMMIT : Byte := 80
def OPT_CLASSLESS_STATIC_ROUTE : Byte := 121
def OPT_PRIVATE_CLASSLESS_STATIC_ROUTE : Byte := 249

/-- `IPV4_MIN_REASSEMBLY_SIZE`. -/
def IPV4_MIN_REASSEMBLY_SIZE : Nat := 576

/-! ## Addresses -/

/-- The first byte of an address. -/
def Addr.first (a : Addr) : Byte := a.extractLsb' 24 8

/-- The classful length (lease.rs:39), none for class D and E. -/
def defaultPrefixlen (a : Addr) : Option Nat :=
  if a.first.toNat ≤ 127 then some 8
  else if a.first.toNat ≤ 191 then some 16
  else if a.first.toNat ≤ 223 then some 24
  else none

def prefixlenToNetmask (len : Nat) : Addr :=
  if len = 0 then 0 else BitVec.allOnes 32 <<< (32 - len)

def mask (a : Addr) (len : Nat) : Addr := a &&& prefixlenToNetmask len

def isZeronet (a : Addr) : Bool := a.first = 0
def isLoopback (a : Addr) : Bool := a.first = 127
def isMulticast (a : Addr) : Bool := a.first &&& 0xf0 = 0xe0
def isLbcast (a : Addr) : Bool := a = BitVec.allOnes 32
def isReserved (a : Addr) : Bool := a.first &&& 0xf0 = 0xf0 && !isLbcast a

/-- An address a host may hold (lease.rs:71). -/
def isUnicast (a : Addr) : Bool :=
  !(isZeronet a || isLoopback a || isMulticast a || isReserved a || isLbcast a)

/-! ## Routes -/

structure Route where
  dst : Addr
  len : Nat
  gw : Addr
  deriving DecidableEq, Repr

/-- The pairs of option 33 (lease.rs:83): no class D or E, no default route. -/
def staticPairs : List Addr → List Route
  | p :: gw :: rest =>
    match defaultPrefixlen p with
    | none => staticPairs rest
    | some len =>
      if mask p len = 0 then staticPairs rest
      else ⟨mask p len, len, gw⟩ :: staticPairs rest
  | _ => []

variable (m : Message)

/-- `static_routes` (lease.rs:77). -/
def staticRoutes : Except Error (List Route) :=
  match m.optionAddresses OPT_STATIC_ROUTE with
  | .error e => .error e
  | .ok none => .ok []
  | .ok (some addrs) =>
    if addrs.length % 2 ≠ 0 then .error .badMsg else .ok (staticPairs addrs)

/-- The loop of `classless_routes` (lease.rs:100): a length, as many bytes of the destination as
it needs, a gateway. -/
def classlessLoop : Nat → List Byte → Except Error (List Route)
  | _, [] => .ok []
  | 0, _ :: _ => .ok []
  | fuel + 1, len :: i =>
    let n := (len.toNat + 7) / 8
    if 32 < len.toNat then .error .badMsg
    else if i.length < n then .error .badMsg
    else if (i.drop n).length < 4 then .error .badMsg
    else
      let dst := mask (addrAt (i.take n) 0) len.toNat
      match classlessLoop fuel (i.drop (n + 4)) with
      | .error e => .error e
      | .ok routes => .ok (⟨dst, len.toNat, addrAt (i.drop n) 0⟩ :: routes)

/-- `classless_routes` (lease.rs:96); every turn takes at least five bytes. -/
def classlessRoutes (code : Byte) : Except Error (List Route) :=
  match m.option code with
  | none => .ok []
  | some v => classlessLoop v.length v

/-! ## The lease -/

structure Lease where
  address : Addr
  subnetMask : Addr
  serverAddress : Addr
  /-- `INFINITY` for a lease that never ends. -/
  lifetime : Nat
  /-- 0 when the lease never ends, as `t2` is. -/
  t1 : Nat
  t2 : Nat
  broadcast : Option Addr
  routers : List Addr
  dns : List Addr
  ntp : List Addr
  staticRoutes : List Route
  classlessRoutes : List Route
  mtu : Option (BitVec 16)
  /-- When the message arrived. -/
  timestamp : Nat
  deriving DecidableEq, Repr

/-- `sec_to_usec` (lease.rs:64) of an option's four bytes. -/
def secToUsec (t : List Byte) (maxAsInfinity : Bool) : Nat :=
  let s := addrAt t 0
  if s = BitVec.allOnes 32 ∧ maxAsInfinity then INFINITY else s.toNat * USEC_PER_SEC

/-- What a message says of its lease's length, before the floor (lease.rs:137). -/
def leaseTime (fallbackLifetime : Nat) : Option Nat :=
  let fallback := if fallbackLifetime ≠ 0 then some fallbackLifetime else none
  match m.optionExact OPT_LEASE_TIME 4 with
  | some t => if t ≠ [0, 0, 0, 0] then some (secToUsec t true) else fallback
  | none => fallback

/-- A T1 or T2 option, 0 when there is none (lease.rs:148, 154). -/
def timeOption (code : Byte) : Nat :=
  match m.optionExact code 4 with
  | some t => secToUsec t true
  | none => 0

/-- T1 and T2 of a lease (lease.rs:147): 0.5 and 0.875 of it where the server's do not fit. -/
def leaseTimes (lifetime : Nat) : Nat × Nat :=
  if lifetime = INFINITY then (0, 0)
  else
    let t2 := timeOption m OPT_REBINDING_TIME
    let t2 := if t2 = 0 ∨ lifetime ≤ t2 then lifetime * 7 / 8 else t2
    let t1 := timeOption m OPT_RENEWAL_TIME
    let t1 := if t1 = 0 ∨ t2 ≤ t1 then lifetime / 2 else t1
    (t1, if t2 ≤ t1 then lifetime * 7 / 8 else t2)

/-- A list of addresses, empty when the option is malformed or absent (lease.rs:165). -/
def addrsOrEmpty (code : Byte) : List Addr :=
  match m.optionAddresses code with
  | .ok (some addrs) => addrs
  | _ => []

def orEmpty : Except Error (List Route) → List Route
  | .ok routes => routes
  | .error _ => []

/-- The subnet mask (lease.rs:131), the classful one when the message has none. -/
def subnetOf : Option Addr :=
  match m.optionAddr OPT_SUBNET_MASK with
  | some mask => some mask
  | none => (defaultPrefixlen m.yiaddr).map prefixlenToNetmask

namespace Lease

/-- `Lease::from_message` (lease.rs:127); `none` when a mandatory part is missing. -/
def fromMessage (fallbackLifetime : Nat) : Option Lease := do
  if m.yiaddr = 0 ∨ isUnicast m.yiaddr = false then none
  else
    let subnetMask ← subnetOf m
    let serverAddress ← m.optionAddr OPT_SERVER_IDENTIFIER
    let asked ← leaseTime m fallbackLifetime
    let lifetime := if asked ≤ 30 * USEC_PER_SEC then 30 * USEC_PER_SEC else asked
    let classless := orEmpty (Dhcp.classlessRoutes m OPT_CLASSLESS_STATIC_ROUTE)
    let classless :=
      if classless = [] then orEmpty (Dhcp.classlessRoutes m OPT_PRIVATE_CLASSLESS_STATIC_ROUTE)
      else classless
    some {
      address := m.yiaddr
      subnetMask := subnetMask
      serverAddress := serverAddress
      lifetime := lifetime
      t1 := (leaseTimes m lifetime).1
      t2 := (leaseTimes m lifetime).2
      broadcast := m.optionAddr OPT_BROADCAST
      routers := addrsOrEmpty m OPT_ROUTER
      dns := addrsOrEmpty m OPT_DOMAIN_NAME_SERVER
      ntp := addrsOrEmpty m OPT_NTP_SERVER
      staticRoutes := orEmpty (Dhcp.staticRoutes m)
      classlessRoutes := classless
      mtu := (m.optionU16 OPT_MTU_INTERFACE).filter fun v => IPV4_MIN_REASSEMBLY_SIZE ≤ v.toNat
      timestamp := 0 }

/-- `same_binding` (lease.rs:200). -/
def sameBinding (l b : Lease) : Bool :=
  l.address = b.address && l.subnetMask = b.subnetMask && l.routers = b.routers

end Lease

end NopeekOS.Net.Dhcp
