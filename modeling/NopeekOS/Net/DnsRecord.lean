import NopeekOS.Lib.ByteBits

/-!
# DNS keys and records (dns.rs, dns/packet.rs)

A name is the bytes of the string the source keeps: lower case, without the trailing dot. Records
of types the resolver does not look into carry no data.
-/

namespace NopeekOS.Net.Dns

open Lib

def USEC_PER_SEC : Nat := 1000000

def TYPE_A : Nat := 1
def TYPE_CNAME : Nat := 5
def TYPE_SOA : Nat := 6
def TYPE_ANY : Nat := 255

def RCODE_SUCCESS : Nat := 0
def RCODE_SERVFAIL : Nat := 2
def RCODE_NXDOMAIN : Nat := 3

abbrev Name := List Byte

structure Key where
  name : Name
  rtype : Nat
  deriving DecidableEq, Repr

/-- Strings compare byte by byte. -/
def Name.lt : Name → Name → Bool
  | _, [] => false
  | [], _ :: _ => true
  | a :: m, b :: n => a.toNat < b.toNat || (a = b && Name.lt m n)

/-- The derived order of keys (dns.rs:60): by name, then by type. -/
def Key.lt (a b : Key) : Bool := Name.lt a.name b.name || (a.name = b.name && a.rtype < b.rtype)

inductive Section where
  | answer
  | authority
  | additional
  deriving DecidableEq, Repr

inductive RData where
  | a (addr : BitVec 32)
  | cname (name : Name)
  | soa (minimum : Nat)
  | other
  deriving DecidableEq, Repr

/-- A resource record (packet.rs:34); the TTL is in seconds. -/
structure Rr where
  name : Name
  rtype : Nat
  class' : Nat
  ttl : Nat
  data : RData
  sect : Section
  deriving DecidableEq, Repr

/-- Only the answer section is cached (packet.rs:47). -/
def Rr.cacheable (r : Rr) : Bool := r.sect = .answer

def Rr.key (r : Rr) : Key := ⟨r.name, r.rtype⟩

/-- `name_endswith` (dns.rs:85): the suffix is the root, the name itself or a domain it is in. -/
def nameEndswith (name suffix : Name) : Bool :=
  suffix = [] || name = suffix ||
    (suffix.length < name.length && suffix.isSuffixOf name &&
      name.getD (name.length - suffix.length - 1) 0 = 0x2e)

end NopeekOS.Net.Dns
