import NopeekOS.Lib.KeyMap
import NopeekOS.Net.DnsRecord

/-!
# The DNS cache (dns/cache.rs)

Records of the answer section by name and type, for the lowest TTL of the whole reply and at most
2 h; NODATA and NXDOMAIN for the SOA's TTL and MINIMUM, NXDOMAIN under the pseudo-type ANY so that
it holds for every type; SERVFAIL for 10 s. A full cache drops the entries that expire first.
Time is microseconds; a sum of times wraps.
-/

namespace NopeekOS.Net.Dns

open Lib

def CACHE_TTL_MAX_USEC : Nat := 2 * 3600 * USEC_PER_SEC
def CACHE_TTL_STRANGE_RCODE_USEC : Nat := 10 * USEC_PER_SEC

inductive Kind where
  | positive (rr : Rr)
  | noData
  | nxDomain
  | rcode (r : Nat)
  deriving DecidableEq, Repr

structure Item where
  kind : Kind
  until' : Nat
  /-- Learnt by a lookup of this key (or its CNAME), not on the side. -/
  primary : Bool
  deriving DecidableEq, Repr

/-- What a lookup found. -/
structure Hit where
  rcode : Nat
  /-- The records, with their TTL clamped to what is left. -/
  answer : List Rr
  deriving DecidableEq, Repr

structure Cache where
  byKey : KeyMap Key (List Item)
  nItems : Nat
  cacheMax : Nat

/-- `answer_min_ttl` (cache.rs:54). -/
def answerMinTtl (answer : List Rr) : Nat := (answer.map Rr.ttl).min?.getD (2 ^ 32 - 1)

/-- `until_valid` (cache.rs:60). -/
def untilValid (rr : Rr) (minTtl timestamp : Nat) (useSoaMinimum : Bool) : Nat :=
  let ttl := match useSoaMinimum, rr.data with
    | true, .soa minimum => min minTtl minimum
    | _, _ => minTtl
  (timestamp + min (ttl * USEC_PER_SEC) CACHE_TTL_MAX_USEC) % 2 ^ 64

namespace Cache

/-- `Cache::new` (cache.rs:73), with a maximum the owner may set. -/
def new (cacheMax : Nat) : Cache := ⟨.empty, 0, cacheMax⟩

variable (c : Cache)

/-- `flush` (cache.rs:81). -/
def flush : Cache := { c with byKey := .empty, nItems := 0 }

/-- `remove_by_key` (cache.rs:86). -/
def removeByKey (k : Key) : Cache :=
  match c.byKey.get k with
  | none => c
  | some v => { c with byKey := c.byKey.erase k, nItems := c.nItems - v.length }

/-- `prune` (cache.rs:93). -/
def prune (now : Nat) : Cache :=
  let expired := (c.byKey.entries.filter fun e => e.2.any fun i => i.until' ≤ now).map Prod.fst
  expired.foldl removeByKey c

/-- When the first of a key's items expires (cache.rs:111). -/
def firstUntil (v : List Item) : Nat := (v.map Item.until').min?.getD 0

/-- The entry that expires first; of two the one visited first, as `min_by_key` has it. -/
def earliest : List (Key × List Item) → Option (Key × List Item)
  | [] => none
  | e :: l =>
    match earliest l with
    | none => some e
    | some f => if firstUntil f.2 < firstUntil e.2 then some f else some e

/-- The loop of `make_space` (cache.rs:109). -/
def makeSpaceLoop : Nat → Cache → Nat → Cache
  | 0, c, _ => c
  | fuel + 1, c, add =>
    if 0 < c.nItems ∧ c.cacheMax ≤ c.nItems + add then
      match earliest c.byKey.entries with
      | none => c
      | some e => makeSpaceLoop fuel (c.removeByKey e.1) add
    else c

/-- `make_space` (cache.rs:105). Each turn takes a key out, so there are no more turns than
keys. -/
def makeSpace (add : Nat) : Cache :=
  if add = 0 ∨ c.cacheMax = 0 then c else makeSpaceLoop (c.byKey.entries.length + 1) c add

/-- `link` (cache.rs:120). -/
def link (key : Key) (item : Item) : Cache :=
  { c with
    byKey := c.byKey.alter Key.lt key fun v => v.getD [] ++ [item]
    nItems := c.nItems + 1 }

/-- The item with a record's data becomes `item` (cache.rs:143), none when there is no such. -/
def replaceData (data : RData) (item : Item) : List Item → Option (List Item)
  | [] => none
  | i :: v =>
    match i.kind with
    | .positive r =>
      if r.data = data then some (item :: v) else (replaceData data item v).map (i :: ·)
    | .noData | .nxDomain | .rcode _ => (replaceData data item v).map (i :: ·)

/-- A zero TTL takes out what was cached for the record (cache.rs:129). -/
def dropRecord (rr : Rr) : Cache :=
  match c.byKey.get rr.key with
  | none => c
  | some v =>
    let kept := v.filter fun i => i.kind ≠ .positive rr
    let n := c.nItems - (v.length - kept.length)
    if kept = [] then { c with byKey := c.byKey.erase rr.key, nItems := n }
    else { c with byKey := c.byKey.alter Key.lt rr.key fun _ => kept, nItems := n }

/-- `put_positive` (cache.rs:126). -/
def putPositive (rr : Rr) (answer : List Rr) (primary : Bool) (timestamp : Nat) : Cache :=
  let minTtl := min (answerMinTtl answer) rr.ttl
  if minTtl = 0 then c.dropRecord rr
  else
    let item : Item := ⟨.positive rr, untilValid rr minTtl timestamp false, primary⟩
    match (c.byKey.get rr.key).bind (replaceData rr.data item) with
    | some v => { c with byKey := c.byKey.alter Key.lt rr.key fun _ => v }
    | none => (c.makeSpace 1).link rr.key item

/-- Whether a record answers a key itself (cache.rs:180, 189). -/
def answers (key : Key) (rr : Rr) : Bool :=
  rr.name = key.name && (rr.rtype = key.rtype || rr.rtype = TYPE_CNAME)

/-- The loop of `put` over the records to cache (cache.rs:179), and whether it went through. -/
def putRecords (key : Key) (answer : List Rr) (timestamp : Nat) : List Rr → Cache → Cache × Bool
  | [], c => (c, true)
  | rr :: rest, c =>
    let primary := answers key rr
    let held := ((c.byKey.get rr.key).bind List.head?).any Item.primary
    if primary = false ∧ held then (c, false)
    else putRecords key answer timestamp rest (c.putPositive rr answer primary timestamp)

/-- What `put_negative` caches (cache.rs:205), with the key it goes under. -/
def negativeItem (key : Key) (rcode : Nat) (answer : List Rr) (soa : Option Rr) (timestamp : Nat) :
    Option (Key × Item) :=
  if key.rtype = TYPE_ANY then none
  else if rcode = RCODE_SUCCESS ∨ rcode = RCODE_NXDOMAIN then
    match soa with
    | none => none
    | some soa =>
      match soa.data with
      | .soa minimum =>
        if minimum = 0 ∨ soa.ttl = 0 then none
        else
          let until' := untilValid soa (answerMinTtl answer) timestamp true
          if rcode = RCODE_SUCCESS then some (key, ⟨.noData, until', true⟩)
          else some (⟨key.name, TYPE_ANY⟩, ⟨.nxDomain, until', true⟩)
      | .a _ | .cname _ | .other => none
  else if rcode = RCODE_SERVFAIL then
    some (key, ⟨.rcode rcode, (timestamp + CACHE_TTL_STRANGE_RCODE_USEC) % 2 ^ 64, true⟩)
  else none

/-- `put_negative` (cache.rs:201). -/
def putNegative (key : Key) (rcode : Nat) (answer : List Rr) (soa : Option Rr) (timestamp : Nat) :
    Cache :=
  match negativeItem key rcode answer soa timestamp with
  | none => c
  | some (k, item) => ((c.makeSpace 1).removeByKey k).link k item

/-- `dns_cache_remove_previous` (cache.rs:160). -/
def removePrevious (key : Key) (answer : List Rr) : Cache :=
  ((answer.filter Rr.cacheable).map Rr.key).foldl removeByKey (c.removeByKey key)

/-- A SOA of an enclosing zone (cache.rs:193). -/
def findSoa (key : Key) (answer : List Rr) : Option Rr :=
  answer.find? fun r => r.rtype = TYPE_SOA && nameEndswith key.name r.name

/-- `put` (cache.rs:156): what a reply to `key` with `rcode` taught; `answer` holds the records of
every section. -/
def put (key : Key) (rcode : Nat) (answer : List Rr) (timestamp : Nat) : Cache :=
  if c.cacheMax = 0 then c
  else
    let c := c.removePrevious key answer
    let weird := rcode = RCODE_SERVFAIL
    if ¬(rcode = RCODE_SUCCESS ∨ rcode = RCODE_NXDOMAIN ∨ weird) then c
    else if ¬weird ∧ answer = [] then c
    else
      let (c, through) := putRecords key answer timestamp (answer.filter Rr.cacheable)
        (c.makeSpace (answer.length + 1))
      if through = false then c
      else if answer.any (answers key) then c
      else if findSoa key answer = none ∧ ¬weird then c
      else c.putNegative key rcode answer (findSoa key answer) timestamp

/-- `get_follow_cname` (cache.rs:232). -/
def getFollowCname (key : Key) : Option (List Item) :=
  match c.byKey.get key with
  | some v => some v
  | none =>
    let cname :=
      if key.rtype ≠ TYPE_CNAME then
        (c.byKey.get ⟨key.name, TYPE_CNAME⟩).filter fun v => v.all fun i => i.kind ≠ .noData
      else none
    match c.byKey.get ⟨key.name, TYPE_ANY⟩ with
    | some v => if v.any fun i => i.kind = .nxDomain then some v else cname
    | none => cname

/-- A cached record as it is handed out (cache.rs:271). -/
def clamped (rr : Rr) (until' now : Nat) : Rr :=
  { rr with ttl := min rr.ttl ((until' - now) / USEC_PER_SEC % 2 ^ 32) }

/-- `lookup` (cache.rs:254). -/
def lookup (key : Key) (now : Nat) : Option Hit :=
  if key.rtype = TYPE_ANY then none
  else
    match c.getFollowCname key with
    | none => none
    | some items =>
      if items.any fun i => i.until' < now then none
      else
        let answer := items.filterMap fun i => match i.kind with
          | .positive rr => some (clamped rr i.until' now)
          | .noData | .nxDomain | .rcode _ => none
        let rcode := (items.filterMap fun i => match i.kind with
          | .rcode r => some r
          | .positive _ | .noData | .nxDomain => none).getLast?
        match rcode with
        | some r => some ⟨r, answer⟩
        | none =>
          if answer = [] ∧ items.any fun i => i.kind = .nxDomain then some ⟨RCODE_NXDOMAIN, []⟩
          else some ⟨RCODE_SUCCESS, answer⟩

end Cache

end NopeekOS.Net.Dns
