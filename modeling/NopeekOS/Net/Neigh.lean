import NopeekOS.Net.Frag

/-!
# The neighbour table

The model of `neigh.rs`: the ARP table with its unreachability detection. An IPv4 address is
the number of its four bytes (big-endian, so that the map is in the order of the source's),
a link-layer address is its bytes, and times are ticks of 100 Hz. The calls of the source
push what is left to do to an `Out` that they are given; the model passes table and `Out` as
one state (`Neighbours`).
-/

namespace NopeekOS.Net

open Lib

def NEIGH_HZ : Nat := 100
def MCAST_PROBES : Nat := 3
def UCAST_PROBES : Nat := 3
def RETRANS_TIME : Nat := NEIGH_HZ
def BASE_REACHABLE_TIME : Nat := 30 * NEIGH_HZ
def DELAY_PROBE_TIME : Nat := 5 * NEIGH_HZ
def GC_STALETIME : Nat := 60 * NEIGH_HZ
def QUEUE_LEN_BYTES : Nat := 212992
def LOCKTIME : Nat := NEIGH_HZ
def GC_INTERVAL : Nat := 30 * NEIGH_HZ
def GC_THRESH1 : Nat := 128
def GC_THRESH2 : Nat := 512
def GC_THRESH3 : Nat := 1024
def ARPOP_REQUEST : Nat := 1
def ARPOP_REPLY : Nat := 2
def ARPHRD_ETHER : Nat := 1
def ARPHRD_IEEE802 : Nat := 6
def ETH_P_IP : Nat := 0x0800

/-- `Nud` (neigh.rs:45). -/
inductive Nud
  | none
  | incomplete
  | reachable
  | stale
  | delay
  | probe
  | failed
  deriving DecidableEq

namespace Nud

/-- `valid` (neigh.rs:57). -/
def valid : Nud → Bool
  | reachable | stale | delay | probe => true
  | _ => false

/-- `connected` (neigh.rs:61). -/
def connected (s : Nud) : Bool := s == reachable

/-- `in_timer` (neigh.rs:65). -/
def inTimer : Nud → Bool
  | incomplete | reachable | delay | probe => true
  | _ => false

/-- The states in which requests go out (neigh.rs:366, 374). -/
def asks : Nud → Bool
  | incomplete | probe => true
  | _ => false

end Nud

/-- `Queued` (neigh.rs:82). -/
class Queued (P : Type*) where
  truesize : P → Nat

abbrev LinkAddr := List Byte

/-- `Out` (neigh.rs:90). -/
structure Out (P : Type*) where
  send : List (LinkAddr × P)
  solicit : List (Nat × Option LinkAddr)
  errors : List P

/-- `Neighbour` (neigh.rs:102). -/
structure Neighbour (P : Type*) where
  state : Nud
  ha : LinkAddr
  confirmed : Nat
  updated : Nat
  used : Nat
  probes : Nat
  timer : Option Nat
  queue : List P
  queueBytes : Nat

/-- `Table` (neigh.rs:125). -/
structure NeighTable (P : Type*) where
  neighs : List (Nat × Neighbour P)
  reachableTime : Nat
  lastRand : Nat
  lastFlush : Nat
  nextGc : Nat
  drops : Nat

/-- The table and what is left to do. -/
structure Neighbours (P : Type*) where
  t : NeighTable P
  out : Out P

/-- `rand_reach_time` (neigh.rs:137). -/
def randReachTime (rnd base : Nat) : Nat := if base = 0 then 0 else rnd % base + base / 2

/-- `max_probes` (neigh.rs:142). -/
def maxProbes (state : Nud) : Nat := UCAST_PROBES + if state = .probe then 0 else MCAST_PROBES

/-- `is_multicast` (neigh.rs:146). -/
def isMulticast (ip : Nat) : Bool := ip / 2 ^ 28 == 0xe

/-- `is_loopback` (neigh.rs:147). -/
def isLoopback (ip : Nat) : Bool := ip / 2 ^ 24 == 127

/-- 255.255.255.255. -/
def BROADCAST_IP : Nat := 2 ^ 32 - 1

variable {P : Type*}

/-! ## Entries -/

namespace Neighbour

/-- A new entry (neigh.rs:174). -/
def create (now : Nat) : Neighbour P :=
  ⟨.none, List.replicate 6 0, now, now, now, 0, none, [], 0⟩

variable (n : Neighbour P)

/-- The change of state of `event_send` (neigh.rs:236-246), and whether a request is to go
out at once. -/
def wake (now : Nat) : Neighbour P × Bool :=
  if n.state ≠ .stale ∧ n.state ≠ .incomplete then
    ({ n with
      probes := UCAST_PROBES
      state := .incomplete
      updated := now
      timer := some (now + max RETRANS_TIME (NEIGH_HZ / 100)) }, true)
  else if n.state = .stale then
    ({ n with state := .delay, updated := now, timer := some (now + DELAY_PROBE_TIME) }, false)
  else (n, false)

/-- Take packets from the front until `size` more bytes fit (neigh.rs:250-254), and count
them. -/
def makeRoom [Queued P] (size : Nat) : List P → Nat → List P × Nat × Nat
  | [], bytes => ([], bytes, 0)
  | old :: queue, bytes =>
    if QUEUE_LEN_BYTES < bytes + size then
      let r := makeRoom size queue (bytes - Queued.truesize old)
      (r.1, r.2.1, r.2.2 + 1)
    else (old :: queue, bytes, 0)

/-- Queue a packet (neigh.rs:249-257); the second component counts the drops. -/
def enqueue [Queued P] (n : Neighbour P) (p : P) : Neighbour P × Nat :=
  let r := makeRoom (Queued.truesize p) n.queue n.queueBytes
  ({ n with queue := r.1 ++ [p], queueBytes := r.2.1 + Queued.truesize p }, r.2.2)

/-- The change of state and address of `update` (neigh.rs:298-312), where `sameHa` says that
the address is not new. -/
def renew (now reachableTime : Nat) (ha : LinkAddr) (new : Nud) (sameHa : Bool) : Neighbour P :=
  let old := n.state
  let n := if new ≠ old ∨ sameHa = false then { n with updated := now } else n
  let n :=
    if new ≠ old then
      { n with
        timer := if new.inTimer then some (now + if new = .reachable then reachableTime else 0)
          else none
        probes := if new = .probe then 0 else n.probes
        state := new }
    else n
  if sameHa = false then
    { n with
      ha := ha
      confirmed := if new.connected then n.confirmed else now - BASE_REACHABLE_TIME * 2 }
  else n

/-- The change of state of `timer` (neigh.rs:340-365), and when to fire next. -/
def fire (now reachableTime : Nat) : Neighbour P × Nat :=
  let n := { n with timer := none }
  match n.state with
  | .reachable =>
    if now ≤ n.confirmed + reachableTime then (n, n.confirmed + reachableTime)
    else if now ≤ n.used + DELAY_PROBE_TIME then
      ({ n with state := .delay, updated := now }, now + DELAY_PROBE_TIME)
    else ({ n with state := .stale, updated := now }, now + NEIGH_HZ)
  | .delay =>
    if now ≤ n.confirmed + DELAY_PROBE_TIME then
      ({ n with state := .reachable, updated := now }, n.confirmed + reachableTime)
    else
      ({ n with state := .probe, updated := now, probes := 0 },
        now + max RETRANS_TIME (NEIGH_HZ / 100))
  | _ => (n, now + max RETRANS_TIME (NEIGH_HZ / 100))

/-- Set the timer again (neigh.rs:371). -/
def rearm (now next : Nat) : Neighbour P :=
  if n.state.inTimer then { n with timer := some (max next (now + NEIGH_HZ / 100)) } else n

end Neighbour

/-! ## The table -/

namespace NeighTable

/-- `new` (neigh.rs:150). -/
def new : NeighTable P := ⟨[], BASE_REACHABLE_TIME, 0, 0, GC_INTERVAL, 0⟩

variable (t : NeighTable P)

/-- `lookup` (neigh.rs:162). -/
def lookup (ip : Nat) : Option LinkAddr :=
  ((getKey ip t.neighs).filter fun n => n.state.valid).map Neighbour.ha

/-- The entries that a forced collection removes (neigh.rs:189-194). -/
def victims (now : Nat) : List Nat :=
  ((t.neighs.filter fun e => (e.2.state == .failed ||
      !(decide (now - 5 * NEIGH_HZ ≤ e.2.updated) && decide (e.2.updated ≤ now))) &&
      (e.2.timer.isNone && e.2.queue.isEmpty)).map Prod.fst).take (t.neighs.length - GC_THRESH2)

/-- `forced_gc` (neigh.rs:185), with the number of entries it removed. -/
def forcedGc (now : Nat) : Nat × NeighTable P :=
  ((t.victims now).length,
    { t with neighs := (t.victims now).foldl (fun m ip => eraseKey ip m) t.neighs, lastFlush := now })

/-- `create` (neigh.rs:168). -/
def create (now ip : Nat) : Bool × NeighTable P :=
  if (getKey ip t.neighs).isSome then (true, t)
  else
    let entries := t.neighs.length
    let add (t : NeighTable P) : Bool × NeighTable P :=
      (true, { t with neighs := insertKey ip (Neighbour.create now) t.neighs })
    if GC_THRESH3 ≤ entries ∨ (GC_THRESH2 ≤ entries ∧ t.lastFlush + 5 * NEIGH_HZ < now) then
      let r := t.forcedGc now
      if r.1 = 0 ∧ GC_THRESH3 ≤ entries then (false, r.2) else add r.2
    else add t

/-- The entries that are kept by `periodic` (neigh.rs:389-393). -/
def keeps (now : Nat) (n : Neighbour P) : Bool :=
  n.state.inTimer || !(n.state == .failed || decide (n.used + GC_STALETIME ≤ now))

/-- The time of use that `periodic` sets (neigh.rs:391). -/
def touch (now : Nat) (n : Neighbour P) : Neighbour P :=
  if !n.state.inTimer && decide (n.used < n.confirmed) && decide (n.confirmed ≤ now) then
    { n with used := n.confirmed }
  else n

/-- `periodic` (neigh.rs:382). -/
def periodic (now rnd : Nat) : NeighTable P :=
  let t := if t.lastRand + 300 * NEIGH_HZ < now ∨ t.lastRand = 0 then
      { t with lastRand := max now 1, reachableTime := randReachTime rnd BASE_REACHABLE_TIME }
    else t
  if t.neighs.length < GC_THRESH1 then t
  else { t with neighs := (t.neighs.map fun e => (e.1, touch now e.2)).filter fun e => keeps now e.2 }

/-- The entries whose timer is due (neigh.rs:324). -/
def due (now : Nat) : List Nat :=
  (t.neighs.filter fun e => e.2.timer.any fun at_ => decide (at_ ≤ now)).map Prod.fst

end NeighTable

/-! ## The calls -/

namespace Neighbours

/-- Nothing yet. -/
def new : Neighbours P := ⟨.new, ⟨[], [], []⟩⟩

variable (s : Neighbours P) (now ip : Nat)

def put (n : Neighbour P) : Neighbours P :=
  { s with t := { s.t with neighs := insertKey ip n s.t.neighs } }

def drop (count : Nat) : Neighbours P := { s with t := { s.t with drops := s.t.drops + count } }

def send (ha : LinkAddr) (ps : List P) : Neighbours P :=
  { s with out := { s.out with send := s.out.send ++ ps.map fun p => (ha, p) } }

/-- `probe` (neigh.rs:268). -/
def probe : Neighbours P :=
  match getKey ip s.t.neighs with
  | none => s
  | some n =>
    let dst := if n.probes < UCAST_PROBES then some n.ha else none
    let s := s.put ip { n with probes := n.probes + 1 }
    { s with out := { s.out with solicit := s.out.solicit ++ [(ip, dst)] } }

/-- `invalidate` (neigh.rs:278). -/
def invalidate : Neighbours P :=
  match getKey ip s.t.neighs with
  | none => s
  | some n =>
    let s := s.put ip { n with updated := now, queue := [], queueBytes := 0 }
    { s with out := { s.out with errors := s.out.errors ++ n.queue } }

/-- `event_send` (neigh.rs:230). -/
def eventSend [Queued P] (p : Option P) : Option P × Neighbours P :=
  match getKey ip s.t.neighs with
  | none => (none, s)
  | some n =>
    if n.state = .reachable ∨ n.state = .delay ∨ n.state = .probe then (p, s)
    else
      let (n, immediateProbe) := n.wake now
      let (nowP, s) :=
        if n.state = .incomplete then
          match p with
          | some p => (none, (s.put ip (n.enqueue p).1).drop (n.enqueue p).2)
          | none => (none, s.put ip n)
        else (p, s.put ip n)
      (nowP, if immediateProbe then s.probe ip else s)

/-- The part of `output` that is for the entry (neigh.rs:209-219). -/
def transmit [Queued P] (p : P) : Neighbours P :=
  match getKey ip s.t.neighs with
  | none => s
  | some n =>
    if n.state.connected then s.send n.ha [p]
    else
      match (s.put ip { n with used := now }).eventSend now ip (some p) with
      | (some p, s) =>
        match getKey ip s.t.neighs with
        | none => s
        | some n => s.send n.ha [p]
      | (none, s) => s

/-- `output` (neigh.rs:201). -/
def output [Queued P] (p : P) : Neighbours P :=
  let r := s.t.create now ip
  let s := { s with t := r.2 }
  if r.1 then s.transmit now ip p else s.drop 1

/-- `resolve` (neigh.rs:223), with whether a request went out. -/
def resolve [Queued P] : Bool × Neighbours P :=
  let r := s.t.create now ip
  let s := { s with t := r.2 }
  if r.1 = false then (false, s)
  else
    let probes (s : Neighbours P) := (getKey ip s.t.neighs).map Neighbour.probes
    let r := s.eventSend now ip none
    (decide (probes r.2 ≠ probes s), r.2)

/-- `update` (neigh.rs:286). -/
def update (ha : LinkAddr) (asked : Nud) (overr : Bool) : Neighbours P :=
  match getKey ip s.t.neighs with
  | none => s
  | some n =>
    let old := n.state
    let sameHa := old.valid && decide (n.ha = ha)
    let n := if asked.connected then { n with confirmed := now } else n
    if old.valid && (!sameHa && !overr) then s.put ip n
    else
      let new := if old.valid && (sameHa && asked == .stale) then old else asked
      let n := n.renew now s.t.reachableTime ha new sameHa
      if new = old then s.put ip n
      else if old.valid = false then
        (s.put ip { n with queue := [], queueBytes := 0 }).send n.ha n.queue
      else s.put ip n

/-- `timer` (neigh.rs:335). -/
def timer : Neighbours P :=
  match getKey ip s.t.neighs with
  | none => s
  | some n =>
    if n.state.inTimer = false then s.put ip { n with timer := none }
    else
      let r := n.fire now s.t.reachableTime
      let n := r.1
      if n.state.asks ∧ maxProbes n.state ≤ n.probes then
        (s.put ip { n with state := .failed }).invalidate now ip
      else
        let s := s.put ip (n.rearm now r.2)
        if n.state.asks then s.probe ip else s

/-- `tick` (neigh.rs:323). -/
def tick (rnd : Nat) : Neighbours P :=
  let s := (s.t.due now).foldl (fun s ip => s.timer now ip) s
  if s.t.nextGc ≤ now then
    { s with t := { s.t.periodic now rnd with nextGc := now + BASE_REACHABLE_TIME / 2 } }
  else s

/-- `arp_input` (neigh.rs:399), with the link-layer and the IPv4 address of the answer. -/
def arpInput (arp : List Byte) (toUs : Bool) (ourIp : Nat) :
    Option (LinkAddr × Nat) × Neighbours P :=
  if arp.length < 8 then (none, s)
  else
    let hrd := field16 arp 0
    let pro := field16 arp 2
    let op := field16 arp 6
    if byteAt arp 4 ≠ 6 ∨ byteAt arp 5 ≠ 4 ∨ arp.length < 28 then (none, s)
    else if (hrd ≠ ARPHRD_ETHER ∧ hrd ≠ ARPHRD_IEEE802) ∨ pro ≠ ETH_P_IP then (none, s)
    else if op ≠ ARPOP_REPLY ∧ op ≠ ARPOP_REQUEST then (none, s)
    else
      let sha := (arp.drop 8).take 6
      let sip := beNat ((arp.drop 14).take 4)
      let tha := (arp.drop 18).take 6
      let tip := beNat ((arp.drop 24).take 4)
      let isLocal (ip : Nat) : Bool := ourIp != 0 && ip == ourIp
      if isMulticast tip || isLoopback tip then (none, s)
      else if sip = 0 then
        (if op = ARPOP_REQUEST ∧ isLocal tip then some (sha, sip) else none, s)
      else
        let martian := isMulticast sip || isLoopback sip || sip == BROADCAST_IP || isLocal sip
        if op = ARPOP_REQUEST ∧ isLocal tip ∧ martian = false then
          let r := s.t.create now sip
          let s := { s with t := r.2 }
          (some (sha, sip), if r.1 then s.update now sip sha .stale true else s)
        else
          match getKey sip s.t.neighs with
          | none => (none, s)
          | some n =>
            let isGarp := sip == tip && (op != ARPOP_REPLY || tha == sha) &&
              !isLocal sip && sip != BROADCAST_IP && !isMulticast sip
            let overr := decide (n.updated + LOCKTIME < now) || isGarp
            let state : Nud := if op = ARPOP_REPLY ∧ toUs then .reachable else .stale
            (none, s.update now sip sha state overr)

end Neighbours

end NopeekOS.Net
