import NopeekOS.Lib.OrdMap
import NopeekOS.Lib.SeqNum
import NopeekOS.Net.Csum

/-!
# IPv4 reassembly (frag.rs)

A fragment joins the queue of its key, the tuple (source, destination, identification,
protocol). The length known so far and the "last fragment seen" flag are set first; a
fragment that contradicts them takes the whole queue with it, as does one that overlaps
another without being covered by what is there. When the bytes collected are as many as
the datagram has, the queue is put together under the header of the fragment at offset 0.

A key is kept as one big-endian number; an ordered map compares the tuple in the same
order. The identification of the source's fragments (`rid`) counts them, so that a queue
whose source has sent many others meanwhile starts over.
-/

namespace NopeekOS.Net

open Lib

def FRAG_TIME : Nat := 3000
def HIGH_THRESH : Nat := 4 * 1024 * 1024
def MAX_DIST : Nat := 64
def PEERS_MAX : Nat := 65536 + 128
def FRAG_OVERHEAD : Nat := 256
def IP_MF : Nat := 0x2000
def IP_OFFSET : Nat := 0x1fff

/-! ## Fields of a datagram -/

variable (ip : List Byte)

/-- The byte at `i`. -/
def byteAt (i : Nat) : Byte := ip.getD i 0

/-- The 16-bit field at `i`. -/
def field16 (i : Nat) : Nat := be16 (byteAt ip i) (byteAt ip (i + 1))

/-- The bytes as a big-endian number. -/
def beNat (l : List Byte) : Nat := l.foldl (fun n b => n * 256 + b.toNat) 0

/-- The header length (frag.rs:99). -/
def ihlOf : Nat := (byteAt ip 0).toNat % 16 * 4

/-- The total length, no more than what is there (frag.rs:100). -/
def totOf : Nat := min (field16 ip 2) ip.length

/-- The key (frag.rs:102): source, destination, identification, protocol. -/
def keyOf : Nat :=
  beNat ((ip.drop 12).take 8 ++ (ip.drop 4).take 2 ++ (ip.drop 9).take 1)

/-- The source of a key: its first four bytes of eleven. -/
def keySource (key : Nat) : Nat := key / 2 ^ 56

/-- The offset in bytes (frag.rs:146). -/
def offsetOf : Nat := (field16 ip 6 &&& IP_OFFSET) <<< 3

/-- Whether more fragments follow (frag.rs:147). -/
def mfOf : Bool := field16 ip 6 &&& IP_MF != 0

/-- The end of the fragment's data in the datagram (frag.rs:148, 157): a fragment with more
to follow ends on a multiple of eight. -/
def endOf : Nat :=
  let last := offsetOf ip + (totOf ip - ihlOf ip)
  if mfOf ip then last / 8 * 8 else last

/-- The data taken from a fragment (frag.rs:188). -/
def dataOf : List Byte := (ip.drop (ihlOf ip)).take (endOf ip - offsetOf ip)

/-- `frag_ecn` (frag.rs:71). -/
def fragEcn (tos : Byte) : Byte := 1#8 <<< (tos.toNat % 4)

/-- `ecn_of` (frag.rs:75). -/
def ecnOf (bits : Byte) : Option Byte :=
  if bits &&& 1#8 ≠ 0#8 ∧ bits ≠ 1#8 then none
  else some (if bits &&& 8#8 ≠ 0#8 then 3#8 else 0#8)

/-! ## Queues -/

/-- `Queue` (frag.rs:31). -/
structure Queue where
  frags : List (Nat × List Byte)
  head : Option (List Byte)
  first : Option (List Byte)
  len : Nat
  meat : Nat
  lastIn : Bool
  ecn : Byte
  rid : Nat
  expires : Nat
  mem : Nat

namespace Queue

/-- A queue without fragments. -/
def fresh (rid expires : Nat) : Queue := ⟨[], none, none, 0, 0, false, 0, rid, expires, 0⟩

/-- The bookkeeping of the length (frag.rs:150-167); `none` if the fragment contradicts
it. -/
def takeLen (q : Queue) (last : Nat) (mf : Bool) : Option Queue :=
  if !mf then
    if last < q.len || (q.lastIn && last != q.len) then none
    else some { q with lastIn := true, len := last }
  else if q.len < last then
    if q.lastIn then none else some { q with len := last }
  else some q

/-- The fragments that `[offset, last)` overlaps (frag.rs:177). -/
def overlapped (q : Queue) (offset last : Nat) : List (Nat × List Byte) :=
  q.frags.filter fun f => decide (f.1 < last) && decide (offset < f.1 + f.2.length)

/-- How much of `[offset, last)` they cover (frag.rs:181). -/
def covered (fs : List (Nat × List Byte)) (offset last : Nat) : Nat :=
  (fs.map fun f => min (f.1 + f.2.length) last - max f.1 offset).sum

/-- Take a fragment in (frag.rs:188-198). -/
def add (q : Queue) (ip : List Byte) : Queue :=
  { q with
    meat := q.meat + (dataOf ip).length
    mem := q.mem + ((dataOf ip).length + FRAG_OVERHEAD)
    ecn := q.ecn ||| fragEcn (byteAt ip 1)
    frags := insertKey (offsetOf ip) (dataOf ip) q.frags
    head := if offsetOf ip = 0 then some (ip.take (ihlOf ip)) else q.head
    first := if offsetOf ip = 0 then some (ip.take (totOf ip)) else q.first }

/-- All is there (frag.rs:201). -/
def whole (q : Queue) : Bool := q.head.isSome && q.lastIn && q.meat == q.len

/-- The datagram (frag.rs:218-229): fragment 0's header with the ECN field, the length, no
fragment flags and the checksum set, and the data in order. -/
def datagram (q : Queue) (head : List Byte) (ecn : Byte) : List Byte :=
  let len := head.length + q.len
  let out := head ++ q.frags.flatMap Prod.snd
  let out := out.set 1 (byteAt out 1 ||| ecn)
  let out := (out.set 2 (beBytes len).1).set 3 (beBytes len).2
  let out := (((out.set 6 0).set 7 0).set 10 0).set 11 0
  let c := not16 (fold (sum (out.take head.length)))
  (out.set 10 (beBytes c).1).set 11 (beBytes c).2

end Queue

/-- `Defragged` (frag.rs:50). -/
inductive Defragged
  | complete (datagram : List Byte)
  | pending
  | dropped
  deriving DecidableEq

/-- `Defrag` (frag.rs:59). A peer has its count and when it was last used. -/
structure Defrag where
  queues : List (Nat × Queue)
  mem : Nat
  peers : List (Nat × Nat × Nat)
  fails : Nat
  timeouts : Nat
  oks : Nat

namespace Defrag

/-- `new` (frag.rs:84). -/
def new : Defrag := ⟨[], 0, [], 0, 0, 0⟩

variable (d : Defrag)

/-- `kill` (frag.rs:89). -/
def kill (key : Nat) : Defrag :=
  match getKey key d.queues with
  | some q =>
    { d with queues := eraseKey key d.queues, mem := d.mem - q.mem, fails := d.fails + 1 }
  | none => { d with fails := d.fails + 1 }

/-- `inet_frag_find` (frag.rs:110). -/
def findQueue (key now : Nat) : Defrag :=
  if (getKey key d.queues).isNone then
    { d with queues := insertKey key (Queue.fresh 0 (now + FRAG_TIME)) d.queues }
  else d

/-- The peers after room was made for `source` (frag.rs:119). -/
def prunePeers (source now : Nat) : List (Nat × Nat × Nat) :=
  if PEERS_MAX ≤ d.peers.length ∧ (getKey source d.peers).isNone then
    d.peers.filter fun p => decide (now - p.2.2 < FRAG_TIME)
  else d.peers

/-- The number of a fragment among its source's (frag.rs:123). -/
def nextRid (source now : Nat) : Nat :=
  match getKey source (d.prunePeers source now) with
  | some (rid, _) => add32 rid 1
  | none => add32 0 1

/-- Count a fragment of its source. -/
def countPeer (source now : Nat) : Defrag :=
  { d with peers := insertKey source (d.nextRid source now, now) (d.prunePeers source now) }

/-- `ip_frag_too_far` (frag.rs:129): the queue starts over if its source sent many others
since its last fragment. -/
def tooFar (key rid now : Nat) : Defrag :=
  match getKey key d.queues with
  | none => d
  | some q =>
    if !q.frags.isEmpty && decide (MAX_DIST < sub32 rid q.rid) then
      { d with
        queues := insertKey key (Queue.fresh rid (now + FRAG_TIME)) d.queues
        mem := d.mem - q.mem
        fails := d.fails + 1 }
    else { d with queues := insertKey key { q with rid := rid } d.queues }

/-- `ip_frag_reasm` (frag.rs:206). -/
def reasm (key : Nat) (q : Queue) : Defragged × Defrag :=
  let d := { d with queues := eraseKey key d.queues, mem := d.mem - q.mem }
  let head := q.head.getD []
  match ecnOf q.ecn with
  | none => (.dropped, { d with fails := d.fails + 1 })
  | some ecn =>
    if 65535 < head.length + q.len then (.dropped, { d with fails := d.fails + 1 })
    else (.complete (q.datagram head ecn), { d with oks := d.oks + 1 })

/-- `ip_frag_queue` (frag.rs:146-203) for the queue `q` of the key. -/
def fragQueue (key : Nat) (q : Queue) (ip : List Byte) : Defragged × Defrag :=
  let offset := offsetOf ip
  let last := endOf ip
  match q.takeLen last (mfOf ip) with
  | none => (.dropped, d.kill key)
  | some q =>
    if last = offset then (.dropped, d.kill key)
    else
      let hit := q.overlapped offset last
      if !hit.isEmpty then
        if Queue.covered hit offset last = last - offset then
          -- A duplicate: dropped alone. The length has been taken from it.
          (.dropped, { d with queues := insertKey key q d.queues })
        else (.dropped, d.kill key)
      else
        let q := q.add ip
        let d := { d with
          queues := insertKey key q d.queues
          mem := d.mem + ((dataOf ip).length + FRAG_OVERHEAD) }
        if q.whole then d.reasm key q else (.pending, d)

/-- The queue a fragment meets: found or started, and started over if it is too far. -/
def arrive (ip : List Byte) (now : Nat) : Defrag :=
  let key := keyOf ip
  let source := keySource key
  let rid := (d.findQueue key now).nextRid source now
  ((d.findQueue key now).countPeer source now).tooFar key rid now

/-- `input` (frag.rs:98). -/
def input (ip : List Byte) (now : Nat) : Defragged × Defrag :=
  if HIGH_THRESH < d.mem then (.dropped, { d with fails := d.fails + 1 })
  else
    match getKey (keyOf ip) (d.arrive ip now).queues with
    | none => (.dropped, d.arrive ip now)
    | some q => (d.arrive ip now).fragQueue (keyOf ip) q ip

/-- The queues that are due (frag.rs:233). -/
def due (now : Nat) : List (Nat × Queue) := d.queues.filter fun e => decide (e.2.expires ≤ now)

/-- `expire` (frag.rs:232), with fragment 0 of each queue that had it. -/
def expire (now : Nat) : List (List Byte) × Defrag :=
  ((d.due now).filterMap fun e => e.2.first,
    { d with
      queues := d.queues.filter fun e => !decide (e.2.expires ≤ now)
      mem := d.mem - ((d.due now).map fun e => e.2.mem).sum
      fails := d.fails + (d.due now).length
      timeouts := d.timeouts + (d.due now).length })

end Defrag

end NopeekOS.Net
