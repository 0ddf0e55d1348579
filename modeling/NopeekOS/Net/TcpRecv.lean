import NopeekOS.Lib.SeqNum
import NopeekOS.Lib.ByteBits
import NopeekOS.Net.OooRuns

/-!
# The receive side of a TCP connection

The model of the data path of `Stack::input` (tcp.rs:1983-2139) and of `recv`. Sequence numbers
are `u32` values, stream offsets do not wrap. The reassembly queue is a map from stream
offsets to bytes, and what it holds is kept a second time as runs (`OooRuns`). Whether memory
is granted for a segment (`mem_charge`) is an input.

Counters, statistics and the scheduling of ACKs are left out here.
-/

namespace NopeekOS.Net

open Lib

def RECV_BUF_SIZE : Nat := 8 * 1024 * 1024

/-- The states of a connection (tcp.rs:481). -/
inductive State
  | closed
  | listen
  | synSent
  | synReceived
  | established
  | finWait1
  | finWait2
  | closeWait
  | closing
  | lastAck
  | timeWait
deriving DecidableEq, Repr

/-- The fields of `TcpConn` that the receive path reads (tcp.rs:600-660). -/
structure RecvSide where
  rcvNxt : Nat
  rcvOff : Nat
  rcvWup : Nat
  rcvWnd : Nat
  rcvMss : Nat
  drsWin : Nat
  wscaleOk : Bool
  sackOk : Bool
  recvBuf : List Byte
  ooo : List (Nat × List Byte)
  oooBytes : Nat
  oooRuns : Runs
  dsack : Option (Nat × Nat)

namespace RecvSide

variable (r : RecvSide)

/-- `rcv_space` (tcp.rs:2964). -/
def rcvSpace : Nat := min (RECV_BUF_SIZE - r.recvBuf.length) RECV_BUF_SIZE

/-- A segment that starts in what is there and ends past it: its new tail, with a D-SACK for
the rest (tcp.rs:1983-1995). -/
def partialPacket (seq : Nat) (payload : List Byte) : RecvSide × Nat × List Byte :=
  if payload ≠ [] ∧ seqBefore seq r.rcvNxt ∧ seqAfter (add32 seq payload.length) r.rcvNxt then
    (if r.sackOk then { r with dsack := some (seq, r.rcvNxt) } else r, r.rcvNxt,
      payload.drop (sub32 r.rcvNxt seq))
  else (r, seq, payload)

/-- The loop that pulls contiguous segments out of the queue (tcp.rs:2013-2036), given the
queue. -/
def drain (r : RecvSide) : List (Nat × List Byte) → RecvSide
  | [] => { r with ooo := [] }
  | (k, seg) :: rest =>
    -- Already delivered.
    if k + seg.length ≤ r.rcvOff then
      drain { r with oooBytes := r.oooBytes - seg.length } rest
    -- Still a gap before it.
    else if r.rcvOff < k then { r with ooo := (k, seg) :: rest }
    else if RECV_BUF_SIZE < r.recvBuf.length + seg.length - (r.rcvOff - k) then
      { r with ooo := (k, seg) :: rest }
    else
      drain { r with
        oooBytes := r.oooBytes - seg.length
        rcvNxt := add32 r.rcvNxt (seg.length - (r.rcvOff - k))
        rcvOff := r.rcvOff + (seg.length - (r.rcvOff - k))
        recvBuf := r.recvBuf ++ seg.drop (r.rcvOff - k) } rest

/-- How much of the next segment is taken (tcp.rs:2000-2002). -/
def copyLen (payload : List Byte) (granted : Bool) : Nat :=
  if granted then min payload.length (RECV_BUF_SIZE - r.recvBuf.length) else 0

/-- The next segment (tcp.rs:1999-2046). -/
def inOrder (payload : List Byte) (granted : Bool) : RecvSide :=
  let copy := r.copyLen payload granted
  let r := { r with
    recvBuf := r.recvBuf ++ payload.take copy
    rcvNxt := add32 r.rcvNxt copy
    rcvOff := r.rcvOff + copy }
  let r := r.drain r.ooo
  { r with oooRuns := oooRunsTrim r.oooRuns r.rcvOff }

/-- An entry that lies in `[off, last)` (tcp.rs:2093). -/
def inside (off last : Nat) (e : Nat × List Byte) : Bool :=
  decide (off ≤ e.1) && decide (e.1 < last) && decide (e.1 + e.2.length ≤ last)

/-- The queue without the segments that lie in `[off, last)` (tcp.rs:2093-2099). -/
def removeInside (off last : Nat) : RecvSide :=
  { r with
    ooo := r.ooo.filter fun e => !inside off last e
    oooBytes := r.oooBytes - ((r.ooo.filter (inside off last)).map fun e => e.2.length).sum }

/-- A segment behind a gap (tcp.rs:2064-2113). -/
def ahead (seq : Nat) (payload : List Byte) (granted : Bool) : RecvSide :=
  let off := r.rcvOff + sub32 seq r.rcvNxt
  let last := off + payload.length
  if oooCovered r.oooRuns off last then
    if r.sackOk then { r with dsack := some (seq, add32 seq payload.length) } else r
  else if last ≤ r.rcvOff + r.rcvSpace ∧ granted then
    let r := r.removeInside off last
    { r with
      oooBytes := r.oooBytes + payload.length
      ooo := insertKey off payload r.ooo
      oooRuns := oooRunsAdd r.oooRuns off last }
  else r

/-- A segment that is there already: a D-SACK (tcp.rs:2114-2139). -/
def behind (seq : Nat) (payload : List Byte) : RecvSide :=
  let last := add32 seq payload.length
  let hi := if seqAfter last r.rcvNxt then r.rcvNxt else last
  if seqAfter hi seq ∧ r.sackOk then { r with dsack := some (seq, hi) } else r

/-- The data path (tcp.rs:1983-2139). -/
def dataQueue (seq : Nat) (payload : List Byte) (granted : Bool) : RecvSide :=
  match r.partialPacket seq payload with
  | (r, seq, payload) =>
    if payload = [] then r
    else if seq = r.rcvNxt then r.inOrder payload granted
    else if seqAfter seq r.rcvNxt then r.ahead seq payload granted
    else r.behind seq payload

/-- `recv` (tcp.rs:1441) of at most `n` bytes. -/
def recv (n : Nat) : List Byte × RecvSide :=
  let available := min r.recvBuf.length n
  (r.recvBuf.take available, { r with recvBuf := r.recvBuf.drop available })

end RecvSide

end NopeekOS.Net
