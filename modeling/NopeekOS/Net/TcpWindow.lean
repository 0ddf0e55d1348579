import NopeekOS.Lib.Run
import NopeekOS.Net.TcpRecv

/-!
# The window a TCP connection offers

The model of `select_window_raw`, `recv_window` and `receive_window` (tcp.rs:291-355, 887), of
the calls that send a segment with a window, and of what moves `rcv_nxt` and the buffers in
between: the data path, the peer's FIN, `recv` with `cleanup_rbuf` (ack.rs:288), `close`, the
ACKs of `tick` and the hand-over to the TIME-WAIT table (timewait.rs:48).

`tick` does not send its ACKs: it builds them and gives them to the caller, which sends them
after it let go of the table (tcp.rs:2319-2332, `send_pending`). They are `deferred` here, and
any other call may come before they go out.

What the sender decides (when data or the FIN goes out, what the driver takes) is part of the
event. The peer's edge is computed from what is on the `wire`. Every segment carries, besides
`ack`, the position `off` that `ack` is the number of; positions do not wrap.
-/

namespace NopeekOS.Net

open Lib

def RCV_WND_MIN : Nat := 256 * 1024
def RCV_WND_MAX : Nat := RECV_BUF_SIZE
def OUR_WSCALE : Nat := 8
def MAX_TCP_WINDOW : Nat := 65535
def INITIAL_WINDOW : Nat := 65535

namespace RecvSide

variable (r : RecvSide)

/-- Our shift, if scaling was agreed on. -/
def wscale : Nat := if r.wscaleOk then OUR_WSCALE else 0

/-- `full_space` (tcp.rs:293); `forced` is the manual cap, 0 for none. -/
def fullSpace (forced : Nat) : Nat :=
  if 0 < forced then min forced RCV_WND_MAX else min (max r.drsWin RCV_WND_MIN) RCV_WND_MAX

/-- The end of `select_window_raw`: the free bytes as a window (tcp.rs:322-334). -/
def offer (full mss free : Nat) : Nat :=
  if r.wscale ≠ 0 then (free + 2 ^ r.wscale - 1) / 2 ^ r.wscale * 2 ^ r.wscale
  else if r.rcvWnd + mss ≤ free ∨ free < r.rcvWnd then free / mss * mss
  else if mss = full ∧ r.rcvWnd + full / 2 < free then free
  else r.rcvWnd

/-- `select_window_raw` (tcp.rs:309). -/
def selectWindowRaw (forced : Nat) : Nat :=
  let full := r.fullSpace forced
  let free := full - (r.recvBuf.length + r.oooBytes)
  let mss := min r.rcvMss full
  if full < r.rcvMss ∧ mss = 0 then 0
  else if free < full / 2 then
    -- Less than half: only whole units of the scale, and no sliver.
    let free := free / 2 ^ r.wscale * 2 ^ r.wscale
    if free < full / 16 ∨ free < mss then 0 else r.offer full mss free
  else r.offer full mss free

/-- `receive_window` (tcp.rs:887): what is left of the window we offered. -/
def receiveWindow : Nat :=
  let w := sub32 (add32 r.rcvWup r.rcvWnd) r.rcvNxt
  -- As an `i32`, at least 0.
  if w < 2 ^ 31 then w else 0

/-- The window `recv_window` settles on: one that does not shrink (tcp.rs:342-347). -/
def newWindow (forced : Nat) : Nat :=
  let cur := r.receiveWindow
  let new := r.selectWindowRaw forced
  if new < cur then (cur + 2 ^ r.wscale - 1) / 2 ^ r.wscale * 2 ^ r.wscale else new

/-- `recv_window` (tcp.rs:340): the window field, and what is remembered of it. -/
def recvWindow (forced : Nat) : Nat × RecvSide :=
  let new := r.newWindow forced
  (min new (MAX_TCP_WINDOW * 2 ^ r.wscale) / 2 ^ r.wscale,
    { r with rcvWnd := new, rcvWup := r.rcvNxt })

end RecvSide

/-- A segment, as far as the peer computes an edge from it: `off` is the position that `ack`
is the number of (0 in a reset). -/
structure SentSeg where
  off : Nat
  ack : Nat
  window : Nat
deriving DecidableEq, Repr

/-- The right edge, for a peer that knows our shift. -/
def SentSeg.edge (ws : Nat) (s : SentSeg) : Nat := s.off + s.window * 2 ^ ws

/-- The edge as the peer has it, modulo 2^32. -/
def SentSeg.wireEdge (ws : Nat) (s : SentSeg) : Nat := add32 s.ack (s.window * 2 ^ ws)

/-- What became of a segment: the driver took it, the driver refused it, or our address
changed and it was not even built (tcp.rs:2908). -/
inductive Handoff
  | taken
  | refused
  | unrouted
deriving DecidableEq, Repr

/-- A TIME-WAIT entry, as far as its ACKs need it (timewait.rs:20). -/
structure TwWindow where
  finWait2 : Bool
  off : Nat
  rcvNxt : Nat
  rcvWnd : Nat

/-- A connection after its handshake, with the entry that follows it, the segments that wait
to be sent and those that were. -/
structure WinConn where
  state : State
  r : RecvSide
  /-- `ACK_SCHED`. -/
  sched : Bool
  /-- The peer's FIN is in. -/
  closed : Bool
  /-- Our side closed. -/
  released : Bool
  finSent : Bool
  tw : Option TwWindow
  deferred : List SentSeg
  wire : List SentSeg

/-- One call, or one part of `input`, with what the rest of the kernel decides. `forced` is
the manual cap at that moment. -/
inductive WinEvent
  /-- The data of a segment. -/
  | data (seq : Nat) (payload : List Byte) (granted : Bool)
  /-- The peer's FIN, where it belongs. -/
  | fin (forced : Nat) (h : Handoff)
  /-- A segment of any kind with our window: an ACK, data, a probe, a retransmission. -/
  | send (forced : Nat) (h : Handoff)
  /-- Our FIN. -/
  | sendFin (forced : Nat) (h : Handoff)
  /-- Our FIN is acknowledged. -/
  | finAcked
  /-- `tick` builds an ACK. -/
  | defer (forced : Nat)
  /-- The caller of `tick` sends the next one it got. -/
  | flush (h : Handoff)
  /-- The application reads; `pushed` is the condition on the `ACK_PUSHED` bits. -/
  | recv (n : Nat) (pushed : Bool) (forced : Nat) (h : Handoff)
  | close (forced : Nat) (h : Handoff)
  /-- The autotuning and the estimate of the peer's segment size. -/
  | tune (rcvMss drsWin : Nat)
  /-- To the TIME-WAIT table, if that has room. -/
  | timeWait (room : Bool)
  /-- The TIME-WAIT entry takes the peer's FIN. -/
  | twFin
  | twAck (h : Handoff)
  | twGone
  /-- A reset with a zero window. -/
  | reset (ack : Nat)
  /-- The connection is over: reset by the peer, timed out. -/
  | setClosed

namespace WinConn

variable (c : WinConn)

/-- The position of `rcv_nxt`: the FIN counts. -/
def pos : Nat := c.r.rcvOff + if c.closed then 1 else 0

/-- The table still has it: a closed one that its owner let go of is removed. -/
def live : Bool := !(c.state = .closed && c.released)

/-- Data after one side closed resets the connection (tcp.rs:1962). -/
def shut : Bool :=
  c.released || c.state = .closeWait || c.state = .closing || c.state = .lastAck ||
    c.state = .timeWait

/-- A state in which data and the peer's FIN are taken. -/
def receives : Bool :=
  c.state = .established || c.state = .finWait1 || c.state = .finWait2

/-- `recv_window` and a segment with it. -/
def build (forced : Nat) : WinConn × SentSeg :=
  let (window, r) := c.r.recvWindow forced
  ({ c with r }, ⟨c.pos, c.r.rcvNxt, window⟩)

/-- `send_seg`: after a segment that was at least built, no ACK is pending (tcp.rs:2915). -/
def sendSeg (forced : Nat) (h : Handoff) : WinConn × List SentSeg :=
  let (c, s) := c.build forced
  match h with
  | .taken => ({ c with sched := false }, [s])
  | .refused => ({ c with sched := false }, [])
  | .unrouted => (c, [])

/-- The data of a segment (tcp.rs:1957-2139). -/
def data (seq : Nat) (payload : List Byte) (granted : Bool) : WinConn × List SentSeg :=
  if payload = [] then (c, [])
  else if c.shut ∧ seqAfter (add32 seq payload.length) c.r.rcvNxt then
    -- The reset that answers it; its `ack` is 0 or that of the segment.
    ({ c with state := .closed }, [⟨0, 0, 0⟩])
  else if c.receives then
    ({ c with r := c.r.dataQueue seq payload granted, sched := true }, [])
  else (c, [])

/-- The peer's FIN counts as one, and earns an ACK (tcp.rs:2144-2147). -/
def takeFin : WinConn :=
  { c with r := { c.r with rcvNxt := add32 c.r.rcvNxt 1 }, closed := true, sched := true }

/-- The peer's FIN (tcp.rs:2140-2166). -/
def fin (forced : Nat) (h : Handoff) : WinConn × List SentSeg :=
  match c.state with
  | .established => ({ c.takeFin with state := .closeWait }, [])
  | .finWait1 =>
    ({ (c.takeFin.sendSeg forced h).1 with state := .closing }, (c.takeFin.sendSeg forced h).2)
  | _ =>
    ({ (c.takeFin.sendSeg forced h).1 with state := .timeWait }, (c.takeFin.sendSeg forced h).2)

/-- Our FIN is acknowledged (tcp.rs:1946-1956). -/
def finAcked : WinConn :=
  match c.state with
  | .finWait1 => { c with state := .finWait2 }
  | .closing => { c with state := .timeWait }
  | .lastAck => { c with state := .closed }
  | _ => c

/-- Whether a read earns an ACK (`cleanup_rbuf`, ack.rs:288). -/
def timeToAck (copied : Nat) (pushed : Bool) (forced : Nat) : Bool :=
  let due := c.sched && (decide (c.r.rcvMss < sub32 c.r.rcvNxt c.r.rcvWup) || pushed)
  let new := c.r.selectWindowRaw forced
  due || (decide (0 < copied) && !c.closed &&
    decide (2 * c.r.receiveWindow ≤ c.r.fullSpace forced) && decide (new ≠ 0) &&
    decide (2 * c.r.receiveWindow ≤ new))

/-- `recv` (tcp.rs:1441). -/
def recv (n : Nat) (pushed : Bool) (forced : Nat) (h : Handoff) : WinConn × List SentSeg :=
  let (out, r) := c.r.recv n
  let c := { c with r }
  if c.state ≠ .closed ∧ c.state ≠ .timeWait ∧ c.timeToAck out.length pushed forced then
    c.sendSeg forced h
  else (c, [])

/-- `close` (tcp.rs:1505): unread data is answered by a reset that has our window. -/
def close (forced : Nat) (h : Handoff) : WinConn × List SentSeg :=
  if c.r.recvBuf ≠ [] ∨ c.r.ooo ≠ [] then
    let (c, sent) := { c with released := true }.sendSeg forced h
    ({ c with state := .closed }, sent)
  else if c.state = .established then
    ({ c with state := .finWait1, released := true }, [])
  else ({ c with state := .lastAck, released := true }, [])

/-- The entry that takes the connection's place (timewait.rs:50). -/
def fromConn : TwWindow :=
  ⟨c.state = .finWait2, c.pos, c.r.rcvNxt, c.r.receiveWindow⟩

/-- `timewait::send_ack` (timewait.rs:168). -/
def twAck (tw : TwWindow) : SentSeg :=
  ⟨tw.off, tw.rcvNxt, min (tw.rcvWnd / 2 ^ c.r.wscale) 65535⟩

/-- When an event can come. -/
def Enabled : WinEvent → Prop
  | .data _ payload _ => c.live ∧ payload.length ≤ 65535
  | .fin .. => c.live ∧ c.receives
  | .send .. => c.live ∧ c.state ≠ .closed
  | .sendFin .. => c.live ∧ c.released ∧ ¬ c.finSent ∧ c.state ≠ .closed
  | .finAcked => c.live ∧ c.finSent
  | .defer _ => c.live
  | .flush _ => True
  | .recv .. => c.live
  | .close .. => c.live ∧ (c.state = .established ∨ c.state = .closeWait)
  | .tune rcvMss _ => rcvMss ≤ 65535
  | .timeWait _ => c.live ∧ (c.state = .timeWait ∨ c.state = .finWait2 ∧ c.released)
  | .twFin | .twAck _ | .twGone => c.tw.isSome
  | .reset _ => True
  | .setClosed => c.live

/-- One event: the connection after it, and the segments that went out. -/
def step : WinEvent → WinConn × List SentSeg
  | .data seq payload granted => c.data seq payload granted
  | .fin forced h => c.fin forced h
  | .send forced h => c.sendSeg forced h
  | .sendFin forced h =>
    let (c, sent) := c.sendSeg forced h
    ({ c with finSent := decide (h = .taken) }, sent)
  | .finAcked => (c.finAcked, [])
  | .defer forced =>
    let (c, s) := c.build forced
    ({ c with sched := false, deferred := c.deferred ++ [s] }, [])
  | .flush h =>
    match c.deferred with
    | [] => (c, [])
    | s :: rest => ({ c with deferred := rest }, if h = .taken then [s] else [])
  | .recv n pushed forced h => c.recv n pushed forced h
  | .close forced h => c.close forced h
  | .tune rcvMss drsWin => ({ c with r := { c.r with rcvMss, drsWin } }, [])
  | .timeWait room =>
    ({ c with state := .closed, tw := if room then some c.fromConn else none }, [])
  | .twFin =>
    ({ c with tw := c.tw.map fun tw =>
        if tw.finWait2 then ⟨false, tw.off + 1, add32 tw.rcvNxt 1, tw.rcvWnd⟩ else tw }, [])
  | .twAck h => (c, if h = .taken then (c.tw.map c.twAck).toList else [])
  | .twGone => ({ c with tw := none }, [])
  | .reset ack => (c, [⟨0, ack, 0⟩])
  | .setClosed => ({ c with state := .closed }, [])

/-- The event comes, and its segments go onto the wire. -/
def Step (c : WinConn) (e : WinEvent) (c' : WinConn) : Prop :=
  c.Enabled e ∧ c' = { (c.step e).1 with wire := (c.step e).1.wire ++ (c.step e).2 }

end WinConn

end NopeekOS.Net
