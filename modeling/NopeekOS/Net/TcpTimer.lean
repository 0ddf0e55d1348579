import NopeekOS.Net.TcpOutput

/-!
# The timers of a connection

What `tick` does to one connection (tcp.rs:2309-2441), with the ACK timers it asks (ack.rs:261).
`tick` sends retransmissions and probes itself; ACKs and SYNs it builds for its caller, which
sends them once it let go of the table.
-/

namespace NopeekOS.Net.Tcp

open Lib

namespace TcpConn

variable (c : TcpConn)

/-- The delayed ACK's part of `timer_due` (ack.rs:275-285). -/
def delackDue (now : Nat) : Bool × TcpConn :=
  if ¬ c.ack.timer ∨ now < c.ack.timeout then (false, c)
  else
    let c : TcpConn := { c with ack := { c.ack with timer := false } }
    if ¬ c.ack.sched then (false, c)
    else if ¬ c.inPingpongMode then
      -- The delayed ACK was missed: a longer timeout.
      (true, { c with ack := { c.ack with
        ato := min (min (c.ack.ato * 2) c.rto) TCP_DELACK_MAX } })
    else (true, { c with ack := { c.ack with pingpong := 0, ato := TCP_ATO_MIN } })

/-- `timer_due` (ack.rs:267): whether an ACK is due now. -/
def timerDue (now : Nat) : Bool × TcpConn :=
  if c.ack.compAt ≠ 0 ∧ c.ack.compAt ≤ now then
    let c : TcpConn := { c with ack := { c.ack with compAt := 0 } }
    if c.ack.compressedAck ≠ 0 then
      (true, { c with ack := { c.ack with compressedAck := c.ack.compressedAck - 1 } })
    else c.delackDue now
  else c.delackDue now

/-- Data, or our FIN, waits to go out (tcp.rs:2312-2314). -/
def unsent : Bool :=
  c.sends && (c.sndNxt != add32 c.sndUna c.sendBuf.length || (c.finQueued && !c.finSent))

/-- The states that `FIN_TIMEOUT_TICKS` ends. -/
def finState : Bool :=
  match c.state with
  | .finWait1 | .finWait2 | .closing | .lastAck => true
  | _ => false

/-- Given up: the error is kept for the owner. -/
def giveUp (now : Nat) : TcpConn := { c.setClosed with error := true, lastSendTick := now }

end TcpConn

namespace Work

variable (w : Work)

/-- The ACK timers in `tick` (tcp.rs:2319-2330), with the segment for the caller. -/
def tickAck : Work × List OutSeg :=
  let (due, c) := w.c.timerDue w.io.now
  let w : Work := { w with c }
  if due ∧ w.c.localIp = w.io.ourIp then
    let (win, w) := w.recvWindow
    (w.on (·.eventAckSent),
      [⟨w.c.sndNxt, w.c.r.rcvNxt, false, false, false, false, true, win, []⟩])
  else (w, [])

/-- The SYN again (tcp.rs:2333-2364). -/
def tickSyn : Work × List OutSeg :=
  let now := w.io.now
  if w.c.state = .synSent ∧ w.c.rto ≤ now - w.c.lastSendTick then
    if w.c.retransmitsTimedOut w.io.tsNowMs TCP_SYN_RETRIES TCP_TIMEOUT_INIT 0 then
      (w.on (·.giveUp now), [])
    else
      let c : TcpConn := { w.c with
        -- The first SYN's stamp.
        retransStamp := some (w.c.retransStamp.getD (w.c.synSentUs / 1000 % 2 ^ 32))
        retries := (w.c.retries + 1) % 2 ^ 8
        rto := min (w.c.rto * 2) TCP_RTO_MAX }
      if c.localIp = w.io.ourIp then
        ({ w with c := { c with lastSendTick := now, synSentUs := w.io.nowUs } },
          [⟨c.sndIss, 0, true, false, false, false, false, INITIAL_WINDOW, []⟩])
      else ({ w with c }, [])
  else (w, [])

/-- The retransmit timer runs out (tcp.rs:2374-2408). -/
def rtoFires : Work :=
  let now := w.io.now
  let zeroWindow := w.c.sndWnd == 0 && decide (now - w.c.lastAckRx ≤ 2 * TCP_RTO_MAX)
  let retryUntil :=
    if ¬ w.c.released then TCP_RETRIES2
    else if w.c.rto < TCP_RTO_MAX then TCP_ORPHAN_RETRIES
    else 0
  if ¬ zeroWindow ∧ w.c.retransmitsTimedOut w.io.tsNowMs retryUntil TCP_RTO_MIN w.c.userTimeout then
    w.on (·.giveUp now)
  else
    let w := w.on fun c =>
      let c := c.enterLoss w.io.nowUs
      { c with retries := min (c.retries + 1) 255 }
    let (_, w) := w.retransmitSkb 0
    w.on fun c =>
      let c : TcpConn := { c with lastSendTick := now, rto := min (c.rto * 2) TCP_RTO_MAX }
      { c with rtxAt := now + c.rtoClamped w.io.tsNowMs }

/-- The retransmit timer's slot (tcp.rs:2368-2409), shared by RACK and the loss probe. -/
def tickRtx : Work :=
  if w.c.sends ∧ w.c.tx.packetsOut ≠ 0 ∧ w.c.rtxAt ≤ w.io.now then
    match w.c.tx.pending with
    | .reo => w.rackReoTimeout
    | .lossProbe => w.sendLossProbe
    | .retrans => w.rtoFires
  else w

/-- The persist timer (tcp.rs:2412-2431). -/
def tickProbe : Work :=
  let now := w.io.now
  if w.c.probeAt ≠ 0 ∧ w.c.probeAt ≤ now then
    if ¬ w.c.sends ∨ ¬ w.c.windowBlocked then w.on fun c => { c with probeAt := 0, probesOut := 0 }
    else if TCP_RETRIES2 ≤ w.c.probesOut then w.on fun c => { c.giveUp now with probeAt := 0 }
    else
      let (win, w) := w.recvWindow
      -- A number already acknowledged makes the peer answer with its window.
      let (_, w) := w.sendAckSeg (sub32 w.c.sndUna 1) false false win []
      w.on fun c =>
        let c : TcpConn := { c with
          probesOut := c.probesOut + 1
          backoff := if c.backoff < TCP_RETRIES2 then c.backoff + 1 else c.backoff }
        { c with probeAt := now + c.probe0When }
  else w

/-- The end of a half-closed connection (tcp.rs:2437-2441). -/
def tickFin : Work :=
  if w.c.finState ∧ FIN_TIMEOUT_TICKS < w.io.now - w.c.lastSendTick then w.on (·.setClosed) else w

/-- `tick` for one connection (tcp.rs:2309-2441): what is left, and the segments for the
caller. -/
def tick : Work × List OutSeg :=
  let w := if w.c.unsent then w.writeXmit else w
  let (w, acks) := w.tickAck
  let (w, syns) := w.tickSyn
  (w.tickRtx.tickProbe.tickFin, acks ++ syns)

end Work

end NopeekOS.Net.Tcp
