import NopeekOS.Net.TcpSack

/-!
# Sending

The functions that hand segments to the driver: new data (`write_xmit_one`, tcp.rs:2559), the
retransmissions of recovery.rs with what an ACK or a timer makes of them, and the ACKs of ack.rs.
A connection is worked on together with the machine (`Work`).

Loops of the source have fuel here, chosen so that it never runs out: a segment of new data takes
at least a byte of the send buffer, and a retransmission moves on by a segment whose cutting ends
with its bytes.
-/

namespace NopeekOS.Net.Tcp

open Lib

def TCP_ATO_MIN : Nat := 4
def TCP_DELACK_MAX : Nat := 20
def TCP_PINGPONG_THRESH : Nat := 1

/-- The most data in one segment. -/
def CHUNK : Nat := 1460

namespace TcpConn

variable (c : TcpConn)

def inPingpongMode : Bool := decide (TCP_PINGPONG_THRESH ≤ c.ack.pingpong)

/-- `tcp_event_ack_sent` with `tcp_dec_quickack_mode` (ack.rs:160): an ACK for `rcv_nxt` left. -/
def eventAckSent : TcpConn :=
  let a := c.ack
  let pkts := if a.sched then 1 else 0
  let (quick, ato) :=
    if a.quick ≠ 0 then (if a.quick ≤ pkts then (0, TCP_ATO_MIN) else (a.quick - pkts, a.ato))
    else (a.quick, a.ato)
  { c with
    r := { c.r with dsack := none }
    ack := { a with
      compressedAck := 0, compAt := 0, quick, ato
      sched := false, timer := false, pushed := false, pushed2 := false, now := false
      nomem := false } }

/-- `tcp_retrans_try_collapse` (recovery.rs:1249), through the segments that may join; `space` is
what is left of it. -/
def collapseLoop (i wndEnd : Nat) : Nat → Int → Tx → Tx
  | 0, _, t => t
  | fuel + 1, space, t =>
    if t.queue.length ≤ i + 1 then t
    else
      let next := t.seg (i + 1)
      let space := space - next.len
      if next.sacked.acked ∨ space < 0 ∨ after next.endSeq wndEnd then t
      else
        let s := t.seg i
        let t : Tx := { t with queue := t.queue.eraseIdx (i + 1) }
        let t := t.setSeg i { s with
          endSeq := next.endSeq, fin := s.fin || next.fin
          sacked := { s.sacked with ever := s.sacked.ever || next.sacked.ever } }
        let t := t.decPackets
        let t := if next.sacked.retrans then t.decRetrans else t
        let t := if next.sacked.lost then t.decLost else t
        collapseLoop i wndEnd fuel space t

def retransTryCollapse (i space : Nat) : TcpConn :=
  let left : Int := (space : Int) - (c.tx.seg i).len
  { c with tx := collapseLoop i (add32 c.sndUna c.sndWnd) c.tx.queue.length left c.tx }

end TcpConn

/-- A connection and the machine. -/
structure Work where
  c : TcpConn
  io : Io

namespace Work

variable (w : Work)

/-- A step of the connection alone. -/
def on (f : TcpConn → TcpConn) : Work := { w with c := f w.c }

/-- `recv_window` (tcp.rs:340), which remembers what it offers. -/
def recvWindow : Nat × Work :=
  let (win, r) := w.c.r.recvWindow w.io.forced
  (win, { w with c := { w.c with r } })

/-- `send_seg` (tcp.rs:2915). Without our address there is no route. -/
def sendSeg (s : OutSeg) : Bool × Work :=
  if w.c.localIp ≠ w.io.ourIp then (false, w)
  else
    let (ok, io) := w.io.sendSegment s
    let c := if s.ackFlag ∧ s.ack = w.c.r.rcvNxt then w.c.eventAckSent else w.c
    (ok, ⟨c, io⟩)

/-- A segment of the connection with the ACK bit, and the window just offered. -/
def sendAckSeg (seq : Nat) (fin psh : Bool) (window : Nat) (payload : List Byte) : Bool × Work :=
  w.sendSeg ⟨seq, w.c.r.rcvNxt, false, fin, false, psh, true, window, payload⟩

/-! ## New data -/

/-- What the loop of `write_xmit_one` keeps. -/
structure Xmit where
  w : Work
  sentPkts : Nat
  limited : Bool

/-- A segment left (tcp.rs:2608-2610). -/
def sentNew (seq : Nat) : Work :=
  let c := w.c.newDataSent seq w.c.sndNxt w.c.finSent w.io.now w.io.nowUs
  { w with c := { c with lastSendTick := w.io.now } }

/-- The FIN alone (tcp.rs:2577-2583): whether the driver took it. -/
def xmitFin (win : Nat) : Bool × Work :=
  let seq := w.c.sndNxt
  let (ok, w) := w.sendAckSeg seq true false win []
  if ok then
    (true, ({ w with c := { w.c with sndNxt := add32 seq 1, finSent := true } } : Work).sentNew seq)
  else (false, w)

/-- The next `n` bytes (tcp.rs:2594-2606): whether the driver took them. -/
def xmitData (sent n win : Nat) : Bool × Work :=
  let seq := w.c.sndNxt
  let chunk := (w.c.sendBuf.drop sent).take n
  let w := w.on (·.eventDataSent w.io.now)
  -- The FIN rides on the last byte queued.
  let fin := w.c.finQueued && sent + n == w.c.sendBuf.length
  let (ok, w) := w.sendAckSeg seq fin true win chunk
  if ok then
    let c := { w.c with
      sndNxt := add32 seq (n + if fin then 1 else 0), finSent := w.c.finSent || fin }
    (true, ({ w with c } : Work).sentNew seq)
  else (false, w)

/-- The loop of `write_xmit_one` (tcp.rs:2564-2613). -/
def xmitLoop (mss pushOne : Nat) : Nat → Xmit → Xmit
  | 0, x => x
  | fuel + 1, x =>
    let c := x.w.c
    let sent := c.sent
    if c.finSent ∨ (c.sendBuf.length ≤ sent ∧ ¬ c.finQueued) then x
    -- Gate 1: the congestion window.
    else if c.sndCwnd ≤ c.tx.inFlight ∧ pushOne ≠ 2 then { x with limited := true }
    else
      let (win, w) := x.w.recvWindow
      let n := min (c.sendBuf.length - sent) mss
      if sent < c.sendBuf.length ∧ c.sndWnd < sent + n then
        -- Gate 2: the peer's window, with nothing in flight to bring an ACK.
        if sent = 0 ∧ c.probeAt = 0 then
          { x with w := { w with c := { w.c with probeAt := w.io.now + w.c.probe0When } } }
        else { x with w }
      else
        let (ok, w) := if c.sendBuf.length ≤ sent then w.xmitFin win else w.xmitData sent n win
        let x : Xmit := { x with w, sentPkts := x.sentPkts + if ok then 1 else 0 }
        if ¬ ok ∨ pushOne ≠ 0 then x else xmitLoop mss pushOne fuel x

/-- `write_xmit_one` (tcp.rs:2559). -/
def writeXmitOne (pushOne : Nat) : Work :=
  let x := xmitLoop (min w.c.mssCache CHUNK) pushOne (w.c.sendBuf.length + 2) ⟨w, 0, false⟩
  let now := w.io.now
  x.w.on fun c =>
    (c.xmitDone x.sentPkts x.limited now).xmitScheduled x.sentPkts pushOne now w.io.nowUs

/-- `write_xmit` (tcp.rs:2553). -/
def writeXmit : Work := w.writeXmitOne 0

/-! ## Retransmission -/

/-- Cut or joined so that segment `i` fits what may go (recovery.rs:1287-1299). -/
def fitSeg (c : TcpConn) (i avail curMss : Nat) : TcpConn :=
  let len :=
    if avail < curMss then
      let whole := avail / curMss * curMss
      if whole = 0 then avail else whole
    else curMss
  if len < (c.tx.seg i).len then { c with tx := c.tx.fragment i len }
  else if (c.tx.seg i).len < min avail curMss then c.retransTryCollapse i (min avail curMss)
  else c

/-- The send itself (recovery.rs:1300-1324). -/
def resend (i seq : Nat) : Bool × Work :=
  let s := w.c.tx.seg i
  let n := s.len
  let chunk := (w.c.sendBuf.drop (sub32 s.seq w.c.sndUna)).take n
  let (win, w) := w.recvWindow
  let w := if 0 < n then w.on (·.eventDataSent w.io.now) else w
  let (ok, w) := w.sendAckSeg seq s.fin (!(s.fin && n == 0)) win chunk
  let w :=
    if ok then
      let t := w.c.tx.setSeg i { w.c.tx.seg i with sentUs := w.io.nowUs }
      let t := t.rateSkbSent i t.packetsOut
      { w with c := { w.c with
          tx := { t with totalRetrans := add32 t.totalRetrans 1 }, lastSendTick := w.io.now } }
    else w
  -- Even when it failed: no RTT sample from a send that did not happen.
  (ok, w.on fun c =>
    { c with tx := c.tx.setTag i { (c.tx.seg i).sacked with ever := true } })

/-- `__tcp_retransmit_skb` (recovery.rs:1274). -/
def retransmitSkbRaw (i : Nat) : Bool × Work :=
  let curMss := min w.c.mssCache CHUNK
  let seq := (w.c.tx.seg i).seq
  let avail := sub32 (add32 w.c.sndUna w.c.sndWnd) seq
  let closed := avail = 0 ∨ 2 ^ 31 ≤ avail
  -- Only the head goes into a shrunk window, as a probe.
  if closed ∧ seq ≠ w.c.sndUna then (false, w)
  else (w.on (fitSeg · i (if closed then curMss else avail) curMss)).resend i seq

/-- `tcp_retransmit_skb` (recovery.rs:1330): a retransmission that counts in `retrans_out`,
whether or not the segment carries `SACKED_RETRANS` already. -/
def retransmitSkb (i : Nat) : Bool × Work :=
  let (ok, w) := w.retransmitSkbRaw i
  let c := w.c
  let c : TcpConn :=
    if ok then
      let t := c.tx.setTag i { (c.tx.seg i).sacked with retrans := true, ever := true }
      { c with tx := { t with retransOut := t.retransOut + 1 } }
    else c
  let c : TcpConn :=
    if c.retransStamp.isNone then
      { c with retransStamp := some ((c.tx.seg i).sentUs / 1000 % 2 ^ 32) }
    else c
  (ok, { w with c := { c with tx := { c.tx with undoRetrans := max c.tx.undoRetrans 0 + 1 } } })

/-- The loop of `xmit_retransmit_queue` (recovery.rs:1352-1365), with whether the head went. -/
def retransLoop : Nat → Nat → Work → Bool → Work × Bool
  | 0, _, w, rearm => (w, rearm)
  | fuel + 1, i, w, rearm =>
    let t := w.c.tx
    if t.queue.length ≤ i ∨ w.c.sndCwnd ≤ t.inFlight ∨ t.lostOut ≤ t.retransOut then (w, rearm)
    else
      let g := (t.seg i).sacked
      if ¬ g.lost ∨ g.acked ∨ g.retrans then retransLoop fuel (i + 1) w rearm
      else
        let (ok, w) := w.retransmitSkb i
        if ¬ ok then (w, rearm)
        else
          let w := w.on fun c =>
            if c.inCwndReduction then
              { c with tx := { c.tx with prrOut := add32 c.tx.prrOut 1 } }
            else c
          retransLoop fuel (i + 1) w (rearm || (i == 0 && w.c.tx.pending != .reo))

/-- `tcp_xmit_retransmit_queue` (recovery.rs:1348). -/
def xmitRetransmitQueue : Work :=
  if w.c.tx.packetsOut = 0 then w
  else
    let fuel := (w.c.tx.queue.map fun s => s.space + 1).sum
    let (w, rearm) := retransLoop fuel 0 w false
    if rearm then w.on fun c => c.resetXmitTimer .retrans c.rto w.io.now else w

/-- `tcp_send_loss_probe` (recovery.rs:398): new data if the window takes it, else the last
segment again. -/
def sendLossProbe : Work :=
  let w :=
    if w.c.tx.tlpHighSeq.isNone then
      let w := w.on fun c => { c with tx := { c.tx with tlpRetrans := false } }
      let sent := w.c.sent
      let unsent := w.c.sendBuf.length - sent
      let (probed, w) :=
        if 0 < unsent ∧ sent + min unsent w.c.mssCache ≤ w.c.sndWnd then
          let w' := w.writeXmitOne 2
          (decide (w.c.tx.packetsOut < w'.c.tx.packetsOut), w')
        else if w.c.tx.queue.isEmpty then (false, w)
        else
          let (ok, w) := w.retransmitSkbRaw (w.c.tx.queue.length - 1)
          (ok, if ok then w.on fun c => { c with tx := { c.tx with tlpRetrans := true } } else w)
      if probed then
        w.on fun c => { c with tx := { c.tx with tlpHighSeq := some c.sndNxt, pending := .retrans } }
      else w
    else w
  w.on (·.rearmRto w.io.now w.io.nowUs)

/-- `tcp_rack_reo_timeout` (recovery.rs:1008): the reordering window has passed. -/
def rackReoTimeout : Work :=
  let lost := w.c.tx.lost
  let prior := w.c.tx.inFlight
  let w := w.on fun c => (c.rackDetectLoss w.io.nowUs).1
  let w :=
    if prior ≠ w.c.tx.inFlight then
      let w :=
        if w.c.caState ≠ .recovery then
          w.on fun c =>
            let c := c.enterRecovery
            c.cwndReduction 1 (sub32 c.tx.lost lost) .none
        else w
      w.xmitRetransmitQueue
    else w
  if w.c.tx.pending ≠ .retrans then w.on (·.rearmRto w.io.now w.io.nowUs) else w

/-- One segment of `simple_retransmit`. -/
def markTooLong (mss : Nat) (c : TcpConn) (i : Nat) : TcpConn :=
  if mss < (c.tx.seg i).len then { c with tx := c.tx.markSkbLost i } else c

/-- `tcp_simple_retransmit` (recovery.rs:1227): the path MTU fell. -/
def simpleRetransmit : Work :=
  let w := w.on fun c =>
    (List.range c.tx.queue.length).foldl (markTooLong c.mssCache) c
  if w.c.tx.lostOut = 0 then w
  else
    let w := if w.c.isReno then w.on (·.limitRenoSacked.2) else w
    let w :=
      if w.c.caState ≠ .loss then
        w.on fun c =>
          { c with
            highSeq := c.sndNxt, sndSsthresh := c.currentSsthresh, caState := .loss
            tx := { c.tx with priorSsthresh := 0, undoMarker := none } }.cubicRestart w.io.nowUs
      else w
    w.xmitRetransmitQueue

/-- `tcp_xmit_recovery` (recovery.rs:1710). -/
def xmitRecovery (rexmit : Rexmit) : Work :=
  match rexmit with
  | .none => w
  | .lost => w.xmitRetransmitQueue
  | .new =>
    let w := w.writeXmit
    if after w.c.sndNxt w.c.highSeq then w
    else (w.on fun c => { c with tx := { c.tx with frto := false } }).xmitRetransmitQueue

end Work

/-! ## The ACK -/

/-- What `ack` reads of a segment (recovery.rs:1723): its number, its own sequence number, the
scaled window, whether it carries data or a FIN, and its options. -/
structure AckSeg where
  ack : Nat
  ackSeq : Nat
  nwin : Nat
  hasData : Bool
  tsval : Option Nat
  tsecr : Option Nat
  sack : List (Nat × Nat)

namespace Work

variable (w : Work)

/-- An old ACK may still carry fresh SACK information (recovery.rs:1745-1755). -/
def oldAck (a : AckSeg) (blocks : List (Nat × Nat)) (st : SackState) : Work :=
  if blocks = [] then w
  else
    let priorUna := w.c.sndUna
    let (c, st) := w.c.sacktagWriteQueue a.ack blocks priorUna st w.io.nowUs
    let c : TcpConn :=
      { c with tx := { c.tx with delivered := add32 c.tx.delivered st.sackDelivered } }
    let (c, _, rexmit) := c.fastretransAlert priorUna 0 st.flag w.io.now w.io.nowUs
    ({ w with c } : Work).xmitRecovery rexmit

/-- The window, the send buffer and the SACK blocks of a new ACK (recovery.rs:1757-1776). -/
def ackHead (a : AckSeg) (blocks : List (Nat × Nat)) (nowS : Nat) (st : SackState) :
    TcpConn × SackState × Flags :=
  let c := w.c
  let priorUna := c.sndUna
  let advanced := after a.ack priorUna
  let c : TcpConn := if advanced then { c with retries := 0 } else c
  let c := c.replaceTsRecent a.ackSeq a.tsval nowS
  let (c, wflag) := c.ackUpdateWindow a.ack a.ackSeq a.nwin w.io.now
  let flag := { wflag with sndUnaAdvanced := advanced, data := a.hasData }
  -- The send buffer starts at `snd_una`.
  let c : TcpConn := { c with sendBuf := c.sendBuf.drop (sub32 a.ack priorUna) }
  let (c, st) :=
    if blocks = [] then (c, st) else c.sacktagWriteQueue a.ack blocks priorUna st w.io.nowUs
  let flag := if blocks = [] then flag else flag.union st.flag
  ({ c with
      probesOut := 0, lastAckRx := w.io.now
      tx := { c.tx with delivered := add32 c.tx.delivered st.sackDelivered } }, st, flag)

/-- Room was made for a blocked writer (recovery.rs:1806-1812). -/
def newSpace (c : TcpConn) (flag : Flags) (now : Nat) : TcpConn :=
  if flag.sndUnaAdvanced ∧ c.tx.nospace then
    let c : TcpConn := { c with tx := { c.tx with nospace := false } }
    if c.tx.inFlight < c.sndCwnd then
      let c := c.sndbufExpand
      { c with tx := { c.tx with sndCwndStamp := now } }
    else c
  else c

/-- The congestion state after an ACK, if it says anything of a loss (recovery.rs:1790-1796). -/
def ackAlert (c : TcpConn) (flag : Flags) (priorUna now nowUs : Nat) : TcpConn × Flags × Rexmit :=
  if ¬ flag.notDup ∨ flag.caAlert ∨ c.caState ≠ .opened then
    let numDupack := if flag.sndUnaAdvanced || flag.notDup || flag.dsackingAck then 0 else 1
    c.fastretransAlert priorUna numDupack flag now nowUs
  else (c, flag, .none)

/-- `tcp_ack` (recovery.rs:1723) in a synchronized state. -/
def ack (a : AckSeg) (nowS : Nat) : Work :=
  let (now, nowUs) := (w.io.now, w.io.nowUs)
  let priorUna := w.c.sndUna
  let priorPackets := w.c.tx.packetsOut
  let (delivered0, lost0) := (w.c.tx.delivered, w.c.tx.lost)
  let w := w.on fun c => { c with tx := { c.tx with rcvTsecr := if c.tsOk then a.tsecr else none } }
  let st : SackState := ⟨.init, .none, w.c.sndNxt, 0, 0, 0⟩
  let isSackReneg := w.c.tx.isSackReneg
  let blocks := if w.c.r.sackOk then a.sack.take TCP_NUM_SACKS else []
  if seqBefore a.ack priorUna then w.oldAck a blocks st
  else
    let priorFack := if w.c.r.sackOk then w.c.highestSackSeq else priorUna
    let (c, st, flag) := w.ackHead a blocks nowS st
    if priorPackets = 0 then
      -- What this leads to sending is dropped.
      let (c, flag, _) :=
        if flag.dsackingAck then c.fastretransAlert priorUna 0 flag now nowUs else (c, flag, .none)
      { w with c := c.processTlpAck a.ack flag now }
    else
      let (c, st, cflag) := c.cleanRtxQueue priorFack priorUna st a.tsecr w.io.tsNowMs now nowUs
      let flag := flag.union cflag
      let c := (c.rackUpdateReoWnd st.rate).processTlpAck a.ack flag now
      let (c, flag, rexmit) := ackAlert c flag priorUna now nowUs
      let c := if flag.setXmitTimer then c.setXmitTimer now nowUs else c
      let delivered := sub32 c.tx.delivered delivered0
      let newlyLost := sub32 c.tx.lost lost0
      let (c, _) := c.rateGen delivered st.rate isSackReneg nowUs
      let c := c.congControl delivered newlyLost flag now
      (({ w with c } : Work).xmitRecovery rexmit).on (newSpace · flag now)

/-! ## The owner and the path -/

/-- `snd_allowed` (tcp.rs:287): how much may be queued. -/
def sndAllowed (c : TcpConn) : Nat := max (min c.sndBufLimit c.sndWnd) c.mssCache

/-- `send` (tcp.rs:1404): whether the data was taken; `granted` is the answer of `mem_charge`. -/
def send (data : List Byte) (granted : Bool) : Bool × Work :=
  if ¬ (w.c.state = .established ∨ w.c.state = .closeWait) ∨ w.c.finQueued then (false, w)
  else if w.c.sendBuf ≠ [] ∧ (sndAllowed w.c < w.c.sendBuf.length + data.length ∨ ¬ granted) then
    (false, w.on fun c => { c with tx := { c.tx with nospace := true } })
  else
    let w := if w.c.sendBuf = [] then w.on fun c => { c with retries := 0, retransStamp := none } else w
    let w := w.on fun c => c.rateCheckAppLimited.slowStartAfterIdleCheck w.io.now
    (true, (w.on fun c => { c with sendBuf := c.sendBuf ++ data }).writeXmit)

/-- `close` (tcp.rs:1505) of a connection that has a FIN to send and nothing left unread; the
other cases take the connection out of the table. -/
def close : Work :=
  let leave (next : State) : Work :=
    let c : TcpConn := { w.c with
      released := true, state := next, finQueued := true, lastSendTick := w.io.now }
    let c : TcpConn :=
      if c.sndUna = c.sndNxt then { c with retries := 0, retransStamp := none } else c
    ({ w with c } : Work).writeXmit
  match w.c.state with
  | .established | .synReceived => leave .finWait1
  | .closeWait => leave .lastAck
  | _ => w

/-- The path MTU fell to `mtu` (tcp.rs:2242-2255). -/
def fragNeeded (mtu : Nat) : Work :=
  if w.c.state = .listen ∨ w.c.state = .closed then w
  else if mtu < w.c.pmtu then (w.on fun c => { c with pmtu := mtu }.syncMss).simpleRetransmit
  else w

end Work

end NopeekOS.Net.Tcp
