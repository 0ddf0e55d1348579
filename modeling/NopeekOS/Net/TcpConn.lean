import NopeekOS.Net.TcpWindow

/-!
# A TCP connection

The record of a connection (`TcpConn`, tcp.rs:514) and of its parts: the retransmit queue with
its scoreboard (`Tx`, recovery.rs:159), CUBIC (cubic.rs:24) and the scheduling of ACKs
(`AckState`, ack.rs:40). The receive side is `RecvSide`.

The `TCPCB_*` bits of a segment are a record of truth values (`Tag`). Numbers that wrap are
natural numbers below 2^32 and are added with `add32`; times do not wrap. Two fields are not in
the source: `under` is set when one of the four counters of the scoreboard is taken below zero,
and `wrapped` when an operation on the congestion window or its threshold wraps.

Left out: a listener's queues, the IP identification, the statistics, the names of states and the measurement behind
the receive buffer's size (`drs_win` is an input, see `TcpWindow`).
-/

namespace NopeekOS.Net.Tcp

open Lib

def TICK_US : Nat := 10000
def TCP_RTO_MIN : Nat := 20
def TCP_RTO_MAX : Nat := 12000
def TCP_TIMEOUT_INIT : Nat := 100
def TCP_TIMEOUT_FALLBACK : Nat := 300
def TCP_INIT_CWND : Nat := 10
def TCP_SYN_RETRIES : Nat := 6
def TCP_RETRIES2 : Nat := 15
def TCP_ORPHAN_RETRIES : Nat := 8
def FIN_TIMEOUT_TICKS : Nat := 6000
def TCP_PAWS_WRAP : Nat := (2 ^ 31 - 1) / 1000
def TCP_MSS_DEFAULT : Nat := 536
def TCP_MIN_SND_MSS : Nat := 48
def TCP_MSS_DESIRED : Nat := 1220
def HEADERS : Nat := 40
def SND_BUF_INIT : Nat := 256 * 1024
def SND_BUF_MAX : Nat := 4 * 1024 * 1024
def TCP_REORDERING : Nat := 3
def TCP_MAX_REORDERING : Nat := 300
def U32_MAX : Nat := 2 ^ 32 - 1

/-- `tcp_ca_state` (tcp.rs:417), in its order. -/
inductive CaState
  | opened
  | disorder
  | cwr
  | recovery
  | loss
deriving DecidableEq, Repr

/-- The place in the order. -/
def CaState.rank : CaState → Nat
  | .opened => 0
  | .disorder => 1
  | .cwr => 2
  | .recovery => 3
  | .loss => 4

/-- What the retransmit timer is armed for (recovery.rs:273). -/
inductive Pending
  | retrans
  | reo
  | lossProbe
deriving DecidableEq, Repr

/-- The tag bits of a segment: SACKed, retransmitted, lost, ever retransmitted. -/
structure Tag where
  acked : Bool
  retrans : Bool
  lost : Bool
  ever : Bool
deriving DecidableEq, Repr

/-- `sacked & RETRANS != 0`. -/
def Tag.resent (t : Tag) : Bool := t.retrans || t.ever

/-- A segment in flight (recovery.rs:75). -/
structure TxSeg where
  seq : Nat
  endSeq : Nat
  fin : Bool
  sacked : Tag
  sentUs : Nat
  txDelivered : Nat
  txDeliveredMstamp : Nat
  txFirstTxMstamp : Nat
  txAppLimited : Bool
deriving DecidableEq, Repr

/-- The sequence numbers it takes. -/
def TxSeg.space (s : TxSeg) : Nat := sub32 s.endSeq s.seq

/-- Its data bytes (recovery.rs:93). -/
def TxSeg.len (s : TxSeg) : Nat := s.space - if s.fin then 1 else 0

/-- `struct minmax` (recovery.rs:98): times with values, the best three. -/
structure MinMax where
  s0 : Nat × Nat
  s1 : Nat × Nat
  s2 : Nat × Nat
deriving DecidableEq, Repr

/-- `tp->rack` (recovery.rs:143). -/
structure Rack where
  mstamp : Nat
  endSeq : Nat
  rttUs : Nat
  advanced : Bool
  reoWndSteps : Nat
  lastDelivered : Nat
  dsackSeen : Bool
  reoWndPersist : Nat
deriving DecidableEq, Repr

/-- `struct bictcp` (cubic.rs:24). -/
structure Cubic where
  cnt : Nat
  lastMaxCwnd : Nat
  lastCwnd : Nat
  lastTime : Nat
  bicOriginPoint : Nat
  bicK : Nat
  delayMin : Nat
  epochStart : Nat
  ackCnt : Nat
  tcpCwnd : Nat
  sampleCnt : Nat
  found : Bool
  roundStart : Nat
  endSeq : Nat
  lastAck : Nat
  currRtt : Nat
deriving DecidableEq, Repr

/-- `Cubic::default()`. -/
def Cubic.init : Cubic := ⟨0, 0, 0, 0, 0, 0, 0, 0, 0, 0, 0, false, 0, 0, 0, 0⟩

/-- The sender's fields that recovery keeps (recovery.rs:159). -/
structure Tx where
  queue : List TxSeg
  packetsOut : Nat
  sackedOut : Nat
  lostOut : Nat
  retransOut : Nat
  under : Bool
  delivered : Nat
  lost : Nat
  reordering : Nat
  reordSeen : Nat
  totalRetrans : Nat
  dsackDups : Nat
  highestSack : Nat
  priorCwnd : Nat
  prrDelivered : Nat
  prrOut : Nat
  isCwndLimited : Bool
  maxPacketsOut : Nat
  cwndUsageSeq : Nat
  rack : Rack
  rttMin : MinMax
  firstTxMstamp : Nat
  deliveredMstamp : Nat
  appLimited : Nat
  rateDelivered : Nat
  rateIntervalUs : Nat
  rateAppLimited : Bool
  isSackReneg : Bool
  pending : Pending
  tlpHighSeq : Option Nat
  tlpRetrans : Bool
  nospace : Bool
  undoMarker : Option Nat
  undoRetrans : Int
  priorSsthresh : Nat
  frto : Bool
  rcvTsecr : Option Nat
  lsndtime : Nat
  sndCwndUsed : Nat
  sndCwndStamp : Nat
  cubic : Cubic
deriving DecidableEq, Repr

/-- `Tx::new` (recovery.rs:224). -/
def Tx.new : Tx where
  queue := []
  packetsOut := 0
  sackedOut := 0
  lostOut := 0
  retransOut := 0
  under := false
  delivered := 0
  lost := 0
  reordering := TCP_REORDERING
  reordSeen := 0
  totalRetrans := 0
  dsackDups := 0
  highestSack := 0
  priorCwnd := 0
  prrDelivered := 0
  prrOut := 0
  isCwndLimited := false
  maxPacketsOut := 0
  cwndUsageSeq := 0
  rack := ⟨0, 0, 0, false, 1, 0, false, 0⟩
  rttMin := ⟨(0, U32_MAX), (0, U32_MAX), (0, U32_MAX)⟩
  firstTxMstamp := 0
  deliveredMstamp := 0
  appLimited := U32_MAX
  rateDelivered := 0
  rateIntervalUs := 0
  rateAppLimited := true
  isSackReneg := false
  pending := .retrans
  tlpHighSeq := none
  tlpRetrans := false
  nospace := false
  undoMarker := none
  undoRetrans := -1
  priorSsthresh := 0
  frto := false
  rcvTsecr := none
  lsndtime := 0
  sndCwndUsed := 0
  sndCwndStamp := 0
  cubic := .init

namespace Tx

variable (t : Tx)

/-- `tcp_packets_in_flight` (recovery.rs:262). -/
def inFlight : Nat := t.packetsOut - (t.sackedOut + t.lostOut) + t.retransOut

def minRtt : Nat := t.rttMin.s0.2

/-- The segment at `i`. -/
def seg (i : Nat) : TxSeg :=
  t.queue.getD i ⟨0, 0, false, ⟨false, false, false, false⟩, 0, 0, 0, 0, false⟩

/-- The segment at `i` becomes `s`. -/
def setSeg (i : Nat) (s : TxSeg) : Tx := { t with queue := t.queue.set i s }

/-- The tag of the segment at `i` becomes `g`. -/
def setTag (i : Nat) (g : Tag) : Tx := t.setSeg i { t.seg i with sacked := g }

/-! The counters go down by one; at zero that is noted. -/

def decPackets : Tx := { t with packetsOut := t.packetsOut - 1, under := t.under || t.packetsOut == 0 }
def decSacked : Tx := { t with sackedOut := t.sackedOut - 1, under := t.under || t.sackedOut == 0 }
def decLost : Tx := { t with lostOut := t.lostOut - 1, under := t.under || t.lostOut == 0 }
def decRetrans : Tx := { t with retransOut := t.retransOut - 1, under := t.under || t.retransOut == 0 }

end Tx

/-- `icsk_ack` and the SACK compression state (ack.rs:40); the `ICSK_ACK_*` bits first. -/
structure AckState where
  sched : Bool
  timer : Bool
  pushed : Bool
  pushed2 : Bool
  now : Bool
  nomem : Bool
  quick : Nat
  pingpong : Nat
  ato : Nat
  timeout : Nat
  lrcvtime : Nat
  lastSegSize : Nat
  compressedAck : Nat
  compressedAckRcvNxt : Nat
  dupAckCounter : Nat
  compAt : Nat
deriving DecidableEq, Repr

/-- `AckState::default()`. -/
def AckState.init : AckState :=
  ⟨false, false, false, false, false, false, 0, 0, 0, 0, 0, 0, 0, 0, 0, 0⟩

/-- What an ICMP error said (tcp.rs:716). -/
inductive SockErr
  | refused
  | hostUnreachable
  | netUnreachable
  | protocol
  | msgSize
deriving DecidableEq, Repr

/-- The owner of a connection; 0 is the kernel (tcp.rs:730). -/
abbrev Owner := Nat

def KERNEL : Owner := 0

/-- A connection (tcp.rs:514). -/
structure TcpConn where
  state : State
  localPort : Nat
  remoteIp : Nat
  remotePort : Nat
  sndNxt : Nat
  sndUna : Nat
  sndIss : Nat
  r : RecvSide
  sendBuf : List Byte
  srttUs : Nat
  mdevUs : Nat
  mdevMaxUs : Nat
  rttvarUs : Nat
  rttSeq : Nat
  rto : Nat
  retransStamp : Option Nat
  synSentUs : Nat
  userTimeout : Nat
  rcvRttUs8 : Nat
  retries : Nat
  lastSendTick : Nat
  rtxAt : Nat
  tx : Tx
  ack : AckState
  sndWl1 : Nat
  probeAt : Nat
  probesOut : Nat
  backoff : Nat
  lastAckRx : Nat
  lastOowAck : Nat
  finQueued : Bool
  finSent : Bool
  established : Bool
  closed : Bool
  error : Bool
  sndWscale : Nat
  sndWnd : Nat
  sndBufLimit : Nat
  sndCwnd : Nat
  sndSsthresh : Nat
  sndCwndCnt : Nat
  wrapped : Bool
  caState : CaState
  highSeq : Nat
  tsOk : Bool
  tsRecent : Nat
  tsRecentStamp : Nat
  localIp : Nat
  released : Bool
  owner : Owner
  mssClamp : Nat
  mssCache : Nat
  advmss : Nat
  pmtu : Nat
  maxWindow : Nat
  sockErr : Option SockErr

/-- A receive side with nothing received. -/
def RecvSide.blank : RecvSide where
  rcvNxt := 0
  rcvOff := 0
  rcvWup := 0
  rcvWnd := INITIAL_WINDOW
  rcvMss := TCP_MSS_DEFAULT
  drsWin := RCV_WND_MIN
  wscaleOk := false
  sackOk := false
  recvBuf := []
  ooo := []
  oooBytes := 0
  oooRuns := []
  dsack := none

namespace TcpConn

/-- `blank` (tcp.rs:741). -/
def blank (state : State) (localPort : Nat) (owner : Owner) : TcpConn where
  state := state
  localPort := localPort
  remoteIp := 0
  remotePort := 0
  sndNxt := 0
  sndUna := 0
  sndIss := 0
  r := RecvSide.blank
  sendBuf := []
  srttUs := 0
  mdevUs := 0
  mdevMaxUs := 0
  rttvarUs := 0
  rttSeq := 0
  rto := TCP_TIMEOUT_INIT
  retransStamp := none
  synSentUs := 0
  userTimeout := 0
  rcvRttUs8 := 0
  retries := 0
  lastSendTick := 0
  rtxAt := 0
  tx := .new
  ack := .init
  sndWl1 := 0
  probeAt := 0
  probesOut := 0
  backoff := 0
  lastAckRx := 0
  lastOowAck := 0
  finQueued := false
  finSent := false
  established := false
  closed := false
  error := false
  sndWscale := 0
  sndWnd := 0
  sndBufLimit := SND_BUF_INIT
  sndCwnd := TCP_INIT_CWND
  sndSsthresh := U32_MAX
  sndCwndCnt := 0
  wrapped := false
  caState := .opened
  highSeq := 0
  tsOk := false
  tsRecent := 0
  tsRecentStamp := 0
  localIp := 0
  released := false
  owner := owner
  mssClamp := TCP_MSS_DEFAULT
  mssCache := TCP_MSS_DEFAULT
  advmss := 1460
  pmtu := 1500
  maxWindow := 0
  sockErr := none

variable (c : TcpConn)

/-- `sends` (tcp.rs:1008): a state in which we still send data or our FIN. -/
def sends : Bool :=
  match c.state with
  | .established | .closeWait | .finWait1 | .closing | .lastAck => true
  | _ => false

/-- The sequence numbers in flight. -/
def sent : Nat := sub32 c.sndNxt c.sndUna

/-- `window_blocked` (tcp.rs:1001). -/
def windowBlocked : Bool :=
  c.sent == 0 && decide (0 < c.sendBuf.length - c.sent) &&
    decide (c.sndWnd < min (c.sendBuf.length - c.sent) c.mssCache)

/-- `probe0_when` (tcp.rs:894). -/
def probe0When : Nat := min (max c.rto TCP_RTO_MIN * 2 ^ min c.backoff 10) TCP_RTO_MAX

/-- `paws_check` (tcp.rs:831). -/
def pawsCheck (tsval nowS win : Nat) : Bool :=
  -- The difference as an `i32` is at most `win`.
  (decide (2 ^ 31 ≤ sub32 c.tsRecent tsval) || decide (sub32 c.tsRecent tsval ≤ win)) ||
    decide (c.tsRecentStamp + TCP_PAWS_WRAP ≤ nowS) || c.tsRecent == 0

/-- `replace_ts_recent` (tcp.rs:846). -/
def replaceTsRecent (seq : Nat) (tsval : Option Nat) (nowS : Nat) : TcpConn :=
  match tsval with
  | none => c
  | some v =>
    if c.tsOk ∧ ¬ seqAfter seq c.r.rcvWup ∧ c.pawsCheck v nowS 0 then
      { c with tsRecent := v, tsRecentStamp := nowS }
    else c

/-- `data_opts_len` (tcp.rs:2871). -/
def dataOptsLen : Nat := if c.tsOk then 12 else 0

/-- `sync_mss` (tcp.rs:1029). -/
def syncMss : TcpConn :=
  let opts : Int := c.dataOptsLen
  let mss : Int := max (min ((c.pmtu : Int) - HEADERS) c.mssClamp) TCP_MIN_SND_MSS - opts
  let cutoff := if TCP_MSS_DESIRED < c.maxWindow then c.maxWindow / 2 else c.maxWindow
  let mss : Int :=
    if cutoff ≠ 0 ∧ (cutoff : Int) < mss then max cutoff (68 - (20 + opts)) else mss
  { c with mssCache := (max mss 1).toNat % 2 ^ 16 }

/-- `rtt_estimator` (tcp.rs:902), for the sample `m` in µs. -/
def rttEstimator (m : Nat) : TcpConn :=
  let rtoMinUs : Nat := TCP_RTO_MIN * TICK_US
  let m : Int := (min m (2 ^ 31 - 1) : Nat)
  let srtt : Int := c.srttUs
  if srtt ≠ 0 then
    let err : Int := m - c.srttUs / 8
    let srtt := srtt + err
    let dev : Int :=
      if err < 0 then
        let d := -err - c.mdevUs / 4
        if 0 < d then d / 8 else d
      else err - c.mdevUs / 4
    let mdev := ((c.mdevUs : Int) + dev).toNat % 2 ^ 32
    let mdevMax := if c.mdevMaxUs < mdev then mdev else c.mdevMaxUs
    let rttvar := if c.mdevMaxUs < mdev ∧ c.rttvarUs < mdevMax then mdevMax else c.rttvarUs
    let srttUs := min (max srtt 1).toNat U32_MAX
    if seqAfter c.sndUna c.rttSeq then
      { c with
        srttUs, mdevUs := mdev, mdevMaxUs := rtoMinUs, rttSeq := c.sndNxt
        rttvarUs := if mdevMax < rttvar then rttvar - (rttvar - mdevMax) / 4 else rttvar }
    else { c with srttUs, mdevUs := mdev, mdevMaxUs := mdevMax, rttvarUs := rttvar }
  else
    let mdev := (2 * m).toNat
    let rttvar := max mdev rtoMinUs
    { c with
      srttUs := min (max (8 * m) 1).toNat U32_MAX
      mdevUs := mdev, rttvarUs := rttvar, mdevMaxUs := rttvar, rttSeq := c.sndNxt }

/-- `ack_update_rtt` (tcp.rs:941). -/
def ackUpdateRtt (sampleUs : Nat) : TcpConn :=
  let c := c.rttEstimator sampleUs
  let rtoUs := c.srttUs / 8 + c.rttvarUs
  { c with rto := min ((rtoUs + TICK_US - 1) / TICK_US) TCP_RTO_MAX }

/-- `retransmits_timed_out` (tcp.rs:950). -/
def retransmitsTimedOut (nowMs boundary rtoBase userTimeout : Nat) : Bool :=
  if c.retries = 0 then false
  else
    let timeout :=
      if userTimeout ≠ 0 then userTimeout
      else
        let thresh := Nat.log2 (TCP_RTO_MAX / rtoBase)
        if boundary ≤ thresh then (2 * 2 ^ boundary - 1) * rtoBase
        else (2 * 2 ^ thresh - 1) * rtoBase + (boundary - thresh) * TCP_RTO_MAX
    match c.retransStamp with
    | none => false
    | some t => decide (timeout * (TICK_US / 1000) ≤ sub32 nowMs t)

/-- `rto_clamped` (tcp.rs:991). -/
def rtoClamped (nowMs : Nat) : Nat :=
  match c.retransStamp with
  | none => c.rto
  | some stamp =>
    if c.userTimeout = 0 then c.rto
    else
      let remaining := c.userTimeout * (TICK_US / 1000) - sub32 nowMs stamp
      if remaining = 0 then 1 else min c.rto ((remaining + TICK_US / 1000 - 1) / (TICK_US / 1000))

/-- `set_closed` (tcp.rs:3012). -/
def setClosed : TcpConn := { c with state := .closed }

end TcpConn

/-- A segment we send; options are left out. -/
structure OutSeg where
  seq : Nat
  ack : Nat
  syn : Bool
  fin : Bool
  rst : Bool
  psh : Bool
  ackFlag : Bool
  window : Nat
  payload : List Byte
deriving DecidableEq, Repr

/-- The machine for the duration of one call (tcp.rs:138): the clock, the manual cap on the
window, our address, and which of the segments we hand over the driver takes. -/
structure Io where
  now : Nat
  nowUs : Nat
  forced : Nat
  ourIp : Nat
  accept : Nat → Bool
  tries : Nat
  out : List OutSeg

/-- `ts_now_ms` (tcp.rs:152). -/
def Io.tsNowMs (io : Io) : Nat := io.nowUs / 1000 % 2 ^ 32

/-- `send_segment`: whether the driver took it. -/
def Io.sendSegment (io : Io) (s : OutSeg) : Bool × Io :=
  let ok := io.accept io.tries
  (ok, { io with tries := io.tries + 1, out := if ok then io.out ++ [s] else io.out })

end NopeekOS.Net.Tcp
