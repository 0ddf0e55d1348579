import NopeekOS.Net.TcpCubic

/-!
# Loss recovery

The model of recovery.rs as far as it sends nothing: the scoreboard, RACK, the congestion state
machine, proportional rate reduction, the undo of reductions and the rate samples. The bits of
the `FLAG_*` words are the fields of `Flags`.
-/

namespace NopeekOS.Net.Tcp

open Lib

def TCP_TIMEOUT_MIN_US : Nat := 2000
def TCP_RTO_MIN_US : Nat := 200000
def TCP_RACK_RECOVERY_THRESH : Nat := 16
def MIN_RTT_WLEN : Nat := 30000

/-- `after` (recovery.rs:68): `before` the other way, so also at a distance of 2^31, where
`seqAfter` is false. -/
def after (a b : Nat) : Bool := seqBefore b a

/-- `usecs_to_jiffies`: rounded up. -/
def usToTicks (us : Nat) : Nat := (us + TICK_US - 1) / TICK_US

/-- The `FLAG_*` bits of an ACK (recovery.rs:35). -/
structure Flags where
  data : Bool
  winUpdate : Bool
  dataAcked : Bool
  retransDataAcked : Bool
  dataSacked : Bool
  lostRetrans : Bool
  sndUnaAdvanced : Bool
  dsackingAck : Bool
  setXmitTimer : Bool
  origSackAcked : Bool
  sackReneging : Bool
  ackMaybeDelayed : Bool
  dsackTlp : Bool
deriving DecidableEq, Repr

namespace Flags

def none : Flags :=
  ⟨false, false, false, false, false, false, false, false, false, false, false, false, false⟩

/-- `a | b`. -/
def union (a b : Flags) : Flags :=
  ⟨a.data || b.data, a.winUpdate || b.winUpdate, a.dataAcked || b.dataAcked,
    a.retransDataAcked || b.retransDataAcked, a.dataSacked || b.dataSacked,
    a.lostRetrans || b.lostRetrans, a.sndUnaAdvanced || b.sndUnaAdvanced,
    a.dsackingAck || b.dsackingAck, a.setXmitTimer || b.setXmitTimer,
    a.origSackAcked || b.origSackAcked, a.sackReneging || b.sackReneging,
    a.ackMaybeDelayed || b.ackMaybeDelayed, a.dsackTlp || b.dsackTlp⟩

/-- `FLAG_NOT_DUP`. -/
def notDup (f : Flags) : Bool := f.data || f.winUpdate || f.dataAcked

/-- `FLAG_CA_ALERT`. -/
def caAlert (f : Flags) : Bool := f.dataSacked || f.dsackingAck

end Flags

/-- `MinMax::subwin_update` (recovery.rs:106). -/
def MinMax.subwinUpdate (m : MinMax) (win : Nat) (val : Nat × Nat) : MinMax :=
  let dt := sub32 val.1 m.s0.1
  if win < dt then
    let m : MinMax := ⟨m.s1, m.s2, val⟩
    if win < sub32 val.1 m.s0.1 then ⟨m.s1, m.s2, val⟩ else m
  else if m.s1.1 = m.s0.1 ∧ win / 4 < dt then { m with s1 := val, s2 := val }
  else if m.s2.1 = m.s1.1 ∧ win / 2 < dt then { m with s2 := val }
  else m

/-- `minmax_running_min` (recovery.rs:127). -/
def MinMax.runningMin (m : MinMax) (win t v : Nat) : MinMax :=
  if v ≤ m.s0.2 ∨ win < sub32 t m.s2.1 then ⟨(t, v), (t, v), (t, v)⟩
  else
    let m :=
      if v ≤ m.s1.2 then { m with s1 := (t, v), s2 := (t, v) }
      else if v ≤ m.s2.2 then { m with s2 := (t, v) }
      else m
    m.subwinUpdate win (t, v)

namespace Tx

variable (t : Tx)

/-- `tcp_mark_skb_lost` (recovery.rs:296). -/
def markSkbLost (i : Nat) : Tx :=
  let g := (t.seg i).sacked
  if g.acked then t
  else if g.lost then
    if g.retrans then
      { (t.setTag i { g with retrans := false }).decRetrans with lost := add32 t.lost 1 }
    else t
  else { t.setTag i { g with lost := true } with lostOut := t.lostOut + 1, lost := add32 t.lost 1 }

/-- `tcp_fragment` (recovery.rs:314): segment `i` keeps its first `len` bytes, the rest (and the
FIN) becomes the next one. -/
def fragment (i len : Nat) : Tx :=
  let s := t.seg i
  let split := add32 s.seq len
  let rest := { s with seq := split }
  { t with
    queue := t.queue.take i ++ { s with endSeq := split, fin := false } :: rest ::
      t.queue.drop (i + 1)
    packetsOut := t.packetsOut + 1
    sackedOut := if s.sacked.acked then t.sackedOut + 1 else t.sackedOut
    retransOut := if s.sacked.retrans then t.retransOut + 1 else t.retransOut
    lostOut := if s.sacked.lost then t.lostOut + 1 else t.lostOut }

/-- `tcp_rate_skb_sent` (recovery.rs:847). -/
def rateSkbSent (i packetsOut : Nat) : Tx :=
  let s := t.seg i
  let t :=
    if packetsOut = 0 then { t with firstTxMstamp := s.sentUs, deliveredMstamp := s.sentUs } else t
  t.setSeg i { s with
    txFirstTxMstamp := t.firstTxMstamp, txDeliveredMstamp := t.deliveredMstamp
    txDelivered := t.delivered, txAppLimited := t.appLimited != 0 }

end Tx

/-- `tcp_skb_sent_after` (recovery.rs:940). -/
def sentAfter (t1 t2 seq1 seq2 : Nat) : Bool :=
  decide (t2 < t1) || (t1 == t2 && after seq1 seq2)

/-- `struct rate_sample` (recovery.rs:836). -/
structure RateSample where
  priorMstamp : Nat
  priorDelivered : Nat
  delivered : Int
  intervalUs : Int
  lastEndSeq : Nat
  isAppLimited : Bool
  isRetrans : Bool

def RateSample.init : RateSample := ⟨0, 0, 0, 0, 0, false, false⟩

/-- What an ACK leads to sending (recovery.rs:1051). -/
inductive Rexmit
  | none
  | lost
  | new
deriving DecidableEq, Repr

namespace TcpConn

variable (c : TcpConn)

/-- `tcp_reset_xmit_timer` (recovery.rs:276). -/
def resetXmitTimer (what : Pending) (delay now : Nat) : TcpConn :=
  { c with tx := { c.tx with pending := what }, rtxAt := now + min delay TCP_RTO_MAX }

def isReno : Bool := !c.r.sackOk

/-- `tcp_highest_sack_seq` (recovery.rs:286). -/
def highestSackSeq : Nat := if c.tx.sackedOut = 0 then c.sndUna else c.tx.highestSack

/-- `tcp_any_retrans_done` (recovery.rs:291). -/
def anyRetransDone : Bool := c.tx.retransOut != 0 || (!c.tx.queue.isEmpty && (c.tx.seg 0).sacked.ever)

/-- `tcp_rto_delta_us` (recovery.rs:359). -/
def rtoDeltaUs (nowUs : Nat) : Int :=
  let head := if c.tx.queue.isEmpty then nowUs else (c.tx.seg 0).sentUs
  (head + c.rto * TICK_US : Nat) - (nowUs : Int)

/-- `tcp_rearm_rto` (recovery.rs:343). -/
def rearmRto (now nowUs : Nat) : TcpConn :=
  if c.tx.packetsOut = 0 then { c with tx := { c.tx with pending := .retrans } }
  else if c.tx.pending ≠ .retrans then
    c.resetXmitTimer .retrans (usToTicks (max (c.rtoDeltaUs nowUs) 1).toNat) now
  else c.resetXmitTimer .retrans c.rto now

/-- `tcp_event_new_data_sent` (recovery.rs:330). -/
def newDataSent (seq endSeq : Nat) (fin : Bool) (now nowUs : Nat) : TcpConn :=
  let prior := c.tx.packetsOut
  let s : TxSeg := ⟨seq, endSeq, fin, ⟨false, false, false, false⟩, nowUs, 0, 0, 0, false⟩
  let t : Tx := { c.tx with queue := c.tx.queue ++ [s] }
  let t := t.rateSkbSent (t.queue.length - 1) prior
  let c : TcpConn := { c with tx := { t with packetsOut := t.packetsOut + 1 } }
  if prior = 0 ∨ c.tx.pending = .lossProbe then c.rearmRto now nowUs else c

/-- `tcp_schedule_loss_probe` (recovery.rs:366). -/
def scheduleLossProbe (advancingRto : Bool) (now nowUs : Nat) : Bool × TcpConn :=
  if c.tx.packetsOut = 0 ∨ c.isReno ∨ ¬ (c.caState = .opened ∨ c.caState = .cwr) then (false, c)
  else
    let timeout :=
      if c.srttUs ≠ 0 then
        usToTicks (c.srttUs / 4 + if c.tx.packetsOut = 1 then TCP_RTO_MIN_US else TCP_TIMEOUT_MIN_US)
      else TCP_TIMEOUT_INIT
    -- An earlier RTO wins.
    let rtoDelta : Int := if advancingRto then (c.rto * TICK_US : Nat) else c.rtoDeltaUs nowUs
    let timeout := if 0 < rtoDelta then min timeout (usToTicks rtoDelta.toNat) else timeout
    (true, c.resetXmitTimer .lossProbe timeout now)

/-- `tcp_set_xmit_timer` (recovery.rs:386). -/
def setXmitTimer (now nowUs : Nat) : TcpConn :=
  let (armed, c') := c.scheduleLossProbe true now nowUs
  if armed then c' else c.rearmRto now nowUs

/-- `xmit_scheduled` (recovery.rs:392). -/
def xmitScheduled (sentPkts pushOne now nowUs : Nat) : TcpConn :=
  if 0 < sentPkts ∧ pushOne ≠ 2 then (c.scheduleLossProbe false now nowUs).2 else c

/-! ## The window -/

/-- `tcp_cwnd_application_limited` (recovery.rs:472). -/
def cwndApplicationLimited (now : Nat) : TcpConn :=
  let c :=
    if c.caState = .opened ∧ ¬ c.tx.nospace then
      let winUsed := max c.tx.sndCwndUsed TCP_INIT_CWND
      let c :=
        if winUsed < c.sndCwnd then
          { c.noteWrap (decide (2 ^ 32 ≤ c.sndCwnd + winUsed)) with
            sndSsthresh := c.currentSsthresh, sndCwnd := add32 c.sndCwnd winUsed / 2 }
        else c
      { c with tx := { c.tx with sndCwndUsed := 0 } }
    else c
  { c with tx := { c.tx with sndCwndStamp := now } }

/-- `tcp_cwnd_validate` (recovery.rs:450). -/
def cwndValidate (limited : Bool) (now : Nat) : TcpConn :=
  let c :=
    if ¬ seqBefore c.sndUna c.tx.cwndUsageSeq ∨ limited ∨
        (¬ c.tx.isCwndLimited ∧ c.tx.maxPacketsOut < c.tx.packetsOut) then
      { c with tx := { c.tx with
          isCwndLimited := limited, maxPacketsOut := c.tx.packetsOut, cwndUsageSeq := c.sndNxt } }
    else c
  if c.isCwndLimited then { c with tx := { c.tx with sndCwndUsed := 0, sndCwndStamp := now } }
  else
    let c := { c with tx := { c.tx with sndCwndUsed := max c.tx.sndCwndUsed c.tx.packetsOut } }
    if c.rto ≤ now - c.tx.sndCwndStamp then c.cwndApplicationLimited now else c

/-- The loop of `cwnd_restart`: a halving for each RTO idle. -/
def restartLoop (rto restart : Nat) : Nat → Int → Nat → Nat
  | 0, _, cwnd => cwnd
  | fuel + 1, delta, cwnd =>
    let delta := delta - rto
    if delta ≤ 0 ∨ cwnd ≤ restart then cwnd else restartLoop rto restart fuel delta (cwnd / 2)

/-- `tcp_cwnd_restart` (recovery.rs:486). -/
def cwndRestart (delta now : Nat) : TcpConn :=
  let restart := min TCP_INIT_CWND c.sndCwnd
  { c with
    sndSsthresh := c.currentSsthresh
    sndCwnd := max (restartLoop c.rto restart (c.sndCwnd + 1) delta c.sndCwnd) restart
    tx := { c.tx with sndCwndStamp := now, sndCwndUsed := 0 } }

/-- `tcp_slow_start_after_idle_check` (recovery.rs:502). -/
def slowStartAfterIdleCheck (now : Nat) : TcpConn :=
  if c.tx.packetsOut ≠ 0 then c
  else if c.rto < now - c.tx.lsndtime then c.cwndRestart (now - c.tx.lsndtime) now
  else c

/-- `ack::data_sent` (ack.rs:79). -/
def dataSent (now : Nat) : TcpConn :=
  if now - c.ack.lrcvtime < c.ack.ato then
    { c with ack := { c.ack with pingpong := min (c.ack.pingpong + 1) 255 } }
  else c

/-- `tcp_event_data_sent` (recovery.rs:509). -/
def eventDataSent (now : Nat) : TcpConn :=
  let c := if c.tx.inFlight = 0 then c.txStart now else c
  { c with tx := { c.tx with lsndtime := now } }.dataSent now

/-- `xmit_done` (recovery.rs:525). -/
def xmitDone (sentPkts : Nat) (limited : Bool) (now : Nat) : TcpConn :=
  let limited := limited || decide (c.sndCwnd ≤ c.tx.inFlight)
  let c := if 0 < sentPkts ∨ limited then c.cwndValidate limited now else c
  if 0 < sentPkts ∧ c.inCwndReduction then
    { c with tx := { c.tx with prrOut := add32 c.tx.prrOut sentPkts } }
  else c

/-- `tcp_sndbuf_expand` (recovery.rs:572). -/
def sndbufExpand : TcpConn :=
  let nrSegs := max (max TCP_INIT_CWND c.sndCwnd) (c.tx.reordering + 1)
  let want := min (2 * nrSegs * c.mssCache) SND_BUF_MAX
  { c with sndBufLimit := max c.sndBufLimit want }

/-- `tcp_init_cwnd_reduction` (recovery.rs:579). -/
def initCwndReduction : TcpConn :=
  let c := { c with
    highSeq := c.sndNxt, sndCwndCnt := 0
    tx := { c.tx with tlpHighSeq := none, priorCwnd := c.sndCwnd, prrDelivered := 0, prrOut := 0 } }
  let (ssthresh, c) := c.recalcSsthresh
  { c with sndSsthresh := ssthresh }

/-- What PRR sends for this ACK (recovery.rs:592-605); `q` as an `i64`. -/
def prrCount (newlyAckedSacked newlyLost : Nat) (flag : Flags) : Int :=
  let inFlight : Int := c.tx.inFlight
  let delta : Int := c.sndSsthresh - inFlight
  let sndcnt : Int :=
    if delta < 0 then
      let q := (c.sndSsthresh * c.tx.prrDelivered + c.tx.priorCwnd - 1) / c.tx.priorCwnd
      (if q < 2 ^ 63 then (q : Int) else (q : Int) - 2 ^ 64) - c.tx.prrOut
    else
      let n : Int := max ((c.tx.prrDelivered : Int) - c.tx.prrOut) newlyAckedSacked
      let n := if flag.sndUnaAdvanced ∧ newlyLost = 0 then n + 1 else n
      min n delta
  -- Force a fast retransmit upon entering fast recovery.
  max sndcnt (if c.tx.prrOut ≠ 0 then 0 else 1)

/-- `tcp_cwnd_reduction` (recovery.rs:590): PRR. -/
def cwndReduction (newlyAckedSacked newlyLost : Nat) (flag : Flags) : TcpConn :=
  if newlyAckedSacked = 0 ∨ c.tx.priorCwnd = 0 then c
  else
    let c := { c with tx := { c.tx with
      prrDelivered := add32 c.tx.prrDelivered newlyAckedSacked } }
    let cwnd := (max ((c.tx.inFlight : Int) + c.prrCount newlyAckedSacked newlyLost flag) 0).toNat
    { c.noteWrap (decide (2 ^ 32 ≤ cwnd)) with sndCwnd := cwnd % 2 ^ 32 }

/-- `tcp_end_cwnd_reduction` (recovery.rs:610). -/
def endCwndReduction (now : Nat) : TcpConn :=
  if c.sndSsthresh ≠ U32_MAX ∧ (c.caState = .cwr ∨ c.tx.undoMarker.isSome) then
    { c with sndCwnd := c.sndSsthresh, tx := { c.tx with sndCwndStamp := now } }
  else c

/-! ## Undo -/

/-- `tcp_init_undo` (recovery.rs:618). -/
def initUndo : TcpConn :=
  let n : Int := c.tx.retransOut
  let n := if c.tx.tlpHighSeq.isSome ∧ c.tx.tlpRetrans then n + 1 else n
  { c with tx := { c.tx with
      undoMarker := some c.sndUna, undoRetrans := if n = 0 then -1 else n } }

/-- `tcp_enter_recovery` (recovery.rs:628). -/
def enterRecovery : TcpConn :=
  let c := if ¬ c.anyRetransDone then { c with retransStamp := none } else c
  let c := { c with tx := { c.tx with priorSsthresh := 0 } }.initUndo
  let c :=
    if ¬ c.inCwndReduction then
      { c with tx := { c.tx with priorSsthresh := c.currentSsthresh } }.initCwndReduction
    else c
  { c with caState := .recovery }

/-- `tcp_tsopt_ecr_before` (recovery.rs:640). -/
def tsoptEcrBefore (when_ : Nat) : Bool :=
  match c.tx.rcvTsecr with
  | none => false
  | some t => t != 0 && seqBefore t when_

/-- `tcp_packet_delayed` (recovery.rs:646). -/
def packetDelayed : Bool :=
  match c.retransStamp with
  | some stamp => c.tsoptEcrBefore stamp
  | none => !(c.isReno && !seqBefore c.sndUna c.highSeq)

/-- `tcp_may_undo` (recovery.rs:653). -/
def mayUndo : Bool := c.tx.undoMarker.isSome && (c.tx.undoRetrans == 0 || c.packetDelayed)

/-- `tcp_undo_cwnd_reduction` (recovery.rs:658). -/
def undoCwndReduction (unmarkLoss : Bool) (now : Nat) : TcpConn :=
  let c :=
    if unmarkLoss then
      { c with tx := { c.tx with
          queue := c.tx.queue.map fun s => { s with sacked := { s.sacked with lost := false } }
          lostOut := 0 } }
    else c
  let c :=
    if c.tx.priorSsthresh ≠ 0 then
      { c with
        sndCwnd := max c.sndCwnd c.tx.priorCwnd
        sndSsthresh := max c.sndSsthresh c.tx.priorSsthresh }
    else c
  { c with tx := { c.tx with
      sndCwndStamp := now, undoMarker := none, rack := { c.tx.rack with advanced := true } } }

/-- `retrans_stamp` is forgotten once nothing was retransmitted. -/
def forgetStamp : TcpConn := if ¬ c.anyRetransDone then { c with retransStamp := none } else c

/-- `tcp_is_non_sack_preventing_reopen` (recovery.rs:675). -/
def isNonSackPreventingReopen : Bool × TcpConn :=
  if c.sndUna = c.highSeq ∧ c.isReno then (true, c.forgetStamp) else (false, c)

/-- `tcp_try_undo_dsack` (recovery.rs:684). -/
def tryUndoDsack (now : Nat) : Bool × TcpConn :=
  if c.tx.undoMarker.isSome ∧ c.tx.undoRetrans = 0 then
    let c := { c with tx := { c.tx with rack := { c.tx.rack with
      reoWndPersist := min (c.tx.rack.reoWndPersist + 1) TCP_RACK_RECOVERY_THRESH } } }
    (true, c.undoCwndReduction false now)
  else (false, c)

/-- `tcp_try_undo_loss` (recovery.rs:694). -/
def tryUndoLoss (frtoUndo : Bool) (now : Nat) : Bool × TcpConn :=
  if frtoUndo ∨ c.mayUndo then
    let c := { c.undoCwndReduction true now with retries := 0 }
    let (held, c) := c.isNonSackPreventingReopen
    if held then (true, c)
    else if frtoUndo ∨ ¬ c.isReno then
      (true, { c with caState := .opened, tx := { c.tx with isSackReneg := false } })
    else (true, c)
  else (false, c)

/-- `tcp_try_keep_open` (recovery.rs:722). -/
def tryKeepOpen : TcpConn :=
  let state : CaState :=
    if c.tx.sackedOut + c.tx.lostOut ≠ 0 ∨ c.anyRetransDone then .disorder else .opened
  if c.caState ≠ state then { c with caState := state, highSeq := c.sndNxt } else c

/-- `tcp_try_to_open` (recovery.rs:735). -/
def tryToOpen : TcpConn := c.forgetStamp.tryKeepOpen

/-- `tcp_check_sack_reordering` (recovery.rs:795). -/
def checkSackReordering (lowSeq : Nat) : TcpConn :=
  let mss := c.mssCache
  let fack := c.highestSackSeq
  if ¬ seqBefore lowSeq fack then c
  else
    let metric := sub32 fack lowSeq
    let c :=
      if mss ≠ 0 ∧ c.tx.reordering * mss < metric then
        { c with tx := { c.tx with
            reordering := min ((metric + mss - 1) / mss) TCP_MAX_REORDERING } }
      else c
    { c with tx := { c.tx with reordSeen := c.tx.reordSeen + 1 } }

/-- `tcp_try_undo_partial` (recovery.rs:710). -/
def tryUndoPartial (priorUna now : Nat) : Bool × TcpConn :=
  if c.tx.undoMarker.isSome ∧ c.packetDelayed then
    let c := c.checkSackReordering priorUna
    if c.tx.retransOut ≠ 0 then (true, c)
    else (false, (c.forgetStamp.undoCwndReduction true now).tryKeepOpen)
  else (false, c)

/-- `tcp_try_undo_recovery` (recovery.rs:742). -/
def tryUndoRecovery (now : Nat) : Bool × TcpConn :=
  let c :=
    if c.mayUndo then c.undoCwndReduction false now
    else if c.tx.rack.reoWndPersist ≠ 0 then
      { c with tx := { c.tx with rack := { c.tx.rack with
          reoWndPersist := c.tx.rack.reoWndPersist - 1 } } }
    else c
  let (held, c) := c.isNonSackPreventingReopen
  if held then (true, c)
  else (false, { c with caState := .opened, tx := { c.tx with isSackReneg := false } })

/-! ## Without SACK -/

/-- `tcp_limit_reno_sacked` (recovery.rs:755). -/
def limitRenoSacked : Bool × TcpConn :=
  let holes := min (max c.tx.lostOut 1) c.tx.packetsOut
  if c.tx.packetsOut < c.tx.sackedOut + holes then
    (true, { c with tx := { c.tx with sackedOut := c.tx.packetsOut - holes } })
  else (false, c)

/-- `tcp_check_reno_reordering` (recovery.rs:765). -/
def checkRenoReordering (addend : Nat) : TcpConn :=
  let (limited, c) := c.limitRenoSacked
  if limited then
    { c with tx := { c.tx with
        reordering := min (c.tx.packetsOut + addend) TCP_MAX_REORDERING
        reordSeen := c.tx.reordSeen + 1 } }
  else c

/-- `tcp_add_reno_sack` (recovery.rs:773). -/
def addRenoSack (numDupack : Nat) : TcpConn :=
  if numDupack = 0 then c
  else
    let prior := c.tx.sackedOut
    let c := { c with tx := { c.tx with sackedOut := c.tx.sackedOut + numDupack } }.checkRenoReordering 0
    { c with tx := { c.tx with delivered := add32 c.tx.delivered (c.tx.sackedOut - prior) } }

/-- `tcp_remove_reno_sacks` (recovery.rs:782). -/
def removeRenoSacks (acked : Nat) : TcpConn :=
  let c :=
    if 0 < acked then
      { c with tx := { c.tx with
          delivered := add32 c.tx.delivered (max (acked - c.tx.sackedOut) 1)
          sackedOut := if c.tx.sackedOut < acked then 0 else c.tx.sackedOut - (acked - 1) } }
    else c
  c.checkRenoReordering acked

/-- `sacked_out = 0` for a connection without SACK. -/
def clearRenoSacks : TcpConn :=
  if c.isReno then { c with tx := { c.tx with sackedOut := 0 } } else c

/-! ## Delivery rate -/

/-- `tcp_rate_skb_delivered` (recovery.rs:864). -/
def rateSkbDelivered (s : TxSeg) (rs : RateSample) : TcpConn × RateSample :=
  if s.txDeliveredMstamp = 0 then (c, rs)
  else if rs.priorDelivered = 0 ∨ sentAfter s.sentUs c.tx.firstTxMstamp s.endSeq rs.lastEndSeq then
    ({ c with tx := { c.tx with firstTxMstamp := s.sentUs } },
      { rs with
        priorDelivered := s.txDelivered, priorMstamp := s.txDeliveredMstamp
        isAppLimited := s.txAppLimited, isRetrans := s.sacked.resent, lastEndSeq := s.endSeq
        intervalUs := (s.sentUs : Int) - s.txFirstTxMstamp })
  else (c, rs)

/-- `tcp_rate_gen` (recovery.rs:881). The sample's `delivered` is an `i32`, widened with its sign;
the products are those of `u64`. -/
def rateGen (delivered : Nat) (rs : RateSample) (isSackReneg : Bool) (nowUs : Nat) :
    TcpConn × RateSample :=
  let c : TcpConn :=
    if c.tx.appLimited ≠ 0 ∧ after c.tx.delivered c.tx.appLimited then
      { c with tx := { c.tx with appLimited := 0 } }
    else c
  let c : TcpConn :=
    if delivered ≠ 0 then { c with tx := { c.tx with deliveredMstamp := nowUs } } else c
  if rs.priorMstamp = 0 ∨ isSackReneg then (c, { rs with delivered := -1, intervalUs := -1 })
  else
    let d := sub32 c.tx.delivered rs.priorDelivered
    let got : Int := if d < 2 ^ 31 then d else (d : Int) - 2 ^ 32
    -- Sending and ACKing as two pipeline phases: the slower decides.
    let interval := max rs.intervalUs ((nowUs : Int) - rs.priorMstamp)
    if interval < c.tx.minRtt then (c, { rs with delivered := got, intervalUs := -1 })
    else
      let rs : RateSample := { rs with delivered := got, intervalUs := interval }
      if ¬ rs.isAppLimited ∨
          (c.tx.rateDelivered : Int) * interval % 2 ^ 64 ≤ got * c.tx.rateIntervalUs % 2 ^ 64 then
        ({ c with tx := { c.tx with
            rateDelivered := (got % 2 ^ 32).toNat, rateIntervalUs := interval.toNat
            rateAppLimited := rs.isAppLimited } }, rs)
      else (c, rs)

/-- `tcp_rate_check_app_limited` (recovery.rs:910). -/
def rateCheckAppLimited : TcpConn :=
  if c.sendBuf.length - c.sent < c.mssCache ∧ c.tx.inFlight < c.sndCwnd ∧
      c.tx.lostOut ≤ c.tx.retransOut then
    let v := add32 c.tx.delivered c.tx.inFlight
    { c with tx := { c.tx with appLimited := if v = 0 then 1 else v } }
  else c

/-- `tcp_rack_update_reo_wnd` (recovery.rs:923). -/
def rackUpdateReoWnd (rs : RateSample) : TcpConn :=
  if rs.priorDelivered = 0 then c
  else
    let seen := c.tx.rack.dsackSeen && !seqBefore rs.priorDelivered c.tx.rack.lastDelivered
    let rack : Rack := { c.tx.rack with dsackSeen := seen }
    let rack :=
      if seen then
        { rack with
          reoWndSteps := min (rack.reoWndSteps + 1) 255, dsackSeen := false
          lastDelivered := c.tx.delivered, reoWndPersist := TCP_RACK_RECOVERY_THRESH }
      else if rack.reoWndPersist = 0 then { rack with reoWndSteps := 1 }
      else rack
    { c with tx := { c.tx with rack } }

/-! ## RACK -/

/-- `tcp_rack_reo_wnd` (recovery.rs:945), in µs. -/
def rackReoWnd : Nat :=
  if c.tx.reordSeen = 0 ∧
      (CaState.recovery.rank ≤ c.caState.rank ∨ c.tx.reordering ≤ c.tx.sackedOut) then 0
  else min (c.tx.minRtt / 4 * c.tx.rack.reoWndSteps) (c.srttUs / 8)

/-- `tcp_rack_skb_timeout` (recovery.rs:954). -/
def rackSkbTimeout (s : TxSeg) (reoWnd nowUs : Nat) : Int :=
  (c.tx.rack.rttUs : Int) + reoWnd - (nowUs - s.sentUs : Nat)

/-- `tcp_rack_advance` (recovery.rs:959). -/
def rackAdvance (sacked : Tag) (endSeq xmitUs nowUs : Nat) : TcpConn :=
  let rttUs := nowUs - xmitUs
  if rttUs < c.tx.minRtt ∧ sacked.resent then c
  else
    let rack : Rack := { c.tx.rack with advanced := true, rttUs }
    let rack :=
      if sentAfter xmitUs rack.mstamp endSeq rack.endSeq then { rack with mstamp := xmitUs, endSeq }
      else rack
    { c with tx := { c.tx with rack } }

/-- One segment of `tcp_rack_detect_loss` (recovery.rs:978-991). -/
def rackDetectOne (reoWnd nowUs : Nat) (p : TcpConn × Nat) (i : Nat) : TcpConn × Nat :=
  let s := p.1.tx.seg i
  if s.sacked.acked then p
  else if s.sacked.lost ∧ ¬ s.sacked.retrans then p
  else if ¬ sentAfter p.1.tx.rack.mstamp s.sentUs p.1.tx.rack.endSeq s.endSeq then p
  else
    let remaining := p.1.rackSkbTimeout s reoWnd nowUs
    if remaining ≤ 0 then ({ p.1 with tx := p.1.tx.markSkbLost i }, p.2)
    else (p.1, max p.2 remaining.toNat)

/-- `tcp_rack_detect_loss` (recovery.rs:975). -/
def rackDetectLoss (nowUs : Nat) : TcpConn × Nat :=
  (List.range c.tx.queue.length).foldl (rackDetectOne c.rackReoWnd nowUs) (c, 0)

/-- `tcp_rack_mark_lost` (recovery.rs:996): whether it armed the reordering timer. -/
def rackMarkLost (now nowUs : Nat) : Bool × TcpConn :=
  if ¬ c.tx.rack.advanced then (false, c)
  else
    let c := { c with tx := { c.tx with rack := { c.tx.rack with advanced := false } } }
    let (c, timeout) := c.rackDetectLoss nowUs
    if timeout ≠ 0 then
      (true, c.resetXmitTimer .reo (min (usToTicks (timeout + TCP_TIMEOUT_MIN_US)) c.rto) now)
    else (false, c)

/-- `tcp_newreno_mark_lost` (recovery.rs:1025). -/
def newrenoMarkLost (sndUnaAdvanced : Bool) : TcpConn :=
  if (c.caState.rank < CaState.recovery.rank ∧ c.tx.reordering ≤ c.tx.sackedOut) ∨
      (c.caState = .recovery ∧ sndUnaAdvanced) then
    if (c.tx.seg 0).sacked.lost then c else { c with tx := c.tx.markSkbLost 0 }
  else c

/-- `tcp_identify_packet_loss` (recovery.rs:1036). -/
def identifyPacketLoss (flag : Flags) (now nowUs : Nat) : TcpConn × Flags :=
  if c.tx.queue.isEmpty then (c, flag)
  else if c.isReno then (c.newrenoMarkLost flag.sndUnaAdvanced, flag)
  else
    let prior := c.tx.retransOut
    let (armed, c) := c.rackMarkLost now nowUs
    let flag := if armed then { flag with setXmitTimer := false } else flag
    (c, if c.tx.retransOut < prior then { flag with lostRetrans := true } else flag)

/-! ## The state machine -/

/-- F-RTO (recovery.rs:1058-1075): whether it is done with the ACK, the connection, and what is
to be sent. -/
def processFrto (flag : Flags) (numDupack : Nat) (recovered : Bool) (now : Nat) :
    Bool × TcpConn × Rexmit :=
  if ¬ c.tx.frto then (false, c, .none)
  else
    let (undone, c) := if flag.origSackAcked then c.tryUndoLoss true now else (false, c)
    if undone then (true, c, .none)
    else if after c.sndNxt c.highSeq then
      (false, if flag.dataSacked ∨ numDupack ≠ 0 then { c with tx := { c.tx with frto := false } }
        else c, .none)
    else if flag.sndUnaAdvanced ∧ ¬ recovered then
      let c := { c with highSeq := c.sndNxt }
      if c.sent < c.sendBuf.length ∧ after (add32 c.sndUna c.sndWnd) c.sndNxt then (true, c, .new)
      else (false, { c with tx := { c.tx with frto := false } }, .none)
    else (false, c, .none)

/-- `tcp_process_loss` (recovery.rs:1055). -/
def processLoss (flag : Flags) (numDupack : Nat) (now : Nat) : TcpConn × Rexmit :=
  let recovered := !seqBefore c.sndUna c.highSeq
  let (undone, c) := if flag.sndUnaAdvanced then c.tryUndoLoss false now else (false, c)
  if undone then (c, .none)
  else
    let (done, c, rexmit) := c.processFrto flag numDupack recovered now
    if done then (c, rexmit)
    else if recovered then ((c.tryUndoRecovery now).2, .none)
    else
      let c :=
        if c.isReno then
          if after c.sndNxt c.highSeq ∧ numDupack ≠ 0 then c.addRenoSack numDupack
          else if flag.sndUnaAdvanced then { c with tx := { c.tx with sackedOut := 0 } }
          else c
        else c
      (c, .lost)

/-- The exit of a state once `high_seq` is acknowledged (recovery.rs:1107-1119); true when the
ACK is done with. -/
def exitState (now : Nat) : Bool × TcpConn :=
  if c.caState = .opened then (false, { c with retransStamp := none })
  else if ¬ seqBefore c.sndUna c.highSeq ∧ c.caState = .cwr then
    if c.sndUna ≠ c.highSeq then (false, { c.endCwndReduction now with caState := .opened })
    else (false, c)
  else if ¬ seqBefore c.sndUna c.highSeq ∧ c.caState = .recovery then
    let (held, c) := c.clearRenoSacks.tryUndoRecovery now
    if held then (true, c) else (false, c.endCwndReduction now)
  else (false, c)

/-- The states without a loss, and those that a loss may follow (recovery.rs:1146-1158). -/
def openPath (flag : Flags) (numDupack now nowUs : Nat) : TcpConn × Flags × Rexmit :=
  let c :=
    if c.isReno then
      (if flag.sndUnaAdvanced then { c with tx := { c.tx with sackedOut := 0 } } else c).addRenoSack
        numDupack
    else c
  let c := if c.caState.rank ≤ CaState.disorder.rank then (c.tryUndoDsack now).2 else c
  let (c, flag) := c.identifyPacketLoss flag now nowUs
  if c.tx.lostOut = 0 then (c.tryToOpen, flag, .none) else (c.enterRecovery, flag, .lost)

/-- Recovery (recovery.rs:1124-1137). -/
def inRecovery (priorUna : Nat) (flag : Flags) (numDupack now nowUs : Nat) :
    TcpConn × Flags × Rexmit :=
  let (held, c) :=
    if ¬ flag.sndUnaAdvanced then (false, if c.isReno then c.addRenoSack numDupack else c)
    else c.tryUndoPartial priorUna now
  if held then (c, flag, .none)
  else
    let (undone, c) := c.tryUndoDsack now
    let c := if undone then c.tryToOpen else c
    let (c, flag) := c.identifyPacketLoss flag now nowUs
    if c.caState ≠ .recovery then
      -- Undone; a loss still evident starts a new recovery.
      if c.tx.lostOut = 0 then (c, flag, .none) else (c.enterRecovery, flag, .lost)
    else (c, flag, .lost)

/-- `tcp_fastretrans_alert` (recovery.rs:1092). -/
def fastretransAlert (priorUna numDupack : Nat) (flag : Flags) (now nowUs : Nat) :
    TcpConn × Flags × Rexmit :=
  let c :=
    if c.tx.packetsOut = 0 ∧ c.tx.sackedOut ≠ 0 then { c with tx := { c.tx with sackedOut := 0 } }
    else c
  -- The receiver dropped what it had SACKed.
  if flag.sackReneging ∧ flag.sndUnaAdvanced then
    (c.resetXmitTimer .retrans (max (usToTicks (c.srttUs / 16)) 1) now,
      { flag with setXmitTimer := false }, .none)
  else
    let (done, c) := c.exitState now
    if done then (c, flag, .none)
    else
      match c.caState with
      | .recovery => c.inRecovery priorUna flag numDupack now nowUs
      | .loss =>
        let (c, rexmit) := c.processLoss flag numDupack now
        let (c, flag) := c.identifyPacketLoss flag now nowUs
        if c.caState = .opened ∨ flag.lostRetrans then
          let (c, flag, rexmit') := c.openPath flag numDupack now nowUs
          (c, flag, if rexmit' = .none then rexmit else rexmit')
        else (c, flag, rexmit)
      | _ => c.openPath flag numDupack now nowUs

/-- `tcp_cong_control` (recovery.rs:1163). -/
def congControl (ackedSacked newlyLost : Nat) (flag : Flags) (now : Nat) : TcpConn :=
  if c.inCwndReduction then c.cwndReduction ackedSacked newlyLost flag
  else
    let mayRaise :=
      if TCP_REORDERING < c.tx.reordering then flag.dataAcked || flag.dataSacked else flag.dataAcked
    if mayRaise then
      let c := c.congAvoid ackedSacked now
      { c with tx := { c.tx with sndCwndStamp := now } }
    else c

/-- One segment of `tcp_timeout_mark_lost` (recovery.rs:1189-1197). -/
def timeoutMarkOne (headSacked : Bool) (nowUs : Nat) (c : TcpConn) (i : Nat) : TcpConn :=
  if headSacked then
    let t := c.tx.setTag i { (c.tx.seg i).sacked with acked := false }
    { c with tx := t.markSkbLost i }
  else if i ≠ 0 ∧ 0 < c.rackSkbTimeout (c.tx.seg i) 0 nowUs then c
  else { c with tx := c.tx.markSkbLost i }

/-- `tcp_timeout_mark_lost` (recovery.rs:1183-1197). -/
def timeoutMarkLost (nowUs : Nat) : TcpConn :=
  let headSacked := !c.tx.queue.isEmpty && (c.tx.seg 0).sacked.acked
  let c := if headSacked ∨ c.isReno then { c with tx := { c.tx with sackedOut := 0 } } else c
  let c := if headSacked then { c with tx := { c.tx with isSackReneg := true } } else c
  (List.range c.tx.queue.length).foldl (timeoutMarkOne headSacked nowUs) c

/-- The reduction of a window not yet reduced (recovery.rs:1200-1208). -/
def lossSsthresh : TcpConn :=
  if c.caState.rank ≤ CaState.disorder.rank ∨ ¬ after c.highSeq c.sndUna ∨
      (c.caState = .loss ∧ c.retries = 0) then
    let c := { c with tx := { c.tx with
      priorSsthresh := c.currentSsthresh, priorCwnd := c.sndCwnd } }
    let (ssthresh, c) := c.recalcSsthresh
    { c with sndSsthresh := ssthresh }.initUndo
  else c

/-- `tcp_enter_loss` (recovery.rs:1181): the RTO fired. -/
def enterLoss (nowUs : Nat) : TcpConn :=
  let newRecovery := decide (c.caState.rank < CaState.recovery.rank)
  let c := (c.timeoutMarkLost nowUs).lossSsthresh
  let c := { c.noteWrap (decide (2 ^ 32 ≤ c.tx.inFlight + 1)) with
    sndCwnd := (c.tx.inFlight + 1) % 2 ^ 32, sndCwndCnt := 0
    tx := { c.tx with sndCwndStamp := nowUs / TICK_US } }
  let c :=
    if c.caState.rank ≤ CaState.disorder.rank ∧ TCP_REORDERING ≤ c.tx.sackedOut then
      { c with tx := { c.tx with reordering := min c.tx.reordering TCP_REORDERING } }
    else c
  let c := { c with caState := .loss }.cubicRestart nowUs
  { c with
    highSeq := c.sndNxt
    tx := { c.tx with tlpHighSeq := none, frto := newRecovery || c.retries != 0 } }

/-- `tcp_process_tlp_ack` (recovery.rs:427). -/
def processTlpAck (ack : Nat) (flag : Flags) (now : Nat) : TcpConn :=
  match c.tx.tlpHighSeq with
  | none => c
  | some high =>
    if seqBefore ack high then c
    else if ¬ c.tx.tlpRetrans then { c with tx := { c.tx with tlpHighSeq := none } }
    else if flag.dsackTlp then { c with tx := { c.tx with tlpHighSeq := none } }
    else if after ack high then
      -- The probe repaired a loss: reduce once.
      ({ c.initCwndReduction with caState := .cwr }.endCwndReduction now).tryKeepOpen
    else if ¬ (flag.sndUnaAdvanced || flag.notDup || flag.dataSacked) then
      { c with tx := { c.tx with tlpHighSeq := none } }
    else c

end TcpConn

end NopeekOS.Net.Tcp
