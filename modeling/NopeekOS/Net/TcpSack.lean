import NopeekOS.Net.TcpRecovery
import NopeekOS.Lib.StableSort

/-!
# What an ACK says of the queue

The model of recovery.rs from `SackState` to `clean_rtx_queue`: the SACK blocks of an ACK tag
the segments of the retransmit queue, its number drops them, and both yield samples of the RTT.
Nothing is sent here.
-/

namespace NopeekOS.Net.Tcp

open Lib

def TCP_NUM_SACKS : Nat := 4

/-- `struct tcp_sacktag_state` (recovery.rs:1374). -/
structure SackState where
  rate : RateSample
  flag : Flags
  reord : Nat
  firstSackt : Nat
  lastSackt : Nat
  sackDelivered : Nat

namespace TcpConn

variable (c : TcpConn)

/-- `tcp_is_sackblock_valid` (recovery.rs:1409): inside what is outstanding; a D-SACK may also
lie below `snd_una`, down to `undo_marker`. -/
def isSackblockValid (isDsack : Bool) (start stop : Nat) : Bool :=
  if after stop c.sndNxt || !seqBefore start stop then false
  else if !seqBefore start c.sndNxt then false
  else if after start c.sndUna then true
  else
    match c.tx.undoMarker with
    | none => false
    | some marker =>
      if !isDsack then false
      else if after stop c.sndUna then false
      else if !seqBefore start marker then true
      else if !after stop marker then false
      -- Crossing the marker (overestimated).
      else !seqBefore start (sub32 stop c.maxWindow)

/-- Whether the first block can be a D-SACK (recovery.rs:1424-1430). -/
def dsackShape (ack : Nat) (sp : List (Nat × Nat)) : Bool :=
  match sp with
  | [] => false
  | (s0, e0) :: rest =>
    let inOrder :=
      if seqBefore s0 ack then true
      else
        match rest with
        | [] => false
        | (s1, e1) :: _ => !(after e0 e1 || seqBefore s0 s1)
    inOrder && seqBefore s0 e0

/-- `tcp_check_dsack` and `tcp_dsack_seen` (recovery.rs:1423): whether the first block is a
D-SACK that is believed. -/
def checkDsack (ack : Nat) (sp : List (Nat × Nat)) (priorUna : Nat) (st : SackState) :
    Bool × TcpConn × SackState :=
  let (s0, e0) := sp.headD (0, 0)
  let seqLen := sub32 e0 s0
  if ¬ dsackShape ack sp ∨ c.maxWindow < seqLen then (false, c, st)
  else
    let mss := max c.mssCache 1
    let dupSegs := if mss < seqLen then (seqLen + mss - 1) / mss else 1
    let st : SackState :=
      if ¬ mss < seqLen ∧ c.tx.tlpHighSeq = some e0 then
        { st with flag := { st.flag with dsackTlp := true } }
      else st
    let c : TcpConn := { c with tx := { c.tx with dsackDups := add32 c.tx.dsackDups dupSegs } }
    -- Not what we retransmitted: dubious. The count stays.
    if c.tx.totalRetrans < c.tx.dsackDups then (false, c, st)
    else
      let c : TcpConn :=
        if c.tx.reordSeen ≠ 0 ∧ ¬ st.flag.dsackTlp then
          { c with tx := { c.tx with rack := { c.tx.rack with dsackSeen := true } } }
        else c
      let st : SackState :=
        { st with
          flag := { st.flag with dsackingAck := true }
          sackDelivered := st.sackDelivered + dupSegs }
      let c : TcpConn :=
        match c.tx.undoMarker with
        | none => c
        | some marker =>
          if 0 < c.tx.undoRetrans ∧ ¬ after e0 priorUna ∧ after e0 marker then
            { c with tx := { c.tx with undoRetrans := max (c.tx.undoRetrans - dupSegs) 0 } }
          else c
      (true, c, st)

/-! ## Tagging -/

variable (st : SackState)

/-- A D-SACK for a retransmission (recovery.rs:1462-1469). -/
def dsackOne (s : TxSeg) (dupSack : Bool) : TcpConn × SackState :=
  if dupSack ∧ s.sacked.resent then
    let c : TcpConn :=
      match c.tx.undoMarker with
      | none => c
      | some marker =>
        if 0 < c.tx.undoRetrans ∧ after s.endSeq marker then
          { c with tx := { c.tx with undoRetrans := max (c.tx.undoRetrans - 1) 0 } }
        else c
    (c, if s.sacked.acked ∧ seqBefore s.seq st.reord then { st with reord := s.seq } else st)
  else (c, st)

/-- A segment SACKed for the first time that was never sent again (recovery.rs:1483-1490). -/
def sackedOriginal (s : TxSeg) : SackState :=
  let st : SackState :=
    if seqBefore s.seq c.highestSackSeq ∧ seqBefore s.seq st.reord then { st with reord := s.seq }
    else st
  let st : SackState :=
    if ¬ after s.endSeq c.highSeq then { st with flag := { st.flag with origSackAcked := true } }
    else st
  { st with
    firstSackt := if st.firstSackt = 0 then s.sentUs else st.firstSackt
    lastSackt := s.sentUs }

/-- The segment is SACKed for the first time (recovery.rs:1473-1500): its new tag with the
counters. -/
def sackedFirst (s : TxSeg) (nowUs : Nat) : TcpConn × SackState × Tag :=
  let c := c.rackAdvance s.sacked s.endSeq s.sentUs nowUs
  let (t, st, g) : Tx × SackState × Tag :=
    if s.sacked.retrans then
      -- Not marked lost: the retransmission is believed in flight.
      if s.sacked.lost then
        (c.tx.decLost.decRetrans, st, { s.sacked with lost := false, retrans := false })
      else (c.tx, st, s.sacked)
    else
      let st := if s.sacked.resent then st else c.sackedOriginal st s
      if s.sacked.lost then (c.tx.decLost, st, { s.sacked with lost := false })
      else (c.tx, st, s.sacked)
  ({ c with tx := { t with sackedOut := t.sackedOut + 1 } },
    { st with
      flag := { st.flag with dataSacked := true }, sackDelivered := st.sackDelivered + 1 },
    { g with acked := true })

/-- `tcp_sacktag_one` (recovery.rs:1459). -/
def sacktagOne (i : Nat) (dupSack : Bool) (nowUs : Nat) : TcpConn × SackState :=
  let s := c.tx.seg i
  let (c, st) := c.dsackOne st s dupSack
  -- Acked already; about to be dropped.
  if ¬ after s.endSeq c.sndUna then (c, st)
  else
    let (c, st, g) := if s.sacked.acked then (c, st, s.sacked) else c.sackedFirst st s nowUs
    if dupSack ∧ g.retrans then
      ({ c with tx := (c.tx.setTag i { g with retrans := false }).decRetrans }, st)
    else ({ c with tx := c.tx.setTag i g }, st)

/-- A segment wholly inside a block (recovery.rs:1541-1548). -/
def sackSegment (i : Nat) (dup : Bool) (nowUs : Nat) : TcpConn × SackState :=
  let (c, st) := c.sacktagOne st i dup nowUs
  let seg := c.tx.seg i
  let (c, rate) := c.rateSkbDelivered seg st.rate
  let st : SackState := { st with rate }
  if seg.sacked.acked then
    let t := c.tx.setSeg i { seg with txDeliveredMstamp := 0 }
    let c : TcpConn := { c with tx := t }
    if ¬ seqBefore seg.seq c.highestSackSeq then
      ({ c with tx := { c.tx with highestSack := seg.endSeq } }, st)
    else (c, st)
  else (c, st)

/-- The walk over the queue for one block (recovery.rs:1534-1551), through the indices left. -/
def sackWalk (start stop : Nat) (dup : Bool) (nowUs : Nat) :
    List Nat → TcpConn → SackState → TcpConn × SackState
  | [], c, st => (c, st)
  | i :: is, c, st =>
    let s := c.tx.seg i
    if ¬ seqBefore s.seq stop then (c, st)
    else if ¬ after start s.seq ∧ ¬ seqBefore stop s.endSeq then
      let (c, st) := c.sackSegment st i dup nowUs
      sackWalk start stop dup nowUs is c st
    else sackWalk start stop dup nowUs is c st

/-- The walks for the blocks, one after the other. -/
def sackBlocks (nowUs : Nat) : List (Nat × Nat × Bool) → TcpConn → SackState → TcpConn × SackState
  | [], c, st => (c, st)
  | (start, stop, dup) :: rest, c, st =>
    let (c, st) := sackWalk start stop dup nowUs (List.range c.tx.queue.length) c st
    sackBlocks nowUs rest c st

/-- The blocks the walks use (recovery.rs:1522-1532): the valid ones above `prior_una`, in order.
At most four are sorted, which the library does by insertion. -/
def usedBlocks (blocks : List (Nat × Nat)) (foundDup : Bool) (priorUna : Nat) :
    List (Nat × Nat × Bool) :=
  let marked := blocks.zipIdx.map fun p => (p.1.1, p.1.2, p.2 == 0 && foundDup)
  let used := marked.filter fun b => c.isSackblockValid b.2.2 b.1 b.2.1 && after b.2.1 priorUna
  used.insertionSort fun a b => sub32 a.1 priorUna ≤ sub32 b.1 priorUna

/-- `tcp_sacktag_write_queue` (recovery.rs:1510). -/
def sacktagWriteQueue (ack : Nat) (blocks : List (Nat × Nat)) (priorUna : Nat) (st : SackState)
    (nowUs : Nat) : TcpConn × SackState :=
  let st : SackState := { st with flag := .none, reord := c.sndNxt }
  let c : TcpConn :=
    if c.tx.sackedOut = 0 then { c with tx := { c.tx with highestSack := c.sndUna } } else c
  let (foundDup, c, st) := c.checkDsack ack blocks priorUna st
  if seqBefore ack (sub32 priorUna c.maxWindow) then (c, { st with flag := .none })
  else if c.tx.packetsOut = 0 then (c, st)
  else
    let (c, st) := sackBlocks nowUs (c.usedBlocks blocks foundDup priorUna) c st
    if c.caState ≠ .loss ∨ c.tx.undoMarker.isSome then (c.checkSackReordering st.reord, st)
    else (c, st)

/-! ## The number -/

/-- `tcp_ack_update_window` (recovery.rs:1559), then `snd_una` moves. -/
def ackUpdateWindow (ack ackSeq nwin now : Nat) : TcpConn × Flags :=
  if after ack c.sndUna ∨ after ackSeq c.sndWl1 ∨
      (ackSeq = c.sndWl1 ∧ (c.sndWnd < nwin ∨ nwin = 0)) then
    let c : TcpConn := { c with sndWl1 := ackSeq }
    let c : TcpConn :=
      if c.sndWnd ≠ nwin then
        let c : TcpConn := { c with sndWnd := nwin }
        let c := if c.sent < c.sendBuf.length then c.slowStartAfterIdleCheck now else c
        -- A larger window may lift the half-window bound on the MSS.
        if c.maxWindow < nwin then { c with maxWindow := nwin }.syncMss else c
      else c
    ({ c with sndUna := ack }, { Flags.none with winUpdate := true })
  else ({ c with sndUna := ack }, .none)

/-- `tcp_update_rtt_min` (recovery.rs:1613). -/
def rttMinSample (rttUs now : Nat) : TcpConn :=
  let v := min rttUs U32_MAX
  { c with tx := { c.tx with
      rttMin := c.tx.rttMin.runningMin MIN_RTT_WLEN (now % 2 ^ 32) (if v = 0 then TICK_US else v) } }

/-- The sample of the echoed timestamp (recovery.rs:1592-1601). -/
def tsoptRtt (flag : Flags) (tsecr : Option Nat) (tsNowMs : Nat) : Option Nat :=
  match tsecr with
  | none => none
  | some t =>
    let delta := sub32 tsNowMs t
    if c.tsOk ∧ flag.dataAcked ∧ t ≠ 0 ∧ delta < (2 ^ 31 - 1) / 1000 then some (max delta 1 * 1000)
    else none

/-- `tcp_ack_update_rtt` (recovery.rs:1588): whether a sample was taken, and the one for CUBIC. -/
def updateRtt (flag : Flags) (seqRtt sackRtt caRtt tsecr : Option Nat) (tsNowMs now : Nat) :
    TcpConn × Bool × Option Nat :=
  let direct := seqRtt.or sackRtt
  let echoed := if direct.isNone then c.tsoptRtt flag tsecr tsNowMs else none
  let caRtt := if echoed.isSome then echoed else caRtt
  match direct.or echoed with
  | none => (c, false, caRtt)
  | some m =>
    let ca := caRtt.getD m
    -- A suspected delayed ACK would raise the minimum.
    let c := if flag.ackMaybeDelayed ∧ c.tx.minRtt < ca then c else c.rttMinSample ca now
    (c.ackUpdateRtt (max m 1), true, caRtt)

end TcpConn

/-- What `clean_rtx_queue` keeps while it drops segments (recovery.rs:1622-1627). -/
structure Clean where
  c : TcpConn
  rate : RateSample
  flag : Flags
  reord : Nat
  firstAckt : Nat
  lastAckt : Nat
  pktsAcked : Nat

namespace Clean

/-- The dropped segment was sent once and not SACKed (recovery.rs:1635-1639). -/
def original (w : Clean) (s : TxSeg) : Clean :=
  { w with
    lastAckt := s.sentUs
    firstAckt := if w.firstAckt = 0 then s.sentUs else w.firstAckt
    reord := if seqBefore s.seq w.reord then s.seq else w.reord
    flag := if after s.endSeq w.c.highSeq then w.flag else { w.flag with origSackAcked := true } }

/-- The dropped segment's own delivery: SACKed before, or now (recovery.rs:1641-1649). -/
def deliver (c : TcpConn) (s : TxSeg) (tsecr : Option Nat) (nowUs : Nat) : TcpConn :=
  if s.sacked.acked then { c with tx := c.tx.decSacked }
  else if c.isReno then c
  else
    let c : TcpConn := { c with tx := { c.tx with delivered := add32 c.tx.delivered 1 } }
    -- The echo predates the retransmission.
    let spurious := s.sacked.resent && c.tsOk &&
      tsecr.any fun t => t != 0 && seqBefore t (s.sentUs / 1000 % 2 ^ 32)
    if spurious then c else c.rackAdvance s.sacked s.endSeq s.sentUs nowUs

/-- One segment the ACK covers (recovery.rs:1630-1654); `rest` is the queue after it. -/
def drop (w : Clean) (s : TxSeg) (rest : List TxSeg) (tsecr : Option Nat) (nowUs : Nat) : Clean :=
  let w : Clean := { w with c := { w.c with tx := { w.c.tx with queue := rest } } }
  let w : Clean :=
    if s.sacked.resent then
      { w with
        c := if s.sacked.retrans then { w.c with tx := w.c.tx.decRetrans } else w.c
        flag := { w.flag with retransDataAcked := true } }
    else if ¬ s.sacked.acked then w.original s
    else w
  let c := deliver w.c s tsecr nowUs
  let c : TcpConn := if s.sacked.lost then { c with tx := c.tx.decLost } else c
  let c : TcpConn := { c with tx := c.tx.decPackets }
  let (c, rate) := c.rateSkbDelivered s w.rate
  { w with c, rate, pktsAcked := w.pktsAcked + 1, flag := { w.flag with dataAcked := true } }

/-- The loop of `clean_rtx_queue`; the queue's length is enough fuel. -/
def loop (tsecr : Option Nat) (nowUs : Nat) : Nat → Clean → Clean
  | 0, w => w
  | fuel + 1, w =>
    match w.c.tx.queue with
    | [] => w
    | s :: rest =>
      if after s.endSeq w.c.sndUna then w else loop tsecr nowUs fuel (w.drop s rest tsecr nowUs)

/-- A segment acknowledged in part keeps what is left; a SACKed head is a renege
(recovery.rs:1658-1661). -/
def trim (w : Clean) : Clean :=
  match w.c.tx.queue with
  | [] => w
  | h :: rest =>
    let h' : TxSeg := if after w.c.sndUna h.seq then { h with seq := w.c.sndUna } else h
    { w with
      c := { w.c with tx := { w.c.tx with queue := h' :: rest } }
      flag := if h.sacked.acked then { w.flag with sackReneging := true } else w.flag }

end Clean

namespace TcpConn

variable (c : TcpConn)

/-- A lone runt over the round trip, likely a delayed ACK (recovery.rs:1671-1677). -/
def maybeDelayed (w : Clean) (priorSacked priorUna : Nat) : Bool :=
  decide (w.pktsAcked = 1 ∧ priorSacked = 0 ∧ sub32 w.c.sndUna priorUna < w.c.mssCache ∧
    add32 w.rate.priorDelivered 1 = w.c.tx.delivered) && !w.flag.caAlert

/-- The timer and the reordering after the drop (recovery.rs:1685-1702). -/
def cleanDone (w : Clean) (priorFack nowUs : Nat) (rttUpdate : Bool) (sackRtt : Option Nat) :
    TcpConn × Flags :=
  if w.flag.dataAcked then
    let flag := { w.flag with setXmitTimer := true }
    if w.c.isReno then
      (w.c.removeRenoSacks w.pktsAcked,
        if flag.retransDataAcked then { flag with origSackAcked := false } else flag)
    else if seqBefore w.reord priorFack then (w.c.checkSackReordering w.reord, flag)
    else (w.c, flag)
  else
    match w.c.tx.queue, sackRtt with
    | h :: _, some rtt =>
      (w.c, if rttUpdate ∧ nowUs - h.sentUs < rtt then { w.flag with setXmitTimer := true }
        else w.flag)
    | _, _ => (w.c, w.flag)

/-- `tcp_clean_rtx_queue` (recovery.rs:1620): drop what the ACK covers. -/
def cleanRtxQueue (priorFack priorUna : Nat) (st : SackState) (tsecr : Option Nat)
    (tsNowMs now nowUs : Nat) : TcpConn × SackState × Flags :=
  let priorSacked := c.tx.sackedOut
  let w : Clean := ⟨c, st.rate, .none, c.sndNxt, 0, 0, 0⟩
  let w := (Clean.loop tsecr nowUs c.tx.queue.length w).trim
  let timed := decide (w.firstAckt ≠ 0) && !w.flag.retransDataAcked
  let w : Clean :=
    if timed ∧ maybeDelayed w priorSacked priorUna then
      { w with flag := { w.flag with ackMaybeDelayed := true } }
    else w
  let seqRtt := if timed then some (nowUs - w.firstAckt) else none
  let sackRtt := if st.firstSackt ≠ 0 then some (nowUs - st.firstSackt) else none
  let caRtt :=
    if st.firstSackt ≠ 0 then some (nowUs - st.lastSackt)
    else if timed then some (nowUs - w.lastAckt) else none
  let (c, rttUpdate, rsRtt) := w.c.updateRtt w.flag seqRtt sackRtt caRtt tsecr tsNowMs now
  let (c, flag) := cleanDone { w with c } priorFack nowUs rttUpdate sackRtt
  (c.cubicAcked rsRtt now nowUs, { st with rate := w.rate }, flag)

end TcpConn

end NopeekOS.Net.Tcp
