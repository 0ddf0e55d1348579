import NopeekOS.Net.TcpConn

/-!
# CUBIC

The model of cubic.rs and of the window functions it shares with recovery.rs. Numbers wrap as
`u32` where the source's do; where the congestion window or its threshold is an operand, a wrap
is noted in `wrapped`.
-/

namespace NopeekOS.Net.Tcp

open Lib

def BICTCP_BETA_SCALE : Nat := 1024
def BICTCP_HZ : Nat := 10
def HZ : Nat := 100
def HYSTART_MIN_SAMPLES : Nat := 8
def HYSTART_DELAY_MIN : Nat := 4000
def HYSTART_DELAY_MAX : Nat := 16000
def BETA : Nat := 717
def BIC_SCALE : Nat := 41
def HYSTART_LOW_WINDOW : Nat := 16
def HYSTART_ACK_DELTA_US : Nat := 2000
def BETA_SCALE : Nat := 8 * (BICTCP_BETA_SCALE + BETA) / 3 / (BICTCP_BETA_SCALE - BETA)
def CUBE_RTT_SCALE : Nat := BIC_SCALE * 10
def CUBE_FACTOR : Nat := 2 ^ (10 + 3 * BICTCP_HZ) / (BIC_SCALE * 10)

/-- `(a.wrapping_sub(b) as i32) <= n`, for a small `n`. -/
def withinI32 (a b n : Nat) : Bool := decide (2 ^ 31 ≤ sub32 a b ∨ sub32 a b ≤ n)

namespace Cubic

variable (ca : Cubic)

/-- `bictcp_reset` (cubic.rs:49). -/
def reset : Cubic :=
  { Cubic.init with
    sampleCnt := ca.sampleCnt, roundStart := ca.roundStart, endSeq := ca.endSeq
    lastAck := ca.lastAck, currRtt := ca.currRtt }

/-- The table of `cubic_root`. -/
def rootTable : List Nat :=
  [0, 54, 54, 54, 118, 118, 118, 118,
    123, 129, 134, 138, 143, 147, 151, 156,
    157, 161, 164, 168, 170, 173, 176, 179,
    181, 185, 187, 190, 192, 194, 197, 199,
    200, 202, 204, 206, 209, 211, 213, 215,
    217, 219, 221, 222, 224, 225, 227, 229,
    231, 232, 234, 236, 237, 239, 240, 242,
    244, 245, 246, 248, 250, 251, 252, 254]

/-- `cubic_root` (cubic.rs:88): from the table and one Newton–Raphson step. -/
def root (a : Nat) : Nat :=
  -- The number of bits.
  let b := if a = 0 then 0 else Nat.log2 a + 1
  if b < 7 then (rootTable.getD a 0 + 35) / 64
  else
    let b := b * 84 / 256 - 1
    let x := (rootTable.getD (a / 2 ^ (b * 3)) 0 + 10) * 2 ^ b / 64
    let x := (2 * x + a / (x * (x - 1))) % 2 ^ 32
    x * 341 % 2 ^ 32 / 1024

/-- The start of an epoch (cubic.rs:120-131). -/
def startEpoch (cwnd acked now : Nat) : Cubic :=
  if ca.lastMaxCwnd ≤ cwnd then
    { ca with epochStart := now, ackCnt := acked, tcpCwnd := cwnd, bicK := 0, bicOriginPoint := cwnd }
  else
    { ca with
      epochStart := now, ackCnt := acked, tcpCwnd := cwnd
      bicK := root (CUBE_FACTOR * (ca.lastMaxCwnd - cwnd)), bicOriginPoint := ca.lastMaxCwnd }

/-- `c/rtt * (t - K)^3` as a target for the window (cubic.rs:132-145); time in units of
2^-10 s, `u64` as the source. -/
def target (now : Nat) : Nat :=
  let d := sub32 now ca.epochStart
  -- As an `i32`, extended to 64 bits.
  let t := if d < 2 ^ 31 then d else 2 ^ 64 - 2 ^ 32 + d
  let t := (t + (ca.delayMin + 1000000 / HZ - 1) / (1000000 / HZ)) % 2 ^ 64
  let t := t * 2 ^ BICTCP_HZ % 2 ^ 64 / HZ
  let offs := if t < ca.bicK then ca.bicK - t else t - ca.bicK
  let delta := CUBE_RTT_SCALE * offs % 2 ^ 64 * offs % 2 ^ 64 * offs % 2 ^ 64 /
    2 ^ (10 + 3 * BICTCP_HZ) % 2 ^ 32
  if t < ca.bicK then sub32 ca.bicOriginPoint delta else add32 ca.bicOriginPoint delta

/-- The curve's part of `bictcp_update`, at most once per tick (cubic.rs:117-149). -/
def followCurve (cwnd acked now : Nat) : Cubic :=
  if ca.epochStart ≠ 0 ∧ now = ca.lastTime then ca
  else
    let ca := { ca with lastCwnd := cwnd, lastTime := now }
    let ca := if ca.epochStart = 0 then ca.startEpoch cwnd acked now else ca
    let bicTarget := ca.target now
    let cnt := if cwnd < bicTarget then cwnd / (bicTarget - cwnd) else 100 * cwnd % 2 ^ 32
    { ca with cnt := if ca.lastMaxCwnd = 0 ∧ 20 < cnt then 20 else cnt }

/-- The loop of the TCP friendliness: how many packets Reno would have added. -/
def renoLoop (delta : Nat) : Nat → Nat → Nat → Nat × Nat
  | 0, ackCnt, tcpCwnd => (ackCnt, tcpCwnd)
  | fuel + 1, ackCnt, tcpCwnd =>
    if delta ≠ 0 ∧ delta < ackCnt then renoLoop delta fuel (ackCnt - delta) (tcpCwnd + 1)
    else (ackCnt, tcpCwnd)

/-- `bictcp_update` (cubic.rs:111): how many ACKed packets make the window one larger. -/
def update (cwnd acked now : Nat) : Cubic :=
  let ca := { ca with ackCnt := add32 ca.ackCnt acked }
  if ca.lastCwnd = cwnd ∧ withinI32 now ca.lastTime (HZ / 32) then ca
  else
    let ca := ca.followCurve cwnd acked now
    let delta := cwnd * BETA_SCALE % 2 ^ 32 / 8
    let (ackCnt, tcpCwnd) := renoLoop delta ca.ackCnt ca.ackCnt ca.tcpCwnd
    let cnt :=
      if cwnd < tcpCwnd then min ca.cnt (cwnd / (tcpCwnd - cwnd)) else ca.cnt
    { ca with ackCnt, tcpCwnd, cnt := max cnt 2 }

/-- Whether `update` multiplies the window past 2^32. -/
def updateWraps (cwnd : Nat) : Bool :=
  decide (2 ^ 32 ≤ 100 * cwnd) || decide (2 ^ 32 ≤ cwnd * BETA_SCALE)

end Cubic

namespace TcpConn

variable (c : TcpConn)

/-- Notes that an operation on the window wrapped. -/
def noteWrap (w : Bool) : TcpConn := { c with wrapped := c.wrapped || w }

def inCwndReduction : Bool := c.caState = .cwr || c.caState = .recovery

/-- `tcp_current_ssthresh` (recovery.rs:562). -/
def currentSsthresh : Nat :=
  if c.inCwndReduction then c.sndSsthresh
  else max c.sndSsthresh (c.sndCwnd / 2 + c.sndCwnd / 4)

/-- `tcp_is_cwnd_limited` (recovery.rs:532). -/
def isCwndLimited : Bool :=
  c.tx.isCwndLimited ||
    decide (c.sndCwnd < c.sndSsthresh ∧ c.sndCwnd < 2 * c.tx.maxPacketsOut)

/-- `tcp_slow_start` (recovery.rs:539): what is left of `acked` past the threshold. -/
def slowStart (acked : Nat) : Nat × TcpConn :=
  let cwnd := min (add32 c.sndCwnd acked) c.sndSsthresh
  let left := sub32 acked (sub32 cwnd c.sndCwnd)
  (left, { c.noteWrap (decide (2 ^ 32 ≤ c.sndCwnd + acked) || decide (cwnd < c.sndCwnd) ||
      decide (acked < cwnd - c.sndCwnd)) with sndCwnd := cwnd })

/-- `tcp_cong_avoid_ai` (recovery.rs:547): one packet more for `w` packets ACKed. -/
def congAvoidAi (w acked : Nat) : TcpConn :=
  let w := max w 1
  let c :=
    if w ≤ c.sndCwndCnt then
      { c.noteWrap (decide (2 ^ 32 ≤ c.sndCwnd + 1)) with
        sndCwndCnt := 0, sndCwnd := add32 c.sndCwnd 1 }
    else c
  let c := { c with sndCwndCnt := add32 c.sndCwndCnt acked }
  if w ≤ c.sndCwndCnt then
    let delta := c.sndCwndCnt / w
    { c.noteWrap (decide (2 ^ 32 ≤ c.sndCwnd + delta)) with
      sndCwndCnt := c.sndCwndCnt - delta * w, sndCwnd := add32 c.sndCwnd delta }
  else c

/-- `cubictcp_cong_avoid` (cubic.rs:166). -/
def congAvoid (acked now : Nat) : TcpConn :=
  if ¬ c.isCwndLimited then c
  else if c.sndCwnd < c.sndSsthresh ∧ (c.slowStart acked).1 = 0 then (c.slowStart acked).2
  else
    let (acked, c) := if c.sndCwnd < c.sndSsthresh then c.slowStart acked else (acked, c)
    let c := c.noteWrap (Cubic.updateWraps c.sndCwnd)
    let c := { c with tx := { c.tx with cubic := c.tx.cubic.update c.sndCwnd acked (now % 2 ^ 32) } }
    c.congAvoidAi c.tx.cubic.cnt acked

/-- `cubictcp_recalc_ssthresh` (cubic.rs:180): beta 0.7, with fast convergence. -/
def recalcSsthresh : Nat × TcpConn :=
  let cwnd := c.sndCwnd
  let lastMax :=
    if cwnd < c.tx.cubic.lastMaxCwnd then
      cwnd * (BICTCP_BETA_SCALE + BETA) % 2 ^ 32 / (2 * BICTCP_BETA_SCALE)
    else cwnd
  let c := c.noteWrap (decide (cwnd < c.tx.cubic.lastMaxCwnd ∧
    2 ^ 32 ≤ cwnd * (BICTCP_BETA_SCALE + BETA)) || decide (2 ^ 32 ≤ cwnd * BETA))
  (max (cwnd * BETA % 2 ^ 32 / BICTCP_BETA_SCALE) 2,
    { c with tx := { c.tx with cubic := { c.tx.cubic with epochStart := 0, lastMaxCwnd := lastMax } } })

/-- `hystart_reset` (cubic.rs:60). -/
def hystartReset (nowUs : Nat) : TcpConn :=
  { c with tx := { c.tx with cubic := { c.tx.cubic with
      roundStart := nowUs % 2 ^ 32, lastAck := nowUs % 2 ^ 32, endSeq := c.sndNxt
      currRtt := U32_MAX, sampleCnt := 0 } } }

/-- `cubictcp_init` and `cubictcp_state(TCP_CA_Loss)` (cubic.rs:70, 193). -/
def cubicRestart (nowUs : Nat) : TcpConn :=
  { c with tx := { c.tx with cubic := c.tx.cubic.reset } }.hystartReset nowUs

/-- `tx_start` (cubic.rs:77): after an idle stretch the epoch moves on with it. -/
def txStart (now : Nat) : TcpConn :=
  let now := now % 2 ^ 32
  let ca := c.tx.cubic
  let delta := sub32 now (c.tx.lsndtime % 2 ^ 32)
  if ca.epochStart ≠ 0 ∧ 0 < delta ∧ delta < 2 ^ 31 then
    let start := add32 ca.epochStart delta
    { c with tx := { c.tx with cubic := { ca with
        epochStart := if seqAfter start now then now else start } } }
  else c

/-- The ACK train of `hystart_update` (cubic.rs:206-216). -/
def hystartTrain (nowUs : Nat) : TcpConn :=
  let ca := c.tx.cubic
  let now := nowUs % 2 ^ 32
  if withinI32 now ca.lastAck HYSTART_ACK_DELTA_US then
    let c := { c with tx := { c.tx with cubic := { ca with lastAck := now } } }
    if ¬ withinI32 now ca.roundStart (ca.delayMin / 2) then
      { c with
        sndSsthresh := c.sndCwnd
        tx := { c.tx with cubic := { c.tx.cubic with found := true } } }
    else c
  else c

/-- The delay increase of `hystart_update` (cubic.rs:218-226). -/
def hystartDelay (delay : Nat) : TcpConn :=
  let ca := { c.tx.cubic with currRtt := min c.tx.cubic.currRtt delay }
  let limit :=
    add32 ca.delayMin (min (max (ca.delayMin / 8) HYSTART_DELAY_MIN) HYSTART_DELAY_MAX)
  if ca.sampleCnt < HYSTART_MIN_SAMPLES then
    { c with tx := { c.tx with cubic := { ca with sampleCnt := ca.sampleCnt + 1 } } }
  else if limit < ca.currRtt then
    { c with sndSsthresh := c.sndCwnd, tx := { c.tx with cubic := { ca with found := true } } }
  else { c with tx := { c.tx with cubic := ca } }

/-- `hystart_update` (cubic.rs:198). -/
def hystartUpdate (delay nowUs : Nat) : TcpConn :=
  let c := if seqAfter c.sndUna c.tx.cubic.endSeq then c.hystartReset nowUs else c
  if c.sndCwnd < HYSTART_LOW_WINDOW then c else (c.hystartTrain nowUs).hystartDelay delay

/-- `cubictcp_acked` (cubic.rs:230): the RTT of the last packet an ACK delivered. -/
def cubicAcked (rttUs : Option Nat) (now nowUs : Nat) : TcpConn :=
  match rttUs with
  | none => c
  | some rtt =>
    let ca := c.tx.cubic
    let since := sub32 (now % 2 ^ 32) ca.epochStart
    -- Not right after a reduction.
    if ca.epochStart ≠ 0 ∧ (2 ^ 31 ≤ since ∨ since < HZ) then c
    else
      let delay := min (max rtt 1) U32_MAX
      let c :=
        if ca.delayMin = 0 ∨ delay < ca.delayMin then
          { c with tx := { c.tx with cubic := { ca with delayMin := delay } } }
        else c
      if ¬ c.tx.cubic.found ∧ c.sndCwnd < c.sndSsthresh then c.hystartUpdate delay nowUs else c

end TcpConn

end NopeekOS.Net.Tcp
