import NopeekOS.Net.TcpBoardSend

/-!
# Every run keeps the scoreboard, but for the second timeout

An ACK, the timers, the owner and the path MTU keep the counts of the scoreboard. The one way to
lose them is an RTO on a head that was retransmitted and is not marked lost (an undo took the
mark): `enter_loss` leaves its `SACKED_RETRANS`, and `retransmit_skb` counts it a second time.
-/

namespace NopeekOS.Net.Tcp

open Lib TcpConn Work

/-! ## An ACK -/

namespace TcpConn

variable (c : TcpConn)

theorem score_processTlpAck (ack : Nat) (flag : Flags) (now : Nat) :
    (c.processTlpAck ack flag now).score = c.score := by
  unfold processTlpAck
  iterate 4
    split
    · rfl
  split
  · rw [score_tryKeepOpen, score_endCwndReduction]
    exact c.score_initCwndReduction
  · split <;> rfl

theorem score_rackUpdateReoWnd (rs : RateSample) : (c.rackUpdateReoWnd rs).score = c.score := by
  unfold rackUpdateReoWnd
  split
  · rfl
  · rfl

theorem score_replaceTsRecent (seq : Nat) (tsval : Option Nat) (nowS : Nat) :
    (c.replaceTsRecent seq tsval nowS).score = c.score := by
  unfold replaceTsRecent
  split
  · rfl
  · split <;> rfl

theorem score_rateCheckAppLimited : c.rateCheckAppLimited.score = c.score := by
  unfold rateCheckAppLimited
  split <;> rfl

theorem score_ackUpdateWindow (ack ackSeq nwin now : Nat) :
    (c.ackUpdateWindow ack ackSeq nwin now).1.score = c.score := by
  unfold ackUpdateWindow
  split
  · dsimp only
    split
    · exact Eq.trans (score_ite (score_syncMss _)) (score_ite (score_slowStartAfterIdleCheck _ now))
    · rfl
  · rfl

theorem score_slowStart (acked : Nat) : (c.slowStart acked).2.score = c.score := rfl

theorem score_congAvoidAi (w acked : Nat) : (c.congAvoidAi w acked).score = c.score := by
  unfold congAvoidAi
  dsimp only
  split
  · split <;> rfl
  · split <;> rfl

theorem score_congAvoid (acked now : Nat) : (c.congAvoid acked now).score = c.score := by
  unfold congAvoid
  split
  · rfl
  split
  · exact c.score_slowStart acked
  dsimp only
  rw [score_congAvoidAi]
  split
  · exact c.score_slowStart acked
  · rfl

theorem score_congControl (a l : Nat) (flag : Flags) (now : Nat) :
    (c.congControl a l flag now).score = c.score := by
  unfold congControl
  split
  · exact c.score_cwndReduction a l flag
  dsimp only
  generalize (if TCP_REORDERING < c.tx.reordering then flag.dataAcked || flag.dataSacked
    else flag.dataAcked) = mayRaise
  split
  · exact c.score_congAvoid a now
  · rfl

theorem score_rateGen (delivered : Nat) (rs : RateSample) (reneg : Bool) (nowUs : Nat) :
    (c.rateGen delivered rs reneg nowUs).1.score = c.score := by
  unfold rateGen
  dsimp only
  generalize hd : (if c.tx.appLimited ≠ 0 ∧ after c.tx.delivered _ then _ else c : TcpConn) = d
  have hfirst : d.score = c.score := hd ▸ score_ite rfl
  generalize he : (if delivered ≠ 0 then _ else d : TcpConn) = e
  have hsecond : e.score = d.score := he ▸ score_ite rfl
  rw [hfirst] at hsecond
  generalize (if sub32 e.tx.delivered rs.priorDelivered < 2 ^ 31 then _ else _ : Int) = got
  split
  · exact hsecond
  split
  · exact hsecond
  · split
    · exact hsecond
    · exact hsecond

end TcpConn

namespace Work

variable {w : Work}

section

variable (h : w.c.score.Ok) (a : AckSeg) (blocks : List (Nat × Nat))
  (hb : blocks ≠ [] → w.c.r.sackOk = true)

include h a blocks hb

theorem score_ok_oldAck (st : SackState) : (w.oldAck a blocks st).c.score.Ok := by
  unfold oldAck
  split
  · exact h
  rename_i hne
  have hsack := score_ok_sacktagWriteQueue h (hb hne) a.ack blocks w.c.sndUna st w.io.nowUs
  dsimp only
  generalize w.c.sacktagWriteQueue a.ack blocks _ st _ = q at hsack ⊢
  refine score_ok_xmitRecovery ?_ _
  refine score_ok_fastretransAlert ?_ _ _ _ _ _
  exact hsack

theorem score_ok_ackHead (nowS : Nat) (st : SackState) :
    (w.ackHead a blocks nowS st).1.score.Ok := by
  unfold ackHead
  dsimp only
  generalize hd : (if after a.ack w.c.sndUna then _ else w.c : TcpConn) = d
  have hadv : d.score = w.c.score := hd ▸ score_ite rfl
  have hts := (d.score_replaceTsRecent a.ackSeq a.tsval nowS).trans hadv
  generalize d.replaceTsRecent a.ackSeq a.tsval nowS = e at hts ⊢
  have hwin := (e.score_ackUpdateWindow a.ack a.ackSeq a.nwin w.io.now).trans hts
  generalize e.ackUpdateWindow a.ack a.ackSeq a.nwin w.io.now = q at hwin ⊢
  have hq : ({ q.1 with sendBuf := q.1.sendBuf.drop (sub32 a.ack w.c.sndUna) } :
      TcpConn).score.Ok := hwin.symm ▸ h
  have hsk : q.1.r.sackOk = w.c.r.sackOk := congrArg Score.sack hwin
  split
  · exact hq
  · rename_i hne
    exact score_ok_sacktagWriteQueue hq (hsk.trans (hb hne)) _ _ _ _ _

end

theorem score_newSpace (c : TcpConn) (flag : Flags) (now : Nat) :
    (newSpace c flag now).score = c.score := by
  unfold newSpace
  split
  · dsimp only
    split
    · exact score_sndbufExpand _
    · rfl
  · rfl

theorem score_ok_ackAlert {c : TcpConn} (h : c.score.Ok) (flag : Flags) (priorUna now nowUs : Nat) :
    (ackAlert c flag priorUna now nowUs).1.score.Ok := by
  unfold ackAlert
  split
  · exact score_ok_fastretransAlert h _ _ _ _ _
  · exact h

/-- **An ACK keeps the scoreboard**, whatever it acknowledges and with whatever blocks. -/
theorem score_ok_ack (h : w.c.score.Ok) (a : AckSeg) (nowS : Nat) : (w.ack a nowS).c.score.Ok := by
  unfold ack
  dsimp only
  set v := w.on fun c => { c with tx := { c.tx with rcvTsecr := if c.tsOk then a.tsecr else none } }
  have hv : v.c.score.Ok := h
  generalize hbs : (if v.c.r.sackOk then a.sack.take _ else []) = blocks
  have hblocks : blocks ≠ [] → v.c.r.sackOk = true := by
    intro hne
    by_contra hs
    exact hne (hbs ▸ if_neg hs)
  split
  · exact score_ok_oldAck hv a blocks hblocks _
  have hhead := score_ok_ackHead hv a blocks hblocks nowS ⟨.init, .none, v.c.sndNxt, 0, 0, 0⟩
  generalize v.ackHead a blocks nowS ⟨.init, .none, v.c.sndNxt, 0, 0, 0⟩ = q at hhead ⊢
  split
  · rw [score_processTlpAck]
    split
    · exact score_ok_fastretransAlert hhead _ _ _ _ _
    · exact hhead
  · generalize (if v.c.r.sackOk then v.c.highestSackSeq else w.c.sndUna) = fack
    have hclean := score_ok_cleanRtxQueue hhead fack w.c.sndUna q.2.1 a.tsecr
      v.io.tsNowMs w.io.now w.io.nowUs
    generalize q.1.cleanRtxQueue fack _ q.2.1 a.tsecr _ _ _ = p at hclean ⊢
    have halert := score_ok_ackAlert (c := (p.1.rackUpdateReoWnd p.2.1.rate).processTlpAck a.ack
        (q.2.2.union p.2.2) w.io.now)
      (by rw [score_processTlpAck, score_rackUpdateReoWnd]; exact hclean)
      (q.2.2.union p.2.2) w.c.sndUna w.io.now w.io.nowUs
    generalize ackAlert _ (q.2.2.union p.2.2) w.c.sndUna w.io.now w.io.nowUs = r at halert ⊢
    generalize hd : (if r.2.1.setXmitTimer then _ else r.1 : TcpConn) = d
    have htimer : d.score = r.1.score := hd ▸ score_ite (score_setXmitTimer _ _ _)
    show (newSpace _ _ _).score.Ok
    rw [score_newSpace]
    refine score_ok_xmitRecovery ?_ _
    rw [score_congControl, score_rateGen, htimer]
    exact halert

/-! ## The timers -/

theorem score_delackDue (c : TcpConn) (now : Nat) : (c.delackDue now).2.score = c.score := by
  unfold delackDue
  split
  · rfl
  dsimp only
  split
  · rfl
  · split <;> rfl

theorem score_timerDue (c : TcpConn) (now : Nat) : (c.timerDue now).2.score = c.score := by
  unfold timerDue
  split
  · dsimp only
    split
    · rfl
    · exact score_delackDue _ now
  · exact score_delackDue c now

theorem score_tickAck (w : Work) : w.tickAck.1.c.score = w.c.score := by
  have hdue := score_timerDue w.c w.io.now
  unfold tickAck
  generalize w.c.timerDue w.io.now = q at hdue ⊢
  dsimp only
  split
  · exact hdue
  · exact hdue

theorem score_tickSyn (w : Work) : w.tickSyn.1.c.score = w.c.score := by
  unfold tickSyn
  dsimp only
  split
  · split
    · rfl
    · split <;> rfl
  · rfl

/-- **An RTO on a clean head keeps the scoreboard.** -/
theorem score_ok_rtoFires (h : w.c.score.Ok) (hp : w.c.tx.packetsOut ≠ 0) (hc : w.c.HeadClean) :
    w.rtoFires.c.score.Ok := by
  have hlen : w.c.tx.packetsOut = w.c.tx.queue.length := h.packets
  have hq : 0 < w.c.tx.queue.length := by omega
  unfold rtoFires
  dsimp only
  generalize (if ¬ w.c.released = true then _ else _ : Nat) = retryUntil
  split
  · exact h
  have hloss := score_ok_enterLoss h w.io.nowUs
  have hhead := timeoutMarkLost_head hc hq w.io.nowUs
  have hscore := score_enterLoss w.c w.io.nowUs
  have hat : (w.c.enterLoss w.io.nowUs).score.At 0 false := by
    refine ⟨hloss, ?_⟩
    rw [hscore]
    exact hhead
  dsimp only [on]
  generalize w.c.enterLoss w.io.nowUs = d at hat ⊢
  have hsent := score_ok_retransmitSkb (i := 0)
    (w := ⟨{ d with retries := min (d.retries + 1) 255 }, w.io⟩) hat
  generalize retransmitSkb ⟨{ d with retries := min (d.retries + 1) 255 }, w.io⟩ 0 = q at hsent ⊢
  exact hsent

/-- The retransmit timer's slot is an RTO that is due. -/
def RtoDue (w : Work) : Prop :=
  w.c.sends = true ∧ w.c.tx.packetsOut ≠ 0 ∧ w.c.rtxAt ≤ w.io.now ∧ w.c.tx.pending = .retrans

instance (w : Work) : Decidable w.RtoDue := by
  unfold RtoDue
  infer_instance

theorem score_ok_tickRtx (h : w.c.score.Ok) (hc : w.RtoDue → w.c.HeadClean) :
    w.tickRtx.c.score.Ok := by
  unfold tickRtx
  split
  · rename_i hdue
    cases hp : w.c.tx.pending with
    | reo => exact score_ok_rackReoTimeout h
    | lossProbe => exact score_ok_sendLossProbe h
    | retrans => exact score_ok_rtoFires h hdue.2.1 (hc ⟨hdue.1, hdue.2.1, hdue.2.2, hp⟩)
  · exact h

theorem score_tickProbe (w : Work) : w.tickProbe.c.score = w.c.score := by
  unfold tickProbe
  dsimp only
  split
  · split
    · rfl
    · split
      · rfl
      · exact w.recvWindow.2.score_sendAckSeg _ _ _ _ _
  · rfl

theorem score_tickFin (w : Work) : w.tickFin.c.score = w.c.score := by
  unfold tickFin
  split <;> rfl

/-- What `tick` does before it looks at the retransmit timer. -/
def beforeRtx (w : Work) : Work :=
  let w := if w.c.unsent then w.writeXmit else w
  w.tickAck.1.tickSyn.1

theorem score_ok_beforeRtx (h : w.c.score.Ok) : w.beforeRtx.c.score.Ok := by
  have hx : (if w.c.unsent then w.writeXmit else w).c.score.Ok := by
    split
    · exact score_ok_writeXmitOne h 0
    · exact h
  unfold beforeRtx
  rw [score_tickSyn, score_tickAck]
  exact hx

theorem score_ok_tick (h : w.c.score.Ok) (hc : w.beforeRtx.RtoDue → w.beforeRtx.c.HeadClean) :
    w.tick.1.c.score.Ok := by
  have hrtx := score_ok_tickRtx (score_ok_beforeRtx h) hc
  show w.beforeRtx.tickRtx.tickProbe.tickFin.c.score.Ok
  rw [score_tickFin, score_tickProbe]
  exact hrtx

/-! ## The owner and the path -/

theorem score_ok_send (h : w.c.score.Ok) (data : List Byte) (granted : Bool) :
    (w.send data granted).2.c.score.Ok := by
  unfold send
  split
  · exact h
  split
  · exact h
  refine score_ok_writeXmitOne ?_ 0
  generalize hv : (if w.c.sendBuf = [] then _ else w : Work) = v
  have hfresh : v.c.score = w.c.score := by
    rw [← hv]
    split <;> rfl
  show (slowStartAfterIdleCheck (rateCheckAppLimited v.c) _).score.Ok
  rw [score_slowStartAfterIdleCheck, score_rateCheckAppLimited, hfresh]
  exact h

theorem score_ok_close (h : w.c.score.Ok) : w.close.c.score.Ok := by
  have hleave : ∀ next : State,
      (writeXmit ⟨if w.c.sndUna = w.c.sndNxt then
          { w.c with released := true, state := next, finQueued := true
                     lastSendTick := w.io.now, retries := 0, retransStamp := none }
        else { w.c with released := true, state := next, finQueued := true
                        lastSendTick := w.io.now }, w.io⟩).c.score.Ok := by
    intro next
    refine score_ok_writeXmitOne ?_ 0
    split
    · exact h
    · exact h
  unfold close
  split
  · exact hleave .finWait1
  · exact hleave .finWait1
  · exact hleave .lastAck
  · exact h

theorem score_ok_fragNeeded (h : w.c.score.Ok) (mtu : Nat) : (w.fragNeeded mtu).c.score.Ok := by
  unfold fragNeeded
  split
  · exact h
  split
  · refine score_ok_simpleRetransmit ?_
    show (syncMss _).score.Ok
    rw [score_syncMss]
    exact h
  · exact h

end Work

/-! ## Runs -/

/-- What happens to a connection. Each event comes with the machine it meets. -/
inductive Event where
  | send (io : Io) (data : List Byte) (granted : Bool)
  | close (io : Io)
  | ack (io : Io) (a : AckSeg) (nowS : Nat)
  | xmit (io : Io)
  | tick (io : Io)
  | fragNeeded (io : Io) (mtu : Nat)
  /-- The handshake, which settles the use of SACK (tcp.rs:1856, 1898). -/
  | handshake (c : TcpConn)
  /-- Anything that is not about what was sent: data received, options, states. -/
  | other (c : TcpConn)

/-- Nothing was sent yet. -/
def Score.Fresh (b : Score) : Prop := b = ⟨b.sack, [], 0, 0, 0, 0, false⟩

/-- One event. -/
inductive EventStep : TcpConn → Event → TcpConn → Prop where
  | send (c : TcpConn) (io : Io) (data : List Byte) (granted : Bool) :
      EventStep c (.send io data granted) (send ⟨c, io⟩ data granted).2.c
  | close (c : TcpConn) (io : Io) : EventStep c (.close io) (close ⟨c, io⟩).c
  | ack (c : TcpConn) (io : Io) (a : AckSeg) (nowS : Nat) :
      EventStep c (.ack io a nowS) (ack ⟨c, io⟩ a nowS).c
  | xmit (c : TcpConn) (io : Io) : EventStep c (.xmit io) (writeXmit ⟨c, io⟩).c
  | tick (c : TcpConn) (io : Io) : EventStep c (.tick io) (tick ⟨c, io⟩).1.c
  | fragNeeded (c : TcpConn) (io : Io) (mtu : Nat) :
      EventStep c (.fragNeeded io mtu) (fragNeeded ⟨c, io⟩ mtu).c
  | handshake {c d : TcpConn} (hc : c.score.Fresh) (hd : d.score.Fresh) :
      EventStep c (.handshake d) d
  | other {c d : TcpConn} (h : d.score = c.score) : EventStep c (.other d) d

/-- When a tick finds the RTO due, the head was not retransmitted without being marked lost. -/
def EventClean (c : TcpConn) : Event → Prop
  | .tick io => (beforeRtx ⟨c, io⟩).RtoDue → (beforeRtx ⟨c, io⟩).c.HeadClean
  | _ => True

/-- The step relation of the runs in which every RTO finds a clean head. -/
def CleanStep (c : TcpConn) (e : Event) (d : TcpConn) : Prop := EventStep c e d ∧ EventClean c e

theorem Score.Fresh.ok {b : Score} (h : b.Fresh) : b.Ok := by
  rw [h]
  exact ⟨rfl, rfl, rfl, fun _ => rfl, fun _ => rfl, rfl⟩

theorem CleanStep.score_ok {c d : TcpConn} {e : Event} (h : c.score.Ok) (hs : CleanStep c e d) :
    d.score.Ok := by
  obtain ⟨hstep, hclean⟩ := hs
  cases hstep with
  | send io data granted => exact score_ok_send (w := ⟨c, io⟩) h data granted
  | close io => exact score_ok_close (w := ⟨c, io⟩) h
  | ack io a nowS => exact score_ok_ack (w := ⟨c, io⟩) h a nowS
  | xmit io => exact score_ok_writeXmitOne (w := ⟨c, io⟩) h 0
  | tick io => exact score_ok_tick (w := ⟨c, io⟩) h hclean
  | fragNeeded io mtu => exact score_ok_fragNeeded (w := ⟨c, io⟩) h mtu
  | handshake hc hd => exact hd.ok
  | other he => exact he.symm ▸ h

/-- **The scoreboard over every run**: from a connection that sent nothing yet, as long as every
RTO finds a clean head, the counters are the numbers of tagged segments, no count goes below
zero, and an empty queue has nothing in flight. -/
theorem scoreboard_of_clean_rtos {c d : TcpConn} {es : List Event} (hc : c.score.Fresh)
    (hrun : Run CleanStep c es d) :
    d.score.Ok ∧ (d.tx.queue = [] → d.tx.inFlight = 0) := by
  have hok : d.score.Ok :=
    hrun.invariant (I := fun c => c.score.Ok) (fun _ _ _ h hs => hs.score_ok h) hc.ok
  exact ⟨hok, hok.inFlight⟩

/-! A connection that has just been opened, with timestamps and without SACK. -/

def openedConn : TcpConn :=
  { blank .established 40000 KERNEL with
    sndIss := 1000, sndUna := 1001, sndNxt := 1001, sndWnd := 65535, maxWindow := 65535
    tsOk := true, established := true, localIp := 1 }

/-- The machine at tick `t`; the driver takes every segment. -/
def ioAt (t : Nat) : Io := ⟨t, t * TICK_US, 0, 1, fun _ => true, 0, []⟩

/-- An ACK up to `ack` that echoes the timestamp `tsecr`. -/
def echoAck (ack tsecr : Nat) : AckSeg := ⟨ack, 0, 65535, false, some 5, some tsecr, []⟩

def sentConn : TcpConn := (send ⟨openedConn, ioAt 1000⟩ (List.replicate 100 0) true).2.c

def timedOutConn : TcpConn := (tick ⟨sentConn, ioAt 1100⟩).1.c

/-- One hundred bytes, an RTO, and the ACK of the retransmission. -/
theorem scoreboard_of_one_rto : (ack ⟨timedOutConn, ioAt 1110⟩ (echoAck 1101 11000) 11).c.score.Ok ∧
      ((ack ⟨timedOutConn, ioAt 1110⟩ (echoAck 1101 11000) 11).c.tx.queue = [] →
        (ack ⟨timedOutConn, ioAt 1110⟩ (echoAck 1101 11000) 11).c.tx.inFlight = 0) :=
  scoreboard_of_clean_rtos (c := openedConn) rfl
    (.cons ⟨.send openedConn (ioAt 1000) (List.replicate 100 0) true, trivial⟩
      (.cons ⟨.tick sentConn (ioAt 1100), by unfold EventClean; decide +kernel⟩
        (.cons ⟨.ack timedOutConn (ioAt 1110) (echoAck 1101 11000) 11, trivial⟩ (.nil _))))

/-! The same, but half of the data was only late: its ACK echoes the first transmission. The undo
clears `LOST` of the rest and leaves `SACKED_RETRANS`, and the rest times out again. -/

def undoneConn : TcpConn := (ack ⟨timedOutConn, ioAt 1110⟩ (echoAck 1051 10000) 11).c

def twiceTimedOutConn : TcpConn := (tick ⟨undoneConn, ioAt 1300⟩).1.c

def emptiedConn : TcpConn := (ack ⟨twiceTimedOutConn, ioAt 1310⟩ (echoAck 1101 13000) 13).c

/-- One segment is queued and counted twice in `retrans_out`; when it is acknowledged one count
stays, with nothing in the queue. -/
theorem scoreboard_lost_by_second_rto : openedConn.score.Fresh ∧ Run EventStep openedConn
      [.send (ioAt 1000) (List.replicate 100 0) true, .tick (ioAt 1100),
        .ack (ioAt 1110) (echoAck 1051 10000) 11, .tick (ioAt 1300)] twiceTimedOutConn ∧
    twiceTimedOutConn.tx.retransOut = 2 ∧ twiceTimedOutConn.tx.queue.length = 1 ∧
    EventStep twiceTimedOutConn (.ack (ioAt 1310) (echoAck 1101 13000) 13) emptiedConn ∧
    emptiedConn.tx.queue.length = 0 ∧ emptiedConn.tx.inFlight = 1 :=
  ⟨rfl,
    .cons (.send openedConn (ioAt 1000) (List.replicate 100 0) true)
      (.cons (.tick sentConn (ioAt 1100))
        (.cons (.ack timedOutConn (ioAt 1110) (echoAck 1051 10000) 11)
          (.cons (.tick undoneConn (ioAt 1300)) (.nil _)))),
    by decide +kernel, by decide +kernel,
    .ack twiceTimedOutConn (ioAt 1310) (echoAck 1101 13000) 13,
    by decide +kernel, by decide +kernel⟩

end NopeekOS.Net.Tcp
