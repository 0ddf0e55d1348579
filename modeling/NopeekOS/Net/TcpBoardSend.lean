import NopeekOS.Net.TcpBoardLoss

/-!
# The scoreboard under what is sent

New data, the retransmissions, and the ACK and the timers over them. `retransmit_skb` adds to
`retrans_out` without asking whether the segment carries `SACKED_RETRANS` already
(recovery.rs:1330); the walk of the retransmit queue asks before, the RTO does not.
-/

namespace NopeekOS.Net.Tcp

open Lib TcpConn List

namespace Work

variable {w : Work}

/-! ## New data -/

theorem score_ok_sentNew (h : w.c.score.Ok) (seq : Nat) : (w.sentNew seq).c.score.Ok :=
  score_ok_newDataSent h seq _ _ _ _

theorem score_ok_xmitFin (h : w.c.score.Ok) (win : Nat) : (w.xmitFin win).2.c.score.Ok := by
  have hs := w.score_sendAckSeg w.c.sndNxt true false win []
  rw [xmitFin]
  dsimp only
  generalize w.sendAckSeg w.c.sndNxt true false win [] = r at hs ⊢
  have hr : r.2.c.score.Ok := hs ▸ h
  split
  · refine score_ok_sentNew ?_ _
    exact hr
  · exact hr

theorem score_ok_xmitData (h : w.c.score.Ok) (sent n win : Nat) :
    (w.xmitData sent n win).2.c.score.Ok := by
  have hd : (w.on (·.eventDataSent w.io.now)).c.score = w.c.score :=
    w.c.score_eventDataSent w.io.now
  rw [xmitData]
  dsimp only
  generalize w.on (·.eventDataSent w.io.now) = v at hd ⊢
  have hs := v.score_sendAckSeg w.c.sndNxt (v.c.finQueued && sent + n == v.c.sendBuf.length) true
    win ((w.c.sendBuf.drop sent).take n)
  generalize v.sendAckSeg _ _ true win _ = r at hs ⊢
  have hr : r.2.c.score.Ok := hs ▸ hd ▸ h
  split
  · refine score_ok_sentNew ?_ _
    exact hr
  · exact hr

/-- The loop, by the segments it sends. -/
theorem score_ok_xmitLoop (mss pushOne fuel : Nat) (x : Xmit) (h : x.w.c.score.Ok) :
    (xmitLoop mss pushOne fuel x).w.c.score.Ok := by
  induction fuel generalizing x with
  | zero => exact h
  | succ fuel ih =>
    have hwin : x.w.recvWindow.2.c.score.Ok := h
    rw [xmitLoop]
    dsimp only
    generalize x.w.recvWindow = r at hwin ⊢
    split
    · exact h
    split
    · exact h
    split
    · -- The window is full.
      split <;> exact hwin
    generalize hq : (if x.w.c.sendBuf.length ≤ x.w.c.sent then _ else _ : Bool × Work) = q
    have hsent : q.2.c.score.Ok := by
      rw [← hq]
      split
      · exact score_ok_xmitFin hwin _
      · exact score_ok_xmitData hwin _ _ _
    split
    · exact hsent
    · exact ih _ hsent

theorem score_ok_writeXmitOne (h : w.c.score.Ok) (pushOne : Nat) :
    (w.writeXmitOne pushOne).c.score.Ok := by
  have hl := score_ok_xmitLoop (min w.c.mssCache CHUNK) pushOne (w.c.sendBuf.length + 2)
    ⟨w, 0, false⟩ h
  rw [writeXmitOne]
  dsimp only [on]
  rw [score_xmitScheduled, score_xmitDone]
  exact hl

end Work

/-! ## Retransmission -/

/-- What a retransmission needs of segment `i`: that it is there, and whether it carries
`SACKED_RETRANS`. -/
structure Score.At (b : Score) (i : Nat) (r : Bool) : Prop where
  ok : b.Ok
  tag : b.queue[i]?.map (·.sacked.retrans) = some r

namespace Score.At

variable {b : Score} {i : Nat} {r : Bool}

theorem of_lt (h : b.Ok) (hi : i < b.queue.length) : b.At i b.queue[i].sacked.retrans :=
  ⟨h, by simp [hi]⟩

theorem bound (h : b.At i r) : i < b.queue.length := by
  by_contra hi
  have := h.tag
  simp [getElem?_eq_none (Nat.le_of_not_lt hi)] at this

theorem retrans_eq (h : b.At i r) (hi : i < b.queue.length) : b.queue[i].sacked.retrans = r := by
  simpa [hi] using h.tag

/-- The segment is written anew with the tags that count. -/
theorem rewrite (h : b.At i r) (hi : i < b.queue.length) {s : TxSeg}
    (hl : s.sacked.lost = b.queue[i].sacked.lost)
    (hr : s.sacked.retrans = b.queue[i].sacked.retrans)
    (ha : s.sacked.acked = b.queue[i].sacked.acked) :
    ({ b with queue := b.queue.set i s } : Score).At i r := by
  refine ⟨?_, ?_⟩
  · refine h.ok.retag hi (by rw [hl]) (by rw [hr]) (fun _ => by rw [ha]) (fun hk => ?_)
      h.ok.noUnder
    rw [ha]
    exact Bool.eq_false_iff.mpr fun hg => tagged_ne_zero (·.acked) b.queue hi hg (h.ok.reno hk)
  · simp [hi, hr, h.retrans_eq hi]

theorem setSeg {t : Tx} {sack : Bool} (h : (t.score sack).At i r) {s : TxSeg}
    (hl : s.sacked.lost = (t.seg i).sacked.lost) (hr : s.sacked.retrans = (t.seg i).sacked.retrans)
    (ha : s.sacked.acked = (t.seg i).sacked.acked) : ((t.setSeg i s).score sack).At i r := by
  have hb : i < t.queue.length := h.bound
  rw [Tx.seg_eq hb] at hl hr ha
  exact h.rewrite hb hl hr ha

/-- The stamps a segment takes along do not count. -/
theorem rateSkbSent {t : Tx} {sack : Bool} (h : (t.score sack).At i r) (n : Nat) :
    ((t.rateSkbSent i n).score sack).At i r := by
  simp only [Tx.rateSkbSent]
  split
  all_goals
    refine Score.At.setSeg ?_ rfl rfl rfl
    exact h

end Score.At

namespace TcpConn

variable {c : TcpConn}

/-- The counters a joined segment with tag `g` takes with it. -/
theorem score_joined (t : Tx) (g : Tag) (sack : Bool) (hu : t.under = false)
    (hp : t.packetsOut ≠ 0) (hl : g.lost = true → t.lostOut ≠ 0)
    (hr : g.retrans = true → t.retransOut ≠ 0) :
    (if g.lost then (if g.retrans then t.decPackets.decRetrans else t.decPackets).decLost
      else (if g.retrans then t.decPackets.decRetrans else t.decPackets)).score sack =
      ⟨sack, t.queue, t.packetsOut - 1, t.sackedOut, t.lostOut - g.lost.toNat,
        t.retransOut - g.retrans.toNat, t.under⟩ := by
  cases hgl : g.lost <;> cases hgr : g.retrans <;>
    simp_all [Tx.score, Tx.decPackets, Tx.decRetrans, Tx.decLost]

/-- A join takes the next segment out and leaves the tags that count. -/
theorem score_at_collapseLoop {i : Nat} {r sack : Bool} (wndEnd fuel : Nat) (space : Int) (t : Tx)
    (h : (t.score sack).At i r) :
    ((collapseLoop i wndEnd fuel space t).score sack).At i r := by
  induction fuel generalizing space t with
  | zero => exact h
  | succ fuel ih =>
    rw [collapseLoop]
    split
    · exact h
    rename_i hlen
    have hn : i + 1 < t.queue.length := by omega
    dsimp only
    split
    · exact h
    rename_i hstop
    apply ih
    have hb : i < t.queue.length := h.bound
    have hack : t.queue[i + 1].sacked.acked = false := by
      simp only [not_or, Tx.seg_eq hn, Bool.not_eq_true] at hstop
      exact hstop.1
    have hrem : Score.At _ i r := ⟨h.ok.remove (i := i + 1) hn, by
      simpa [getElem?_eraseIdx] using h.tag⟩
    have hu : t.under = false := h.ok.noUnder
    have hp : t.packetsOut ≠ 0 := by
      have : t.packetsOut = t.queue.length := h.ok.packets
      omega
    have hl : t.queue[i + 1].sacked.lost = true → t.lostOut ≠ 0 := fun hg =>
      h.ok.lost_ne_zero hn hg
    have hr : t.queue[i + 1].sacked.retrans = true → t.retransOut ≠ 0 := fun hg =>
      h.ok.retrans_ne_zero hn hg
    have hpre : (t.queue.eraseIdx (i + 1))[i]? = t.queue[i]? :=
      getElem?_eraseIdx_of_lt (Nat.lt_succ_self i)
    have hbe : i < (t.queue.eraseIdx (i + 1)).length := hrem.bound
    have hpre : (t.queue.eraseIdx (i + 1))[i] = t.queue[i] := by
      simpa [hb, hbe] using hpre
    have hrem : Score.At ⟨sack, t.queue.eraseIdx (i + 1), t.packetsOut - 1, t.sackedOut,
        t.lostOut - t.queue[i + 1].sacked.lost.toNat,
        t.retransOut - t.queue[i + 1].sacked.retrans.toNat, t.under⟩ i r := by
      simpa [Tx.score, hack] using hrem
    rw [Tx.seg_eq hn, Tx.seg_eq hb, score_joined]
    · refine hrem.rewrite hbe ?_ ?_ ?_
      all_goals simp only [hpre]
    · exact hu
    · exact hp
    · exact hl
    · exact hr

/-- Cutting the segment to what goes out, or joining the next ones. -/
theorem score_at_fitSeg {i : Nat} {r : Bool} (h : c.score.At i r) (avail curMss : Nat) :
    (Work.fitSeg c i avail curMss).score.At i r := by
  have hb : i < c.tx.queue.length := h.bound
  rw [Work.fitSeg]
  generalize (if avail < curMss then _ else curMss : Nat) = len
  split
  · refine ⟨h.ok.fragment hb len, ?_⟩
    have htag : c.tx.queue[i].sacked.retrans = r := h.retrans_eq hb
    have htake : (c.tx.queue.take i).length = i := by simp; omega
    simp only [score, Tx.score, Tx.fragment, Tx.seg_eq hb]
    rw [getElem?_append_right htake.le, htake, Nat.sub_self]
    simp [htag]
  · split
    · exact score_at_collapseLoop _ _ _ _ h
    · exact h

end TcpConn

namespace Work

variable {w : Work} {i : Nat}

/-- A send writes time stamps and `EVER_RETRANS` into the segment. -/
theorem score_at_resend {r : Bool} (h : w.c.score.At i r) (seq : Nat) :
    (w.resend i seq).2.c.score.At i r := by
  rw [resend]
  dsimp only
  generalize hv : (if 0 < (w.c.tx.seg i).len then _ else w.recvWindow.2 : Work) = v
  have hdata : v.c.score = w.c.score := by
    rw [← hv]
    split
    · exact (w.recvWindow.2.c.score_eventDataSent _).trans rfl
    · rfl
  generalize hsent : v.sendAckSeg seq (w.c.tx.seg i).fin _ _ _ = q
  have hsend : q.2.c.score = v.c.score := hsent ▸ v.score_sendAckSeg seq _ _ _ _
  have hq : q.2.c.score.At i r := by
    rw [hsend, hdata]
    exact h
  refine Score.At.setSeg ?_ rfl rfl rfl
  split
  · have hnow := hq.setSeg (s := { q.2.c.tx.seg i with sentUs := q.2.io.nowUs }) rfl rfl rfl
    exact hnow.rateSkbSent _
  · exact hq

theorem score_at_retransmitSkbRaw {r : Bool} (h : w.c.score.At i r) :
    (w.retransmitSkbRaw i).2.c.score.At i r := by
  simp only [retransmitSkbRaw]
  split
  · exact h
  · exact score_at_resend (score_at_fitSeg h _ _) _

/-- **A retransmission of a segment without `SACKED_RETRANS` keeps the counts.** -/
theorem score_ok_retransmitSkb (h : w.c.score.At i false) : (w.retransmitSkb i).2.c.score.Ok := by
  have hraw := score_at_retransmitSkbRaw h
  unfold retransmitSkb
  generalize w.retransmitSkbRaw i = q at hraw ⊢
  have hb : i < q.2.c.tx.queue.length := hraw.bound
  have hsent : (if q.1 then
      { q.2.c with tx := { q.2.c.tx.setTag i { (q.2.c.tx.seg i).sacked with
          retrans := true, ever := true } with
        retransOut := q.2.c.tx.retransOut + 1 } } else q.2.c : TcpConn).score.Ok := by
    split
    · have := hraw.ok.retransmitted hb (hraw.retrans_eq hb)
      simpa only [score, Tx.score, Tx.setTag, Tx.setSeg, Tx.seg_eq hb] using this
    · exact hraw.ok
  exact score_ok_ite hsent rfl

/-- The walk of the retransmit queue passes over what carries `SACKED_RETRANS`. -/
theorem score_ok_retransLoop (fuel i : Nat) (w : Work) (rearm : Bool) (h : w.c.score.Ok) :
    (retransLoop fuel i w rearm).1.c.score.Ok := by
  induction fuel generalizing i w rearm with
  | zero => exact h
  | succ fuel ih =>
    rw [retransLoop]
    split
    · exact h
    rename_i hstop
    have hi : i < w.c.tx.queue.length := by omega
    dsimp only
    split
    · exact ih _ _ _ h
    rename_i hskip
    have htag : w.c.tx.queue[i].sacked.retrans = false := by
      simp only [Tx.seg_eq hi, not_or, Bool.not_eq_true] at hskip
      exact hskip.2.2
    have hsent := score_ok_retransmitSkb (htag ▸ Score.At.of_lt h hi)
    generalize w.retransmitSkb i = q at hsent ⊢
    split
    · exact hsent
    · refine ih _ _ _ ?_
      exact score_ok_ite hsent rfl

theorem score_ok_xmitRetransmitQueue (h : w.c.score.Ok) : w.xmitRetransmitQueue.c.score.Ok := by
  rw [xmitRetransmitQueue]
  split
  · exact h
  dsimp only
  have hl := score_ok_retransLoop ((w.c.tx.queue.map fun s => s.space + 1).sum) 0 w false h
  generalize retransLoop _ 0 w false = q at hl ⊢
  split
  · exact (score_resetXmitTimer _ _ _ _).symm ▸ hl
  · exact hl

/-! ## The timers of the slot -/

/-- A loss probe repeats the last segment without counting it. -/
theorem score_ok_sendLossProbe (h : w.c.score.Ok) : w.sendLossProbe.c.score.Ok := by
  have hrearm : ∀ v : Work, v.c.score.Ok → (v.on (·.rearmRto v.io.now v.io.nowUs)).c.score.Ok := by
    intro v hv
    exact (score_rearmRto _ _ _).symm ▸ hv
  unfold sendLossProbe
  refine hrearm _ ?_
  split
  · dsimp only
    generalize hv : w.on (fun c => { c with tx := { c.tx with tlpRetrans := false } }) = v
    have hok : v.c.score.Ok := hv ▸ h
    generalize hq : (if 0 < v.c.sendBuf.length - v.c.sent ∧ (_ : Nat) ≤ v.c.sndWnd then _
      else _ : Bool × Work) = q
    have hpair : q.2.c.score.Ok := by
      rw [← hq]
      split
      · exact score_ok_writeXmitOne hok 2
      split
      · exact hok
      rename_i hne
      have hlast : v.c.tx.queue.length - 1 < v.c.tx.queue.length := by
        have := length_pos_iff.mpr (isEmpty_eq_false_iff.mp (by simpa using hne))
        omega
      have hraw := (score_at_retransmitSkbRaw (Score.At.of_lt hok hlast)).ok
      generalize v.retransmitSkbRaw (v.c.tx.queue.length - 1) = q at hraw ⊢
      split
      · exact hraw
      · exact hraw
    split
    · exact hpair
    · exact hpair
  · exact h

theorem score_ok_rackReoTimeout (h : w.c.score.Ok) : w.rackReoTimeout.c.score.Ok := by
  have hd := score_ok_rackDetectLoss h w.io.nowUs
  have hrearm : ∀ v : Work, v.c.score.Ok →
      (if v.c.tx.pending ≠ .retrans then v.on (·.rearmRto v.io.now v.io.nowUs)
        else v).c.score.Ok := by
    intro v hv
    split
    · exact (score_rearmRto _ _ _).symm ▸ hv
    · exact hv
  unfold rackReoTimeout
  refine hrearm _ ?_
  split
  · refine score_ok_xmitRetransmitQueue ?_
    split
    · exact (congrArg Score.Ok
        ((score_cwndReduction _ _ _ _).trans (score_enterRecovery _))).mpr hd
    · exact hd
  · exact hd

theorem score_ok_simpleRetransmit (h : w.c.score.Ok) : w.simpleRetransmit.c.score.Ok := by
  -- The segments that are too long for the new MSS.
  have hmark : (foldl (markTooLong w.c.mssCache) w.c (range w.c.tx.queue.length)).score.Ok := by
    refine score_ok_markWalk id (fun d i => ?_) w.c h
    simp only [markTooLong, id]
    split <;> simp
  unfold simpleRetransmit
  dsimp only [on]
  generalize foldl (markTooLong w.c.mssCache) w.c _ = d at hmark ⊢
  split
  · exact hmark
  refine score_ok_xmitRetransmitQueue ?_
  generalize hv : (if d.isReno then _ else _ : Work) = v
  have hreno : v.c.score.Ok := by
    rw [← hv]
    split
    · rename_i hr
      rw [limitRenoSacked]
      split
      · exact score_ok_reno hmark hr _
      · exact hmark
    · exact hmark
  split
  · exact hreno
  · exact hreno

theorem score_ok_xmitRecovery (h : w.c.score.Ok) (rexmit : Rexmit) :
    (w.xmitRecovery rexmit).c.score.Ok := by
  cases rexmit with
  | none => exact h
  | lost => exact score_ok_xmitRetransmitQueue h
  | new =>
    have hx : w.writeXmit.c.score.Ok := score_ok_writeXmitOne h 0
    simp only [xmitRecovery]
    split
    · exact hx
    · refine score_ok_xmitRetransmitQueue ?_
      exact hx

end Work

end NopeekOS.Net.Tcp
