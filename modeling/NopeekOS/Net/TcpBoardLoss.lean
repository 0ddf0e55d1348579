import NopeekOS.Net.TcpBoardSack

/-!
# The scoreboard at a timeout

`enter_loss` keeps the counts, whether the receiver reneged or not. It clears `SACKED_RETRANS`
only of a segment that was marked lost before, so what it leaves on the head depends on the head
it found (`HeadClean`). After it the frames of the functions that send.
-/

namespace NopeekOS.Net.Tcp

open Lib List Tx

/-! ## The RTO -/

namespace Tx

variable {t : Tx} {i j : Nat}

/-- Marking segment `i` leaves the others alone. -/
theorem markSkbLost_getElem_ne (hij : i ≠ j) : (t.markSkbLost i).queue[j]? = t.queue[j]? := by
  simp only [markSkbLost]
  repeat' split
  all_goals simp [decRetrans, setTag, setSeg, getElem?_set_ne hij]

/-- A segment marked lost that had not been lost before, or had, and is not SACKed: it carries
`SACKED_RETRANS` afterwards only if it was not marked lost before. -/
theorem markSkbLost_retrans (hi : i < t.queue.length) (ha : t.queue[i].sacked.acked = false)
    (hg : t.queue[i].sacked.retrans = true → t.queue[i].sacked.lost = true) :
    ((t.markSkbLost i).queue[i]?.map (·.sacked.retrans)) = some false := by
  simp only [markSkbLost, seg_eq hi, ha, Bool.false_eq_true, if_false]
  split
  · split
    · simp [decRetrans, setTag, setSeg, hi]
    · rename_i hr
      simpa [hi] using hr
  · rename_i hl
    have hr : t.queue[i].sacked.retrans = false := by
      cases h : t.queue[i].sacked.retrans with
      | false => rfl
      | true => exact absurd (hg h) hl
    simp [setTag, setSeg, hi, hr, seg_eq hi]

/-- Marking changes no `SACKED_ACKED`. -/
theorem markSkbLost_acked (t : Tx) (i j : Nat) :
    (t.markSkbLost i).queue[j]?.map (·.sacked.acked) = t.queue[j]?.map (·.sacked.acked) := by
  by_cases hij : i = j
  · subst hij
    by_cases hi : i < t.queue.length
    · simp only [markSkbLost, seg_eq hi]
      repeat' split
      all_goals simp [decRetrans, setTag, setSeg, seg_eq hi, hi]
    · have hn : t.queue[i]? = none := by simpa using hi
      have hm : (t.markSkbLost i).queue[i]? = none := by
        rw [getElem?_eq_none_iff, TcpConn.length_markSkbLost]
        omega
      rw [hn, hm]
  · rw [markSkbLost_getElem_ne hij]

/-- `markSkbLost` does not look at `sacked_out`. -/
theorem markSkbLost_sackedOut (t : Tx) (i n : Nat) :
    ({ t with sackedOut := n } : Tx).markSkbLost i = { t.markSkbLost i with sackedOut := n } := by
  have hseg : ({ t with sackedOut := n } : Tx).seg i = t.seg i := rfl
  simp only [markSkbLost, hseg]
  repeat' split
  all_goals rfl

end Tx

namespace TcpConn

variable {c : TcpConn}

/-- What the marking of a timeout keeps while the SACKs of a receiver that reneged are
forgotten: the first `k` segments carry no `SACKED_ACKED` any more. -/
structure Forgetting (n k : Nat) (c : TcpConn) : Prop where
  length : c.tx.queue.length = n
  packets : c.tx.packetsOut = n
  lost : c.tx.lostOut = tagged (·.lost) c.tx.queue
  retrans : c.tx.retransOut = tagged (·.retrans) c.tx.queue
  none : c.tx.sackedOut = 0
  clear : ∀ i < k, c.tx.queue[i]?.map (·.sacked.acked) = some false
  noUnder : c.tx.under = false

/-- All are forgotten: the counts agree again. -/
theorem Forgetting.score_ok {n : Nat} (h : Forgetting n n c) : c.score.Ok := by
  have hz : tagged (·.acked) c.tx.queue = 0 := by
    rw [tagged, countP_eq_zero]
    intro s hs
    obtain ⟨i, hi, rfl⟩ := getElem_of_mem hs
    have := h.clear i (h.length ▸ hi)
    simpa [hi] using this
  exact ⟨h.packets.trans h.length.symm, h.lost, h.retrans, fun _ => h.none.trans hz.symm,
    fun _ => hz, h.noUnder⟩

/-- The next segment is forgotten and marked. -/
theorem Forgetting.step {n k : Nat} (h : Forgetting n k c) (hk : k < n) (nowUs : Nat) :
    Forgetting n (k + 1) (timeoutMarkOne true nowUs c k) := by
  have hi : k < c.tx.queue.length := h.length ▸ hk
  have hlost := tagged_retag (·.lost) c.tx.queue hi
    { c.tx.queue[k] with sacked := { c.tx.queue[k].sacked with acked := false } }
  have hretr := tagged_retag (·.retrans) c.tx.queue hi
    { c.tx.queue[k] with sacked := { c.tx.queue[k].sacked with acked := false } }
  simp only [timeoutMarkOne, if_true, seg_eq hi]
  -- The tag without `SACKED_ACKED`, then the mark.
  set t := c.tx.setTag k { c.tx.queue[k].sacked with acked := false } with ht
  have htq : t.queue = c.tx.queue.set k
      { c.tx.queue[k] with sacked := { c.tx.queue[k].sacked with acked := false } } := by
    simp [ht, setTag, setSeg, seg_eq hi]
  have htlen : t.queue.length = n := by simp [htq, h.length]
  -- With the SACKs it has, `t` is a scoreboard.
  have hok : (({ t with sackedOut := tagged (·.acked) t.queue } : Tx).score true).Ok := by
    refine ⟨?_, ?_, ?_, fun _ => rfl, fun hs => by simp [Tx.score] at hs, h.noUnder⟩
    · exact h.packets.trans htlen.symm
    · show c.tx.lostOut = tagged (·.lost) t.queue
      rw [htq, h.lost]
      exact (Nat.add_right_cancel hlost).symm
    · show c.tx.retransOut = tagged (·.retrans) t.queue
      rw [htq, h.retrans]
      exact (Nat.add_right_cancel hretr).symm
  have hmark := hok.markSkbLost (i := k) (by simpa [htlen] using hk)
  rw [markSkbLost_sackedOut] at hmark
  refine ⟨?_, ?_, hmark.lost, hmark.retrans, ?_, ?_, hmark.noUnder⟩
  · rw [length_markSkbLost, htlen]
  · have hp := hmark.packets
    simp only [Tx.score, length_markSkbLost, htlen] at hp
    exact hp
  · have hs : (t.markSkbLost k).sackedOut = t.sackedOut := by
      simp only [markSkbLost]
      repeat' split
      all_goals rfl
    exact hs.trans h.none
  · intro i hik
    rw [markSkbLost_acked, htq]
    by_cases hne : i = k
    · subst hne
      simp [hi]
    · rw [getElem?_set_ne (fun e => hne e.symm)]
      exact h.clear i (by omega)

/-- The marking of a timeout after a renege, over the first `k` segments. -/
theorem Forgetting.run {n : Nat} (nowUs : Nat) (h : Forgetting n 0 c) (k : Nat) (hk : k ≤ n) :
    Forgetting n k ((List.range k).foldl (timeoutMarkOne true nowUs) c) := by
  induction k with
  | zero => exact h
  | succ k ih =>
    rw [range_succ, foldl_append]
    exact (ih (by omega)).step (by omega) nowUs

/-- The marking of a timeout without a renege. -/
theorem score_ok_timeoutWalk (nowUs : Nat) (c : TcpConn) (h : c.score.Ok) :
    ((List.range c.tx.queue.length).foldl (timeoutMarkOne false nowUs) c).score.Ok := by
  refine score_ok_markWalk id (fun d i => ?_) c h
  simp only [timeoutMarkOne, Bool.false_eq_true, if_false, id]
  split <;> simp

/-- What `enter_loss` does after the marking leaves the score alone. -/
theorem score_enterLoss (c : TcpConn) (nowUs : Nat) :
    (c.enterLoss nowUs).score = (c.timeoutMarkLost nowUs).score := by
  have hssthresh : ∀ d : TcpConn, d.lossSsthresh.score = d.score := by
    intro d
    rw [lossSsthresh]
    split <;> rfl
  unfold enterLoss
  extract_lets _ reduced _ _ window _ reordering
  have hreduced : reduced.score = _ := hssthresh _
  clear_value reduced
  have hreordering : reordering.score = window.score := score_ite rfl
  clear_value reordering
  exact hreordering.trans hreduced

/-- A timeout keeps the counts, reneging or not. -/
theorem score_ok_enterLoss (h : c.score.Ok) (nowUs : Nat) : (c.enterLoss nowUs).score.Ok := by
  rw [score_enterLoss, timeoutMarkLost]
  by_cases hs : (!c.tx.queue.isEmpty && (c.tx.seg 0).sacked.acked) = true
  · -- A SACKed head: all SACKs are forgotten first.
    simp only [hs, true_or, if_true]
    have h0 : Forgetting c.tx.queue.length 0 ({ c with tx := { c.tx with
        sackedOut := 0, isSackReneg := true } } : TcpConn) :=
      ⟨rfl, h.packets, h.lost, h.retrans, rfl, fun i hi => absurd hi (Nat.not_lt_zero i), h.noUnder⟩
    exact (h0.run nowUs c.tx.queue.length le_rfl).score_ok
  · simp only [hs, Bool.false_eq_true, if_false, false_or]
    by_cases hr : c.isReno = true
    · simp only [hr, if_true]
      exact score_ok_timeoutWalk nowUs _ (score_ok_reno h hr 0)
    · simp only [hr, Bool.false_eq_true, if_false]
      exact score_ok_timeoutWalk nowUs _ h

/-- The head does not carry `SACKED_RETRANS` without `LOST`. -/
def HeadClean (c : TcpConn) : Prop :=
  ∀ s ∈ c.tx.queue.head?, s.sacked.retrans = true → s.sacked.lost = true

instance : Decidable c.HeadClean := by
  unfold HeadClean
  infer_instance

theorem timeoutWalk_head (headSacked : Bool) (nowUs : Nat) (is : List Nat) (h : ∀ i ∈ is, i ≠ 0)
    (c : TcpConn) :
    (is.foldl (timeoutMarkOne headSacked nowUs) c).tx.queue[0]? = c.tx.queue[0]? := by
  induction is generalizing c with
  | nil => rfl
  | cons i is ih =>
    have hi : i ≠ 0 := h i mem_cons_self
    rw [foldl_cons, ih (fun j hj => h j (mem_cons_of_mem i hj))]
    simp only [timeoutMarkOne]
    repeat' split
    · rw [markSkbLost_getElem_ne hi]
      simp [setTag, setSeg, getElem?_set_ne hi]
    · rfl
    · exact markSkbLost_getElem_ne hi

/-- After a timeout a clean head carries no `SACKED_RETRANS`. -/
theorem timeoutMarkLost_head (hc : c.HeadClean) (hq : 0 < c.tx.queue.length) (nowUs : Nat) :
    (c.timeoutMarkLost nowUs).tx.queue[0]?.map (·.sacked.retrans) = some false := by
  have hhead : c.tx.queue[0].sacked.retrans = true → c.tx.queue[0].sacked.lost = true :=
    hc _ (by simp [head?_eq_getElem?, hq])
  have hne : c.tx.queue.isEmpty = false := by
    rw [isEmpty_eq_false_iff]
    exact length_pos_iff.mp hq
  obtain ⟨n, hn⟩ : ∃ n, c.tx.queue.length = n + 1 := ⟨c.tx.queue.length - 1, by omega⟩
  have hwalk : ∀ (b : Bool) (d : TcpConn), d.tx.queue = c.tx.queue →
      (b = false → c.tx.queue[0].sacked.acked = false) →
      ((List.range d.tx.queue.length).foldl (timeoutMarkOne b nowUs) d).tx.queue[0]?.map
        (·.sacked.retrans) = some false := by
    intro b d hd hb
    have hdq : 0 < d.tx.queue.length := hd ▸ hq
    have hd0 : d.tx.queue[0] = c.tx.queue[0] := by simp only [hd]
    rw [hd, hn, range_succ_eq_map, foldl_cons, timeoutWalk_head]
    · cases b with
      | true =>
        refine markSkbLost_retrans ?_ ?_ ?_
        · simpa [setTag, setSeg] using hdq
        · simp [setTag, setSeg]
        · simpa [setTag, setSeg, seg_eq hdq, hd0] using hhead
      | false =>
        exact markSkbLost_retrans hdq (hd0 ▸ hb rfl) (hd0 ▸ hhead)
    · intro i hi
      obtain ⟨j, -, rfl⟩ := mem_map.mp hi
      exact Nat.succ_ne_zero j
  unfold timeoutMarkLost
  apply hwalk
  · repeat' split
    all_goals rfl
  · intro hb
    simpa [hne, seg_eq hq] using hb

end TcpConn

/-! ## Sending -/

namespace TcpConn

variable (c : TcpConn)

theorem score_eventAckSent : c.eventAckSent.score = c.score := rfl

theorem score_eventDataSent (now : Nat) : (c.eventDataSent now).score = c.score := by
  have hstart : (c.txStart now).score = c.score := by
    simp only [txStart]
    split <;> rfl
  unfold eventDataSent
  extract_lets started
  have hstarted : started.score = c.score := score_ite hstart
  exact Eq.trans (score_ite rfl) hstarted

theorem score_xmitDone (n : Nat) (limited : Bool) (now : Nat) :
    (c.xmitDone n limited now).score = c.score := by
  unfold xmitDone
  extract_lets limited valid
  have hvalid : valid.score = c.score := score_ite (c.score_cwndValidate limited now)
  exact Eq.trans (score_ite rfl) hvalid

theorem score_xmitScheduled (n p now nowUs : Nat) :
    (c.xmitScheduled n p now nowUs).score = c.score := by
  rw [xmitScheduled]
  split
  · exact c.score_scheduleLossProbe false now nowUs
  · rfl

/-- The stamps a segment takes along do not count. -/
theorem score_rateSkbSent (t : Tx) (i n : Nat) (sack : Bool) :
    ∃ s : TxSeg, s.sacked = (t.seg i).sacked ∧
      (t.rateSkbSent i n).score sack = { t.score sack with queue := t.queue.set i s } := by
  simp only [rateSkbSent]
  split
  · exact ⟨_, by rfl, rfl⟩
  · exact ⟨_, by rfl, rfl⟩

/-- A new segment enters the scoreboard. -/
theorem score_ok_newDataSent {c : TcpConn} (h : c.score.Ok) (seq endSeq : Nat) (fin : Bool)
    (now nowUs : Nat) : (c.newDataSent seq endSeq fin now nowUs).score.Ok := by
  simp only [newDataSent, length_append, length_singleton, Nat.add_sub_cancel]
  set s : TxSeg := ⟨seq, endSeq, fin, ⟨false, false, false, false⟩, nowUs, 0, 0, 0, false⟩ with hs
  obtain ⟨s', hs', hscore⟩ := score_rateSkbSent { c.tx with queue := c.tx.queue ++ [s] }
    c.tx.queue.length c.tx.packetsOut c.r.sackOk
  have hseg : ({ c.tx with queue := c.tx.queue ++ [s] } : Tx).seg c.tx.queue.length = s := by
    simp [seg]
  have hpush := h.push (s := s') (by rw [hs', hseg, hs])
  generalize (({ c.tx with queue := c.tx.queue ++ [s] } : Tx).rateSkbSent c.tx.queue.length
    c.tx.packetsOut) = t at hscore ⊢
  simp only [Tx.score, Score.mk.injEq] at hscore
  obtain ⟨-, hq, hp, hsk, hl, hr, hu⟩ := hscore
  have hq : t.queue = c.tx.queue ++ [s'] := by simpa using hq
  have hok : ({ c with tx := { t with packetsOut := t.packetsOut + 1 } } : TcpConn).score.Ok := by
    simpa only [TcpConn.score, Tx.score, hq, hp, hsk, hl, hr, hu] using hpush
  split
  · rw [score_rearmRto]
    exact hok
  · exact hok

end TcpConn

namespace Work

theorem score_sendSeg (w : Work) (s : OutSeg) : (w.sendSeg s).2.c.score = w.c.score := by
  rw [sendSeg]
  split
  · rfl
  dsimp only
  split
  · exact w.c.score_eventAckSent
  · rfl

theorem score_sendAckSeg (w : Work) (seq : Nat) (fin psh : Bool) (win : Nat) (p : List Byte) :
    (w.sendAckSeg seq fin psh win p).2.c.score = w.c.score := w.score_sendSeg _

end Work

end NopeekOS.Net.Tcp
