import NopeekOS.Net.TcpTimer

/-!
# The scoreboard

The counters of the retransmit queue against the tags of its segments. `Score` is the part of a
connection that the argument is about; most functions leave it alone (the frame lemmas), and the
others are made of a few moves: a tag set with its counter, a segment pushed, popped, cut or
joined to the one before it.
-/

namespace NopeekOS.Net.Tcp

open Lib List

/-- The queue with its counters, and whether SACK was agreed on. -/
structure Score where
  sack : Bool
  queue : List TxSeg
  packetsOut : Nat
  sackedOut : Nat
  lostOut : Nat
  retransOut : Nat
  under : Bool

/-- The score of a queue. -/
def Tx.score (t : Tx) (sack : Bool) : Score :=
  ⟨sack, t.queue, t.packetsOut, t.sackedOut, t.lostOut, t.retransOut, t.under⟩

def TcpConn.score (c : TcpConn) : Score := c.tx.score c.r.sackOk

/-- How many segments carry a tag. -/
def tagged (p : Tag → Bool) (q : List TxSeg) : Nat := q.countP fun s => p s.sacked

/-- **The scoreboard invariant.** Without SACK no segment is tagged as SACKed, and `sacked_out`
counts duplicate ACKs instead. -/
structure Score.Ok (b : Score) : Prop where
  packets : b.packetsOut = b.queue.length
  lost : b.lostOut = tagged (·.lost) b.queue
  retrans : b.retransOut = tagged (·.retrans) b.queue
  sacked : b.sack = true → b.sackedOut = tagged (·.acked) b.queue
  reno : b.sack = false → tagged (·.acked) b.queue = 0
  noUnder : b.under = false

/-! ## Counting tags -/

section Tags

variable (p : Tag → Bool) (q : List TxSeg)

@[simp] theorem tagged_nil : tagged p [] = 0 := rfl

@[simp] theorem tagged_cons (s : TxSeg) : tagged p (s :: q) = tagged p q + (p s.sacked).toNat := by
  simp only [tagged, countP_cons]
  cases p s.sacked <;> rfl

@[simp] theorem tagged_append (q' : List TxSeg) :
    tagged p (q ++ q') = tagged p q + tagged p q' := by
  simp [tagged]

variable {i : Nat} (hi : i < q.length)

include hi

/-- A queue around its segment `i`. -/
theorem tagged_split :
    tagged p q = tagged p (q.take i) + (tagged p (q.drop (i + 1)) + (p q[i].sacked).toNat) := by
  calc tagged p q
      = tagged p (q.take i ++ q[i] :: q.drop (i + 1)) := by
        rw [← drop_eq_getElem_cons hi, take_append_drop]
    _ = _ := by rw [tagged_append, tagged_cons]

/-- A new tag for segment `i` moves each count by the difference. -/
theorem tagged_retag (s : TxSeg) :
    tagged p (q.set i s) + (p q[i].sacked).toNat = tagged p q + (p s.sacked).toNat := by
  rw [tagged_split p q hi, set_eq_take_append_cons_drop, if_pos hi, tagged_append,
    tagged_cons]
  omega

/-- A segment with the tag is counted. -/
theorem tagged_ne_zero (hg : p q[i].sacked = true) : tagged p q ≠ 0 := by
  rw [tagged_split p q hi, hg, Bool.toNat_true]
  omega

end Tags

theorem Tx.seg_eq {t : Tx} {i : Nat} (hi : i < t.queue.length) : t.seg i = t.queue[i] := by
  simp [Tx.seg, hi]

/-! ## What follows -/

/-- With nothing in the queue nothing is in flight. -/
theorem Score.Ok.inFlight {c : TcpConn} (h : c.score.Ok) (hq : c.tx.queue = []) :
    c.tx.inFlight = 0 := by
  have hp : c.tx.packetsOut = 0 := by simpa [TcpConn.score, Tx.score, hq] using h.packets
  have hr : c.tx.retransOut = 0 := by simpa [TcpConn.score, Tx.score, hq] using h.retrans
  simp [Tx.inFlight, hp, hr]

/-! ## Moves -/

/-- Segment `i` is tagged anew, and each counter moves by the difference. -/
theorem Score.Ok.retag {b : Score} (h : b.Ok) {i : Nat} (hi : i < b.queue.length) {s : TxSeg}
    {lost retrans sacked : Nat} {under : Bool}
    (hl : lost + b.queue[i].sacked.lost.toNat = b.lostOut + s.sacked.lost.toNat)
    (hr : retrans + b.queue[i].sacked.retrans.toNat = b.retransOut + s.sacked.retrans.toNat)
    (ha : b.sack = true →
      sacked + b.queue[i].sacked.acked.toNat = b.sackedOut + s.sacked.acked.toNat)
    (hn : b.sack = false → s.sacked.acked = false) (hu : under = false) :
    Score.Ok ⟨b.sack, b.queue.set i s, b.packetsOut, sacked, lost, retrans, under⟩ := by
  have hlost := tagged_retag (·.lost) b.queue hi s
  have hretr := tagged_retag (·.retrans) b.queue hi s
  have hack := tagged_retag (·.acked) b.queue hi s
  have h1 := h.lost
  have h2 := h.retrans
  refine ⟨?_, ?_, ?_, fun hk => ?_, fun hk => ?_, hu⟩
  · simpa using h.packets
  · show lost = tagged (·.lost) (b.queue.set i s)
    omega
  · show retrans = tagged (·.retrans) (b.queue.set i s)
    omega
  · have h3 := h.sacked hk
    have h4 := ha hk
    show sacked = tagged (·.acked) (b.queue.set i s)
    omega
  · have h3 := h.reno hk
    have h4 := hn hk
    show tagged (·.acked) (b.queue.set i s) = 0
    simp only [h4, Bool.toNat_false] at hack
    omega

/-- A queue that differs in the tag `LOST` only, as far as tags are counted. -/
theorem Score.Ok.requeue {b : Score} (h : b.Ok) {q : List TxSeg} {packets lost : Nat}
    (hp : packets = q.length) (hl : lost = tagged (·.lost) q)
    (hr : tagged (·.retrans) q = tagged (·.retrans) b.queue)
    (ha : tagged (·.acked) q = tagged (·.acked) b.queue) :
    Score.Ok ⟨b.sack, q, packets, b.sackedOut, lost, b.retransOut, b.under⟩ where
  packets := hp
  lost := hl
  retrans := h.retrans.trans hr.symm
  sacked := fun hk => (h.sacked hk).trans ha.symm
  reno := fun hk => ha.trans (h.reno hk)
  noUnder := h.noUnder

section Moves

variable {t : Tx} {sack : Bool} {i : Nat}

section

variable (h : (t.score sack).Ok)

include h

section

variable (hi : i < t.queue.length)

include hi

/-- A segment that carries `SACKED_RETRANS` is counted in `retrans_out`. -/
theorem Score.Ok.retrans_ne_zero (hg : t.queue[i].sacked.retrans = true) : t.retransOut ≠ 0 :=
  h.retrans.trans_ne (tagged_ne_zero (·.retrans) t.queue hi hg)

/-- A segment that carries `LOST` is counted in `lost_out`. -/
theorem Score.Ok.lost_ne_zero (hg : t.queue[i].sacked.lost = true) : t.lostOut ≠ 0 :=
  h.lost.trans_ne (tagged_ne_zero (·.lost) t.queue hi hg)

/-- Without SACK no segment is tagged as SACKed. -/
theorem Score.Ok.not_acked (hk : sack = false) : t.queue[i].sacked.acked = false :=
  Bool.eq_false_iff.mpr fun hg => tagged_ne_zero (·.acked) t.queue hi hg (h.reno hk)

/-- A retransmission no longer counts. -/
theorem Score.Ok.unretrans (hretr : t.queue[i].sacked.retrans = true) :
    (((t.setTag i { t.queue[i].sacked with retrans := false }).decRetrans).score sack).Ok := by
  have hu : t.under = false := h.noUnder
  have hpos := h.retrans_ne_zero hi hretr
  simp only [Tx.score, Tx.decRetrans, Tx.setTag, Tx.setSeg, Tx.seg_eq hi]
  refine h.retag hi rfl ?_ (fun _ => rfl) (h.not_acked hi) ?_
  · show t.retransOut - 1 + t.queue[i].sacked.retrans.toNat = t.retransOut + 0
    rw [hretr, Bool.toNat_true]
    omega
  · simp only [hu, Bool.false_or, beq_eq_false_iff_ne]
    omega

/-- `mark_skb_lost` keeps the counts. -/
theorem Score.Ok.markSkbLost : ((t.markSkbLost i).score sack).Ok := by
  simp only [Tx.markSkbLost, Tx.seg_eq hi]
  split
  · exact h
  split
  · split
    · -- Lost again.
      rename_i hretr
      exact h.unretrans hi hretr
    · exact h
  · -- Lost for the first time.
    rename_i hlost
    refine h.retag hi ?_ rfl (fun _ => rfl) (h.not_acked hi) h.noUnder
    show t.lostOut + 1 + t.queue[i].sacked.lost.toNat = t.lostOut + 1
    rw [Bool.not_eq_true] at hlost
    rw [hlost, Bool.toNat_false]

/-- `fragment` makes two segments of one, with its tags, and counts both. -/
theorem Score.Ok.fragment (len : Nat) : ((t.fragment i len).score sack).Ok := by
  have hsplit := fun p => tagged_split p t.queue hi
  have hlen : t.packetsOut = t.queue.length := h.packets
  have hl : t.lostOut = tagged (·.lost) t.queue := h.lost
  have hr : t.retransOut = tagged (·.retrans) t.queue := h.retrans
  simp only [Tx.fragment, Tx.score, Tx.seg_eq hi]
  refine ⟨?_, ?_, ?_, fun hk => ?_, fun hk => ?_, h.noUnder⟩
  · simp only [length_append, length_cons, length_take, length_drop]
    omega
  · have := hsplit (·.lost)
    cases hg : t.queue[i].sacked.lost <;> simp [hg] at this ⊢ <;> omega
  · have := hsplit (·.retrans)
    cases hg : t.queue[i].sacked.retrans <;> simp [hg] at this ⊢ <;> omega
  · have := hsplit (·.acked)
    have ha : t.sackedOut = tagged (·.acked) t.queue := h.sacked hk
    cases hg : t.queue[i].sacked.acked <;> simp [hg] at this ⊢ <;> omega
  · have := hsplit (·.acked)
    have ha : tagged (·.acked) t.queue = 0 := h.reno hk
    have hg := h.not_acked hi hk
    simp [hg] at this ⊢
    omega

end

/-- A new segment at the end carries no tag. -/
theorem Score.Ok.push {s : TxSeg} (hs : s.sacked = ⟨false, false, false, false⟩) :
    Score.Ok ⟨sack, t.queue ++ [s], t.packetsOut + 1, t.sackedOut, t.lostOut, t.retransOut,
      t.under⟩ := by
  have htag : ∀ p : Tag → Bool, p ⟨false, false, false, false⟩ = false →
      tagged p (t.queue ++ [s]) = tagged p t.queue := by
    intro p hp
    simp [hs, hp]
  refine h.requeue ?_ (h.lost.trans (htag (·.lost) rfl).symm) (htag (·.retrans) rfl)
    (htag (·.acked) rfl)
  simpa [Tx.score] using h.packets

/-- The retransmission of a segment that does not carry `SACKED_RETRANS` counts once. -/
theorem Score.Ok.retransmitted (hi : i < t.queue.length) (hg : t.queue[i].sacked.retrans = false) :
    Score.Ok ⟨sack, t.queue.set i { t.queue[i] with
        sacked := { t.queue[i].sacked with retrans := true, ever := true } },
      t.packetsOut, t.sackedOut, t.lostOut, t.retransOut + 1, t.under⟩ := by
  refine h.retag hi rfl ?_ (fun _ => rfl) (h.not_acked hi) h.noUnder
  show t.retransOut + 1 + t.queue[i].sacked.retrans.toNat = t.retransOut + 1
  rw [hg, Bool.toNat_false]

/-- An undo clears `LOST` everywhere, and the counter with it. -/
theorem Score.Ok.unmarkLoss :
    Score.Ok ⟨sack, t.queue.map fun s => { s with sacked := { s.sacked with lost := false } },
      t.packetsOut, t.sackedOut, 0, t.retransOut, t.under⟩ := by
  have hmap : ∀ p : Tag → Bool, (∀ g, p { g with lost := false } = p g) →
      tagged p (t.queue.map fun s => { s with sacked := { s.sacked with lost := false } }) =
        tagged p t.queue := by
    intro p hp
    simp [tagged, countP_map, Function.comp_def, hp]
  refine h.requeue ?_ ?_ (hmap (·.retrans) fun _ => rfl) (hmap (·.acked) fun _ => rfl)
  · simpa [Tx.score] using h.packets
  · simp [tagged, countP_map, Function.comp_def]

end

/-- A segment leaves the queue, and the counters go down by its tags. -/
theorem Score.Ok.remove {b : Score} (h : b.Ok) {i : Nat} (hi : i < b.queue.length) :
    Score.Ok ⟨b.sack, b.queue.eraseIdx i, b.packetsOut - 1,
      b.sackedOut - (if b.sack then b.queue[i].sacked.acked.toNat else 0),
      b.lostOut - b.queue[i].sacked.lost.toNat, b.retransOut - b.queue[i].sacked.retrans.toNat,
      b.under⟩ := by
  have hsplit := fun p => tagged_split p b.queue hi
  have herase : ∀ p : Tag → Bool, tagged p (b.queue.eraseIdx i) + (p b.queue[i].sacked).toNat =
      tagged p b.queue := by
    intro p
    rw [hsplit p, eraseIdx_eq_take_drop_succ, tagged_append]
    omega
  refine ⟨?_, ?_, ?_, fun hk => ?_, fun hk => ?_, h.noUnder⟩
  · rw [length_eraseIdx_of_lt hi, h.packets]
  · have := herase (·.lost)
    have hl := h.lost
    show b.lostOut - _ = tagged (·.lost) (b.queue.eraseIdx i)
    omega
  · have := herase (·.retrans)
    have hr := h.retrans
    show b.retransOut - _ = tagged (·.retrans) (b.queue.eraseIdx i)
    omega
  · have := herase (·.acked)
    have ha := h.sacked hk
    have hk' : b.sack = true := hk
    show b.sackedOut - (if b.sack then _ else 0) = tagged (·.acked) (b.queue.eraseIdx i)
    rw [if_pos hk']
    omega
  · have := herase (·.acked)
    have hz := h.reno hk
    show tagged (·.acked) (b.queue.eraseIdx i) = 0
    omega

end Moves

/-! ## Frames

What leaves the queue, its counters and the agreement on SACK alone. -/

namespace TcpConn

variable (c : TcpConn)

/-- A step that may be taken. -/
theorem score_ite {p : Prop} [Decidable p] {c d : TcpConn} (h : d.score = c.score) :
    (if p then d else c).score = c.score := by
  split
  · exact h
  · rfl

theorem score_ok_ite {p : Prop} [Decidable p] {c d : TcpConn} (hc : c.score.Ok)
    (h : d.score = c.score) : (if p then d else c).score.Ok := by
  rw [score_ite h]
  exact hc

@[simp] theorem score_resetXmitTimer (p : Pending) (d now : Nat) :
    (c.resetXmitTimer p d now).score = c.score := rfl
@[simp] theorem score_syncMss : c.syncMss.score = c.score := rfl
@[simp] theorem score_sndbufExpand : c.sndbufExpand.score = c.score := rfl
@[simp] theorem score_initCwndReduction : c.initCwndReduction.score = c.score := rfl

@[simp] theorem score_rearmRto (now nowUs : Nat) : (c.rearmRto now nowUs).score = c.score := by
  rw [rearmRto]
  split
  · rfl
  · split <;> rfl

@[simp] theorem score_scheduleLossProbe (adv : Bool) (now nowUs : Nat) :
    (c.scheduleLossProbe adv now nowUs).2.score = c.score := by
  rw [scheduleLossProbe]
  split <;> rfl

@[simp] theorem score_setXmitTimer (now nowUs : Nat) :
    (c.setXmitTimer now nowUs).score = c.score := by
  simp only [setXmitTimer]
  split <;> simp

@[simp] theorem score_cwndValidate (limited : Bool) (now : Nat) :
    (c.cwndValidate limited now).score = c.score := by
  simp only [cwndValidate, cwndApplicationLimited]
  repeat' split
  all_goals rfl

@[simp] theorem score_slowStartAfterIdleCheck (now : Nat) :
    (c.slowStartAfterIdleCheck now).score = c.score := by
  rw [slowStartAfterIdleCheck]
  repeat' split
  all_goals rfl

@[simp] theorem score_forgetStamp : c.forgetStamp.score = c.score := by
  rw [forgetStamp]
  split <;> rfl

@[simp] theorem score_tryKeepOpen : c.tryKeepOpen.score = c.score := by
  simp only [tryKeepOpen]
  repeat' split
  all_goals rfl

@[simp] theorem score_tryToOpen : c.tryToOpen.score = c.score := by simp [tryToOpen]

@[simp] theorem score_enterRecovery : c.enterRecovery.score = c.score := by
  unfold enterRecovery
  extract_lets fresh _ undo _ reduced
  have hfresh : fresh.score = c.score := score_ite rfl
  have hreduced : reduced.score = undo.score := score_ite (score_initCwndReduction _)
  exact hreduced.trans hfresh

@[simp] theorem score_endCwndReduction (now : Nat) : (c.endCwndReduction now).score = c.score := by
  rw [endCwndReduction]
  split <;> rfl

@[simp] theorem score_cwndReduction (a l : Nat) (f : Flags) :
    (c.cwndReduction a l f).score = c.score := by
  rw [cwndReduction]
  split <;> rfl

@[simp] theorem score_checkSackReordering (low : Nat) :
    (c.checkSackReordering low).score = c.score := by
  simp only [checkSackReordering]
  repeat' split
  all_goals rfl

@[simp] theorem score_rackAdvance (g : Tag) (e x nowUs : Nat) :
    (c.rackAdvance g e x nowUs).score = c.score := by
  simp only [rackAdvance]
  split <;> rfl

end TcpConn

end NopeekOS.Net.Tcp
