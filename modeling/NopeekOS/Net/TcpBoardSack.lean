import NopeekOS.Net.TcpBoardAck

/-!
# The scoreboard under an ACK

The SACK blocks of an ACK tag segments, and its number drops them. Both keep the counts: a block
is only looked at when SACK was agreed on, so `sacked_out` counts tags there.
-/

namespace NopeekOS.Net.Tcp

open Lib TcpConn

namespace TcpConn

variable (c : TcpConn)

theorem score_dsackOne (st : SackState) (s : TxSeg) (dup : Bool) :
    (c.dsackOne st s dup).1.score = c.score := by
  rw [dsackOne]
  split
  · split
    · rfl
    · split <;> rfl
  · rfl

theorem score_checkDsack (ack : Nat) (sp : List (Nat × Nat)) (una : Nat) (st : SackState) :
    (c.checkDsack ack sp una st).2.1.score = c.score := by
  simp only [checkDsack]
  split
  · rfl
  -- How many segments were doubled and which flag goes up are not part of the score.
  generalize (if (_ : Nat) < _ then _ else 1 : Nat) = dup
  generalize (if ¬ (_ : Nat) < _ ∧ c.tx.tlpHighSeq = some _ then _ else st : SackState) = st'
  split
  · rfl
  dsimp only
  split
  · split <;> rfl
  · split
    · split <;> rfl
    · split <;> rfl

theorem score_rateSkbDelivered (s : TxSeg) (rs : RateSample) :
    (c.rateSkbDelivered s rs).1.score = c.score := by
  rw [rateSkbDelivered]
  split
  · rfl
  · split <;> rfl

end TcpConn

/-- What tagging a segment as SACKed does to the tags that count: lost and retransmitted go
together, lost alone goes, a retransmission believed in flight stays. -/
def sackedTag (g : Tag) : Tag :=
  if g.retrans then
    if g.lost then { g with lost := false, retrans := false, acked := true }
    else { g with acked := true }
  else { g with lost := false, acked := true }

/-- Only a retransmission not marked lost stays in flight. -/
theorem sackedTag_eq (g : Tag) : sackedTag g = ⟨true, g.retrans && !g.lost, false, g.ever⟩ := by
  obtain ⟨_, retrans, lost, _⟩ := g
  cases retrans <;> cases lost <;> rfl

namespace TcpConn

variable {c : TcpConn} {i : Nat}

/-- `sackedFirst` in one equation: the counters follow the new tag. -/
theorem sackedFirst_score (h : c.score.Ok) (st : SackState) (hi : i < c.tx.queue.length)
    (nowUs : Nat) : let r := c.sackedFirst st c.tx.queue[i] nowUs
    r.2.2 = sackedTag c.tx.queue[i].sacked ∧ r.1.score = { c.score with
        sackedOut := c.tx.sackedOut + 1
        lostOut := c.tx.lostOut - c.tx.queue[i].sacked.lost.toNat
        retransOut := c.tx.retransOut -
          (c.tx.queue[i].sacked.retrans && c.tx.queue[i].sacked.lost).toNat } := by
  have hadv := c.score_rackAdvance c.tx.queue[i].sacked c.tx.queue[i].endSeq c.tx.queue[i].sentUs nowUs
  have hu : c.tx.under = false := h.noUnder
  simp only [sackedFirst]
  generalize c.rackAdvance _ _ _ nowUs = d at hadv ⊢
  simp only [score, Tx.score, Score.mk.injEq] at hadv
  obtain ⟨hs, hq, hp, hsk, hl, hr, hun⟩ := hadv
  cases hretr : c.tx.queue[i].sacked.retrans <;> cases hlost : c.tx.queue[i].sacked.lost
  · simp [sackedTag, hretr, hlost, score, Tx.score, hs, hq, hp, hsk, hl, hr, hun]
  · have hpos : c.tx.lostOut ≠ 0 := h.lost_ne_zero hi hlost
    simp [sackedTag, hretr, score, Tx.score, Tx.decLost, hs, hq, hp, hsk, hl, hr, hun, hu,
      hpos]
  · simp [sackedTag, hretr, hlost, score, Tx.score, hs, hq, hp, hsk, hl, hr, hun]
  · have hpos : c.tx.lostOut ≠ 0 := h.lost_ne_zero hi hlost
    have hpos' : c.tx.retransOut ≠ 0 := h.retrans_ne_zero hi hretr
    simp [sackedTag, hretr, hlost, score, Tx.score, Tx.decLost, Tx.decRetrans, hs, hq, hp,
      hsk, hl, hr, hun, hu, hpos, hpos']

/-- What the walks over the blocks keep: the score, SACK, and the queue's length. -/
structure Walked (n : Nat) (c : TcpConn) : Prop where
  ok : c.score.Ok
  sack : c.r.sackOk = true
  length : c.tx.queue.length = n

variable {n : Nat}

section

variable (h : Walked n c)

include h

/-- They are about the score. -/
theorem Walked.of_score {d : TcpConn} (hd : d.score = c.score) : Walked n d :=
  ⟨hd ▸ h.ok, (congrArg Score.sack hd).trans h.sack,
    (congrArg (·.queue.length) hd).trans h.length⟩

/-- A segment SACKed for the first time, with its new tag. -/
theorem Walked.sackedFirst (st : SackState) (hi : i < c.tx.queue.length)
    (ha : c.tx.queue[i].sacked.acked = false) (nowUs : Nat) :
    let r := c.sackedFirst st c.tx.queue[i] nowUs
    Walked n { r.1 with tx := r.1.tx.setTag i r.2.2 } := by
  obtain ⟨hg, hscore⟩ := sackedFirst_score h.ok st hi nowUs
  generalize c.sackedFirst st c.tx.queue[i] nowUs = r at hg hscore ⊢
  obtain ⟨d, st', g⟩ := r
  dsimp only at hg hscore ⊢
  subst hg
  simp only [score, Tx.score, Score.mk.injEq] at hscore
  obtain ⟨hsk, hq, hp, hsd, hl, hr, hun⟩ := hscore
  have hid : i < d.tx.queue.length := hq ▸ hi
  refine ⟨?_, hsk.trans h.sack, by simp [Tx.setTag, Tx.setSeg, hq, h.length]⟩
  simp only [score, Tx.score, Tx.setTag, Tx.setSeg, Tx.seg_eq hid, hq, hp, hsd, hl, hr, hun,
    hsk, sackedTag_eq]
  refine h.ok.retag hi ?_ ?_ (fun _ => ?_) (fun hk => ?_) h.ok.noUnder
  · show c.tx.lostOut - c.tx.queue[i].sacked.lost.toNat + c.tx.queue[i].sacked.lost.toNat
      = c.tx.lostOut
    cases hlost : c.tx.queue[i].sacked.lost
    · rfl
    · exact Nat.sub_add_cancel (Nat.pos_of_ne_zero (h.ok.lost_ne_zero hi hlost))
  · show c.tx.retransOut - (c.tx.queue[i].sacked.retrans && c.tx.queue[i].sacked.lost).toNat
        + c.tx.queue[i].sacked.retrans.toNat
      = c.tx.retransOut + (c.tx.queue[i].sacked.retrans && !c.tx.queue[i].sacked.lost).toNat
    cases hretr : c.tx.queue[i].sacked.retrans <;> cases c.tx.queue[i].sacked.lost
    · rfl
    · rfl
    · rfl
    · exact Nat.sub_add_cancel (Nat.pos_of_ne_zero (h.ok.retrans_ne_zero hi hretr))
  · show c.tx.sackedOut + 1 + c.tx.queue[i].sacked.acked.toNat = c.tx.sackedOut + 1
    rw [ha]
    rfl
  · exact absurd (h.sack.symm.trans hk) Bool.noConfusion

/-- Only the stamps of a segment change. -/
theorem Walked.setSeg (hi : i < n) {s : TxSeg} (hs : s.sacked = (c.tx.seg i).sacked) :
    Walked n { c with tx := c.tx.setSeg i s } := by
  have hlen := h.length ▸ hi
  have hno : c.r.sackOk = false → s.sacked.acked = false := fun hk => by simp [h.sack] at hk
  rw [Tx.seg_eq hlen] at hs
  refine ⟨?_, h.sack, by simp [Tx.setSeg, h.length]⟩
  refine h.ok.retag hlen ?_ ?_ (fun _ => ?_) hno h.ok.noUnder
  all_goals simp [hs, score, Tx.score, Tx.setSeg]

theorem Walked.sacktagOne (st : SackState) (hi : i < n) (dup : Bool) (nowUs : Nat) :
    Walked n (c.sacktagOne st i dup nowUs).1 := by
  have hone := c.score_dsackOne st (c.tx.seg i) dup
  rw [TcpConn.sacktagOne]
  generalize c.dsackOne st (c.tx.seg i) dup = r at hone ⊢
  obtain ⟨d, st'⟩ := r
  dsimp only at hone ⊢
  have hd := h.of_score hone
  have hid : i < d.tx.queue.length := hd.length ▸ hi
  have hseg : c.tx.seg i = d.tx.queue[i] := by
    simp only [Tx.seg_eq (h.length ▸ hi), show d.tx.queue = c.tx.queue from congrArg Score.queue hone]
  rw [hseg]
  split
  · exact hd
  generalize hr : (if d.tx.queue[i].sacked.acked then _ else _ : TcpConn × SackState × Tag) = r
  have htag : Walked n { r.1 with tx := r.1.tx.setTag i r.2.2 } := by
    rw [← hr]
    split
    · exact hd.setSeg hi (by rw [Tx.seg_eq hid])
    · rename_i ha
      exact hd.sackedFirst st' hid (by simpa using ha) nowUs
  have hlen : r.1.tx.queue.length = n := by simpa [Tx.setTag, Tx.setSeg] using htag.length
  obtain ⟨e, st'', g⟩ := r
  dsimp only at htag hlen ⊢
  have hie : i < e.tx.queue.length := hlen ▸ hi
  split
  · -- A D-SACK also ends the retransmission it answers.
    rename_i hdup
    have hend := htag.ok.unretrans (i := i) (by simpa [Tx.setTag, Tx.setSeg] using hie)
      (by simpa [Tx.setTag, Tx.setSeg] using hdup.2)
    refine ⟨?_, htag.sack, by simpa [Tx.decRetrans, Tx.setTag, Tx.setSeg] using hlen⟩
    simpa [Tx.setTag, Tx.setSeg, Tx.seg, hie, score] using hend
  · exact htag

theorem Walked.sackSegment (st : SackState) (hi : i < n) (dup : Bool) (nowUs : Nat) :
    Walked n (c.sackSegment st i dup nowUs).1 := by
  have htag := h.sacktagOne st hi dup nowUs
  rw [TcpConn.sackSegment]
  generalize c.sacktagOne st i dup nowUs = r at htag ⊢
  obtain ⟨d, st'⟩ := r
  dsimp only at htag ⊢
  have hrate := d.score_rateSkbDelivered (d.tx.seg i) st'.rate
  generalize d.rateSkbDelivered (d.tx.seg i) st'.rate = q at hrate ⊢
  obtain ⟨e, rate⟩ := q
  have he := htag.of_score hrate
  have hq : e.tx.queue = d.tx.queue := congrArg Score.queue hrate
  have hseg : (d.tx.seg i).sacked = (e.tx.seg i).sacked := by simp only [Tx.seg, hq]
  split
  · have hset := he.setSeg hi (s := { d.tx.seg i with txDeliveredMstamp := 0 }) hseg
    split
    · exact { hset with }
    · exact hset
  · exact he

end

/-- The walk for one block, over any indices of the queue. -/
theorem Walked.sackWalk (start stop : Nat) (dup : Bool) (nowUs : Nat) (is : List Nat)
    (hi : ∀ i ∈ is, i < n) (c : TcpConn) (st : SackState) (h : Walked n c) :
    Walked n (TcpConn.sackWalk start stop dup nowUs is c st).1 := by
  induction is generalizing c st with
  | nil => exact h
  | cons i is ih =>
    have hrest : ∀ j ∈ is, j < n := fun j hj => hi j (List.mem_cons_of_mem i hj)
    rw [TcpConn.sackWalk]
    split
    · exact h
    · split
      · exact ih hrest _ _ (h.sackSegment st (hi i List.mem_cons_self) dup nowUs)
      · exact ih hrest c st h

/-- The walks for all blocks. -/
theorem Walked.sackBlocks (nowUs : Nat) (bs : List (Nat × Nat × Bool)) (c : TcpConn)
    (st : SackState) (h : Walked n c) : Walked n (TcpConn.sackBlocks nowUs bs c st).1 := by
  induction bs generalizing c st with
  | nil => exact h
  | cons b bs ih =>
    obtain ⟨start, stop, dup⟩ := b
    rw [TcpConn.sackBlocks]
    exact ih _ _ (.sackWalk start stop dup nowUs _
      (fun i hi => h.length ▸ List.mem_range.mp hi) c st h)

/-- **The SACK blocks of an ACK keep the scoreboard.** -/
theorem score_ok_sacktagWriteQueue (h : c.score.Ok) (hs : c.r.sackOk = true) (ack : Nat)
    (blocks : List (Nat × Nat)) (una : Nat) (st : SackState) (nowUs : Nat) :
    (c.sacktagWriteQueue ack blocks una st nowUs).1.score.Ok := by
  rw [sacktagWriteQueue]
  generalize hd : (if c.tx.sackedOut = 0 then _ else c : TcpConn) = d
  have hhigh : d.score = c.score := hd ▸ score_ite rfl
  have hd := d.score_checkDsack ack blocks una { st with flag := .none, reord := c.sndNxt }
  generalize d.checkDsack ack blocks una _ = r at hd ⊢
  obtain ⟨found, e, st'⟩ := r
  dsimp only at hd ⊢
  have heq : e.score = c.score := hd.trans hhigh
  have he : e.score.Ok := heq ▸ h
  have hsack : e.r.sackOk = true := (congrArg Score.sack heq).trans hs
  split
  · exact he
  split
  · exact he
  have hw := Walked.sackBlocks nowUs (e.usedBlocks blocks found una) e st' ⟨he, hsack, rfl⟩
  split
  · rw [score_checkSackReordering]
    exact hw.ok
  · exact hw.ok

end TcpConn

/-! ## Dropping what the number covers -/

namespace Clean

variable (c : TcpConn)

/-- The head's own delivery takes it out of `sacked_out` if it was SACKed. -/
theorem score_deliver (s : TxSeg) (tsecr : Option Nat) (nowUs : Nat)
    (hu : c.tx.under = false) (ha : s.sacked.acked = true → c.tx.sackedOut ≠ 0) :
    (deliver c s tsecr nowUs).score =
      { c.score with sackedOut := c.tx.sackedOut - s.sacked.acked.toNat } := by
  rw [deliver]
  split
  · rename_i hg
    simp [score, Tx.score, Tx.decSacked, hg, hu, ha hg]
  rename_i hg
  have hz : s.sacked.acked.toNat = 0 := by simpa using hg
  rw [hz]
  split
  · rfl
  dsimp only
  split
  · rfl
  · rw [score_rackAdvance]
    rfl

/-- The head leaves `retrans_out` if its retransmission counted. -/
theorem score_unretrans (s : TxSeg) (hu : c.tx.under = false)
    (hr : s.sacked.retrans = true → c.tx.retransOut ≠ 0) :
    (if s.sacked.retrans then { c with tx := c.tx.decRetrans } else c : TcpConn).score =
      { c.score with retransOut := c.tx.retransOut - s.sacked.retrans.toNat } := by
  split
  · rename_i hg
    simp [score, Tx.score, Tx.decRetrans, hg, hu, hr hg]
  · rename_i hg
    simp [score, Tx.score, hg]

/-- The head leaves `lost_out` if it was lost. -/
theorem score_unlost (s : TxSeg) (hu : c.tx.under = false)
    (hl : s.sacked.lost = true → c.tx.lostOut ≠ 0) :
    (if s.sacked.lost then { c with tx := c.tx.decLost } else c : TcpConn).score =
      { c.score with lostOut := c.tx.lostOut - s.sacked.lost.toNat } := by
  split
  · rename_i hg
    simp [score, Tx.score, Tx.decLost, hg, hu, hl hg]
  · rename_i hg
    simp [score, Tx.score, hg]

variable (w : Clean)

/-- The first stage of `drop`: the head is off the queue and out of `retrans_out`. -/
theorem score_dropResent (s : TxSeg) (hu : w.c.tx.under = false)
    (hr : s.sacked.retrans = true → w.c.tx.retransOut ≠ 0) :
    (if s.sacked.resent then
        { w with
          c := if s.sacked.retrans then { w.c with tx := w.c.tx.decRetrans } else w.c
          flag := { w.flag with retransDataAcked := true } }
      else if ¬ s.sacked.acked then w.original s else w : Clean).c.score =
      { w.c.score with retransOut := w.c.tx.retransOut - s.sacked.retrans.toNat } := by
  split
  · exact score_unretrans w.c s hu hr
  rename_i hres
  have hg : s.sacked.retrans = false := by
    simp only [Tag.resent, Bool.or_eq_true, not_or, Bool.not_eq_true] at hres
    exact hres.1
  have hz : s.sacked.retrans.toNat = 0 := by rw [hg, Bool.toNat_false]
  rw [hz]
  split <;> rfl

theorem score_decPackets (hu : c.tx.under = false) (hp : c.tx.packetsOut ≠ 0) :
    ({ c with tx := c.tx.decPackets } : TcpConn).score =
      { c.score with packetsOut := c.score.packetsOut - 1 } := by
  simp [score, Tx.score, Tx.decPackets, hu, hp]

/-- The stages of `drop` after it: delivered, out of `lost_out` and of `packets_out`. -/
theorem score_dropRest (s : TxSeg) (tsecr : Option Nat) (nowUs : Nat)
    (hu : w.c.tx.under = false) (hp : w.c.tx.packetsOut ≠ 0)
    (ha : s.sacked.acked = true → w.c.tx.sackedOut ≠ 0)
    (hl : s.sacked.lost = true → w.c.tx.lostOut ≠ 0) :
    (let c := deliver w.c s tsecr nowUs
      let c : TcpConn := if s.sacked.lost then { c with tx := c.tx.decLost } else c
      let c : TcpConn := { c with tx := c.tx.decPackets }
      (c.rateSkbDelivered s w.rate).1.score) =
      { w.c.score with
        packetsOut := w.c.score.packetsOut - 1
        sackedOut := w.c.score.sackedOut - s.sacked.acked.toNat
        lostOut := w.c.score.lostOut - s.sacked.lost.toNat } := by
  have h₂ := score_deliver w.c s tsecr nowUs hu ha
  have hlost : (deliver w.c s tsecr nowUs).tx.lostOut = w.c.tx.lostOut := congrArg Score.lostOut h₂
  have h₃ := score_unlost (deliver w.c s tsecr nowUs) s ((congrArg Score.under h₂).trans hu)
    (by rwa [hlost])
  rw [h₂, hlost] at h₃
  have hpackets := congrArg Score.packetsOut h₃
  rw [score_rateSkbDelivered, score_decPackets _ ((congrArg Score.under h₃).trans hu)
    fun hz => hp (hpackets.symm.trans hz), h₃]
  rfl

variable (h : w.c.score.Ok)

include h

/-- The score once the head `s` left the queue. -/
theorem score_drop {s : TxSeg} {rest : List TxSeg}
    (hq : w.c.tx.queue = s :: rest) (tsecr : Option Nat) (nowUs : Nat) :
    (w.drop s rest tsecr nowUs).c.score.Ok := by
  have hi : 0 < w.c.tx.queue.length := by simp [hq]
  have hs : w.c.tx.queue[0] = s := by simp [hq]
  have hrem := h.remove hi
  have hu : w.c.tx.under = false := h.noUnder
  have hp : w.c.tx.packetsOut ≠ 0 := by
    have : w.c.tx.packetsOut = w.c.tx.queue.length := h.packets
    omega
  have hl : s.sacked.lost = true → w.c.tx.lostOut ≠ 0 := fun hg => h.lost_ne_zero hi (hs ▸ hg)
  have hr : s.sacked.retrans = true → w.c.tx.retransOut ≠ 0 := fun hg =>
    h.retrans_ne_zero hi (hs ▸ hg)
  have ha : s.sacked.acked = true → w.c.r.sackOk = true ∧ w.c.tx.sackedOut ≠ 0 := fun hg => by
    cases hk : w.c.r.sackOk with
    | false =>
      have := h.not_acked hi hk
      rw [hs, hg] at this
      exact absurd this (by decide)
    | true => exact ⟨rfl, (h.sacked hk).trans_ne (tagged_ne_zero _ _ hi (hs ▸ hg))⟩
  -- What is left is to compute: the counters go down by the tags of `s`.
  have hbit : (if w.c.r.sackOk then s.sacked.acked.toNat else 0) = s.sacked.acked.toNat := by
    cases hg : s.sacked.acked with
    | false => simp
    | true => rw [if_pos (ha hg).1]
  have hscore : (w.drop s rest tsecr nowUs).c.score = ⟨w.c.r.sackOk, rest, w.c.tx.packetsOut - 1,
        w.c.tx.sackedOut - (if w.c.r.sackOk then s.sacked.acked.toNat else 0),
        w.c.tx.lostOut - s.sacked.lost.toNat, w.c.tx.retransOut - s.sacked.retrans.toNat,
        w.c.tx.under⟩ := by
    have h₁ := score_dropResent { w with c := { w.c with tx := { w.c.tx with queue := rest } } }
      s hu hr
    refine (score_dropRest _ s tsecr nowUs ((congrArg Score.under h₁).trans hu)
      (fun hz => hp ((congrArg Score.packetsOut h₁).symm.trans hz))
      (fun hg hz => (ha hg).2 ((congrArg Score.sackedOut h₁).symm.trans hz))
      (fun hg hz => hl hg ((congrArg Score.lostOut h₁).symm.trans hz))).trans ?_
    rw [h₁, hbit]
    rfl
  rw [hscore]
  simpa [score, Tx.score, hq] using hrem

/-- The loop, by the segments it drops. -/
theorem score_loop (tsecr : Option Nat) (nowUs fuel : Nat) :
    (loop tsecr nowUs fuel w).c.score.Ok := by
  induction fuel generalizing w with
  | zero => exact h
  | succ fuel ih =>
    rw [loop]
    split
    · exact h
    rename_i s rest hq
    split
    · exact h
    · exact ih _ (w.score_drop h hq tsecr nowUs)

/-- A head that keeps its tags and only starts later. -/
theorem score_trim : w.trim.c.score.Ok := by
  rw [trim]
  split
  · exact h
  rename_i s rest hq
  have htag : ∀ p : Tag → Bool, tagged p ((if after w.c.sndUna s.seq then
      { s with seq := w.c.sndUna } else s) :: rest) = tagged p w.c.tx.queue := by
    intro p
    rw [hq, tagged_cons, tagged_cons]
    split <;> rfl
  refine h.requeue ?_ (h.lost.trans (htag (·.lost)).symm) (htag (·.retrans)) (htag (·.acked))
  have := h.packets
  simpa [score, Tx.score, hq] using this

end Clean

namespace TcpConn

variable (c : TcpConn)

theorem score_rttEstimator (m : Nat) : (c.rttEstimator m).score = c.score := by
  rw [rttEstimator]
  extract_lets
  split
  · split <;> rfl
  · rfl

theorem score_updateRtt (flag : Flags) (a b d e : Option Nat) (m now : Nat) :
    (c.updateRtt flag a b d e m now).1.score = c.score := by
  -- The minimum, sampled or not.
  have hmin : ∀ (p : Prop) [Decidable p] (n : Nat),
      (if p then c else c.rttMinSample n now).score = c.score := by
    intro p _ n
    split <;> rfl
  rw [updateRtt]
  split
  · rfl
  · exact (score_rttEstimator _ _).trans (hmin _ _)

theorem score_cubicAcked (rtt : Option Nat) (now nowUs : Nat) :
    (c.cubicAcked rtt now nowUs).score = c.score := by
  have htrain : ∀ d : TcpConn, (d.hystartTrain nowUs).score = d.score := by
    intro d
    simp only [hystartTrain]
    repeat' split
    all_goals rfl
  have hdelay : ∀ (d : TcpConn) (n : Nat), (d.hystartDelay n).score = d.score := by
    intro d n
    simp only [hystartDelay]
    repeat' split
    all_goals rfl
  have hupdate : ∀ (d : TcpConn) (n : Nat), (d.hystartUpdate n nowUs).score = d.score := by
    intro d n
    rw [hystartUpdate]
    generalize he : (if seqAfter d.sndUna d.tx.cubic.endSeq then _ else d : TcpConn) = e
    have hreset : e.score = d.score := he ▸ score_ite rfl
    split
    · exact hreset
    · rw [hdelay, htrain, hreset]
  cases rtt with
  | none => rfl
  | some r =>
    unfold cubicAcked
    dsimp only
    split
    · rfl
    · refine (score_ite (hupdate _ _)).trans ?_
      split <;> rfl

theorem score_ok_cleanDone {w : Clean} (h : w.c.score.Ok) (fack nowUs : Nat) (upd : Bool)
    (rtt : Option Nat) : (cleanDone w fack nowUs upd rtt).1.score.Ok := by
  unfold cleanDone
  split
  · split
    · rename_i hr
      exact score_ok_removeRenoSacks h hr w.pktsAcked
    split
    · rw [score_checkSackReordering]
      exact h
    · exact h
  · split <;> exact h

variable {c}

/-- **Dropping what an ACK covers keeps the scoreboard.** -/
theorem score_ok_cleanRtxQueue (h : c.score.Ok) (fack una : Nat) (st : SackState)
    (tsecr : Option Nat) (ms now nowUs : Nat) :
    (c.cleanRtxQueue fack una st tsecr ms now nowUs).1.score.Ok := by
  have hloop := Clean.score_trim _ (Clean.score_loop ⟨c, st.rate, .none, c.sndNxt, 0, 0, 0⟩ h tsecr
    nowUs c.tx.queue.length)
  rw [cleanRtxQueue]
  generalize (Clean.loop tsecr nowUs c.tx.queue.length _).trim = w at hloop ⊢
  rw [score_cubicAcked]
  refine score_ok_cleanDone ?_ fack nowUs _ _
  rw [score_updateRtt]
  split <;> exact hloop

end TcpConn

end NopeekOS.Net.Tcp
