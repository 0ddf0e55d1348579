import NopeekOS.Net.TcpBoard

/-!
# The scoreboard under the congestion state machine

The functions of recovery.rs that change the score without sending: the undo of a reduction,
the counting of duplicate ACKs without SACK, RACK's marking and `fastretrans_alert` over them.
-/

namespace NopeekOS.Net.Tcp

open Lib

namespace TcpConn

variable {c : TcpConn}

theorem score_isNonSackPreventingReopen (c : TcpConn) :
    c.isNonSackPreventingReopen.2.score = c.score := by
  rw [isNonSackPreventingReopen]
  split
  · exact c.score_forgetStamp
  · rfl

section

variable (h : c.score.Ok)

include h

/-- Without SACK `sacked_out` may be anything. -/
theorem score_ok_reno (hr : c.isReno = true) (n : Nat) :
    Score.Ok { c.score with sackedOut := n } := by
  have hs : c.r.sackOk = false := by simpa [isReno] using hr
  refine { h with sacked := fun hk => ?_ }
  have hk : c.r.sackOk = true := hk
  simp [hs] at hk

theorem score_ok_undoCwndReduction (unmark : Bool) (now : Nat) :
    (c.undoCwndReduction unmark now).score.Ok := by
  unfold undoCwndReduction
  extract_lets _ unmarked window
  have hunmarked : unmarked.score.Ok := by
    cases unmark with
    | false => exact h
    | true => exact h.unmarkLoss
  have hwindow : window.score = unmarked.score := score_ite rfl
  exact hwindow.symm ▸ hunmarked

theorem score_ok_tryUndoDsack (now : Nat) : (c.tryUndoDsack now).2.score.Ok := by
  rw [tryUndoDsack]
  split
  · refine score_ok_undoCwndReduction ?_ false now
    exact h
  · exact h

theorem score_ok_tryUndoLoss (frto : Bool) (now : Nat) : (c.tryUndoLoss frto now).2.score.Ok := by
  rw [tryUndoLoss]
  split
  · have hundo : { c.undoCwndReduction true now with retries := 0 }.score.Ok :=
      score_ok_undoCwndReduction h true now
    dsimp only
    generalize { c.undoCwndReduction true now with retries := 0 } = d at hundo ⊢
    have hr : d.isNonSackPreventingReopen.2.score.Ok := d.score_isNonSackPreventingReopen ▸ hundo
    split
    · exact hr
    · split <;> exact hr
  · exact h

theorem score_ok_tryUndoPartial (priorUna now : Nat) :
    (c.tryUndoPartial priorUna now).2.score.Ok := by
  rw [tryUndoPartial]
  split
  · dsimp only
    have hre : (c.checkSackReordering priorUna).score.Ok := by simpa using h
    split
    · exact hre
    · rw [score_tryKeepOpen]
      exact score_ok_undoCwndReduction (by simpa using hre) true now
  · exact h

theorem score_ok_tryUndoRecovery (now : Nat) : (c.tryUndoRecovery now).2.score.Ok := by
  rw [tryUndoRecovery]
  generalize hd : (if c.mayUndo then _ else _ : TcpConn) = d
  have hundo : d.score.Ok := by
    rw [← hd]
    split
    · exact score_ok_undoCwndReduction h false now
    · split <;> exact h
  have hr : d.isNonSackPreventingReopen.2.score.Ok := d.score_isNonSackPreventingReopen ▸ hundo
  dsimp only
  split <;> exact hr

end

theorem length_markSkbLost (t : Tx) (i : Nat) : (t.markSkbLost i).queue.length = t.queue.length := by
  simp only [Tx.markSkbLost]
  repeat' split
  all_goals simp [Tx.decRetrans, Tx.setTag, Tx.setSeg]

/-- A walk over the queue that marks some of its segments lost keeps the counts. -/
theorem score_ok_markWalk {β : Type} {f : β → Nat → β} (conn : β → TcpConn)
    (hstep : ∀ p i, conn (f p i) = conn p ∨
      conn (f p i) = { conn p with tx := (conn p).tx.markSkbLost i }) (p : β)
    (h : (conn p).score.Ok) :
    (conn ((List.range (conn p).tx.queue.length).foldl f p)).score.Ok := by
  suffices hwalk : ∀ (is : List Nat) (q : β), (conn q).score.Ok →
      (∀ i ∈ is, i < (conn q).tx.queue.length) → (conn (is.foldl f q)).score.Ok from
    hwalk _ p h fun i hi => List.mem_range.mp hi
  intro is
  induction is with
  | nil => exact fun q hq _ => hq
  | cons i is ih =>
    intro q hq his
    rw [List.forall_mem_cons] at his
    refine ih (f q i) ?_ ?_
    all_goals rcases hstep q i with he | he
    all_goals rw [he]
    · exact hq
    · exact hq.markSkbLost his.1
    · exact his.2
    · simpa only [length_markSkbLost] using his.2

section

variable (h : c.score.Ok)

include h

theorem score_ok_rackDetectLoss (nowUs : Nat) : (c.rackDetectLoss nowUs).1.score.Ok := by
  refine score_ok_markWalk Prod.fst (fun p i => ?_) (c, 0) h
  simp only [rackDetectOne]
  repeat' split
  all_goals simp

theorem score_ok_rackMarkLost (now nowUs : Nat) : (c.rackMarkLost now nowUs).2.score.Ok := by
  rw [rackMarkLost]
  split
  · exact h
  dsimp only
  have hd : (rackDetectLoss { c with tx := { c.tx with
      rack := { c.tx.rack with advanced := false } } } nowUs).1.score.Ok := by
    refine score_ok_rackDetectLoss ?_ nowUs
    exact h
  split
  · rw [score_resetXmitTimer]
    exact hd
  · exact hd

theorem score_ok_newrenoMarkLost (hq : 0 < c.tx.queue.length) (adv : Bool) :
    (c.newrenoMarkLost adv).score.Ok := by
  rw [newrenoMarkLost]
  split
  · split
    · exact h
    · exact h.markSkbLost hq
  · exact h

variable (flag : Flags)

theorem score_ok_identifyPacketLoss (now nowUs : Nat) :
    (c.identifyPacketLoss flag now nowUs).1.score.Ok := by
  rw [identifyPacketLoss]
  split
  · exact h
  rename_i hne
  have hq : 0 < c.tx.queue.length := by
    rw [List.isEmpty_iff] at hne
    exact List.length_pos_iff.mpr hne
  split
  · exact score_ok_newrenoMarkLost h hq _
  · exact score_ok_rackMarkLost h now nowUs

/-! ## Without SACK -/

theorem score_ok_checkRenoReordering (hr : c.isReno = true) (addend : Nat) :
    (c.checkRenoReordering addend).score.Ok := by
  simp only [checkRenoReordering, limitRenoSacked]
  split
  · exact score_ok_reno h hr _
  · exact h

theorem score_ok_addRenoSack (hr : c.isReno = true) (n : Nat) : (c.addRenoSack n).score.Ok := by
  rw [addRenoSack]
  split
  · exact h
  · refine score_ok_checkRenoReordering ?_ ?_ 0
    · exact score_ok_reno h hr _
    · exact hr

theorem score_ok_removeRenoSacks (hr : c.isReno = true) (acked : Nat) :
    (c.removeRenoSacks acked).score.Ok := by
  simp only [removeRenoSacks]
  split
  · refine score_ok_checkRenoReordering ?_ ?_ acked
    · exact score_ok_reno h hr _
    · exact hr
  · exact score_ok_checkRenoReordering h hr acked

theorem score_ok_clearRenoSacks : c.clearRenoSacks.score.Ok := by
  rw [clearRenoSacks]
  split
  · rename_i hr
    exact score_ok_reno h hr 0
  · exact h

/-! ## The state machine -/

theorem score_ok_processFrto (dup : Nat) (recovered : Bool) (now : Nat) :
    (c.processFrto flag dup recovered now).2.1.score.Ok := by
  rw [processFrto]
  split
  · exact h
  dsimp only
  -- The undo of step 3.b, tried or not.
  generalize hr : (if flag.origSackAcked then _ else _ : Bool × TcpConn) = r
  have hundo : r.2.score.Ok := by
    rw [← hr]
    split
    · exact score_ok_tryUndoLoss h true now
    · exact h
  repeat' split
  all_goals exact hundo

theorem score_ok_processLoss (dup now : Nat) : (c.processLoss flag dup now).1.score.Ok := by
  rw [processLoss]
  dsimp only
  generalize hr : (if flag.sndUnaAdvanced then _ else _ : Bool × TcpConn) = r
  have hundo : r.2.score.Ok := by
    rw [← hr]
    split
    · exact score_ok_tryUndoLoss h false now
    · exact h
  split
  · exact hundo
  have hfrto := score_ok_processFrto hundo flag dup (!seqBefore c.sndUna c.highSeq) now
  generalize r.2.processFrto flag dup (!seqBefore c.sndUna c.highSeq) now = f at hfrto ⊢
  split
  · exact hfrto
  split
  · exact score_ok_tryUndoRecovery hfrto now
  split
  · rename_i hr
    split
    · exact score_ok_addRenoSack hfrto hr dup
    · split
      · exact score_ok_reno hfrto hr 0
      · exact hfrto
  · exact hfrto

theorem score_ok_exitState (now : Nat) : (c.exitState now).2.score.Ok := by
  rw [exitState]
  split
  · exact h
  split
  · split
    · exact (congrArg Score.Ok (c.score_endCwndReduction now)).mpr h
    · exact h
  · split
    · have hr := score_ok_tryUndoRecovery (score_ok_clearRenoSacks h) now
      dsimp only
      split
      · exact hr
      · rw [score_endCwndReduction]
        exact hr
    · exact h

theorem score_ok_openPath (dup now nowUs : Nat) : (c.openPath flag dup now nowUs).1.score.Ok := by
  rw [openPath]
  dsimp only
  -- The duplicate ACKs, counted only without SACK.
  generalize hd : (if c.isReno then _ else c : TcpConn) = d
  have hdup : d.score.Ok := by
    rw [← hd]
    split
    · rename_i hr
      refine score_ok_addRenoSack ?_ ?_ dup
      · split
        · exact score_ok_reno h hr 0
        · exact h
      · split <;> exact hr
    · exact h
  generalize he : (if d.caState.rank ≤ CaState.disorder.rank then _ else d : TcpConn) = e
  have hdsack : e.score.Ok := by
    rw [← he]
    split
    · exact score_ok_tryUndoDsack hdup now
    · exact hdup
  have hid := score_ok_identifyPacketLoss hdsack flag now nowUs
  split
  · rw [score_tryToOpen]
    exact hid
  · rw [score_enterRecovery]
    exact hid

theorem score_ok_inRecovery (priorUna : Nat) (flag : Flags) (dup now nowUs : Nat) :
    (c.inRecovery priorUna flag dup now nowUs).1.score.Ok := by
  rw [inRecovery]
  dsimp only
  generalize hr : (if ¬ flag.sndUnaAdvanced then _ else _ : Bool × TcpConn) = r
  have hpartial : r.2.score.Ok := by
    rw [← hr]
    split
    · split
      · rename_i hr
        exact score_ok_addRenoSack h hr dup
      · exact h
    · exact score_ok_tryUndoPartial h priorUna now
  split
  · exact hpartial
  have hdsack := score_ok_tryUndoDsack hpartial now
  generalize hd : (if (r.2.tryUndoDsack now).1 then _ else _ : TcpConn) = d
  have hopen : d.score.Ok := by
    rw [← hd]
    split
    · rw [score_tryToOpen]
      exact hdsack
    · exact hdsack
  have hid := score_ok_identifyPacketLoss hopen flag now nowUs
  split
  · split
    · exact hid
    · rw [score_enterRecovery]
      exact hid
  · exact hid

/-- **`fastretrans_alert` keeps the scoreboard**, in every state and for every ACK. -/
theorem score_ok_fastretransAlert (priorUna dup : Nat) (flag : Flags) (now nowUs : Nat) :
    (c.fastretransAlert priorUna dup flag now nowUs).1.score.Ok := by
  rw [fastretransAlert]
  dsimp only
  generalize hd : (if c.tx.packetsOut = 0 ∧ c.tx.sackedOut ≠ 0 then _ else c : TcpConn) = d
  -- With nothing out there is no tag left to count.
  have hclear : d.score.Ok := by
    rw [← hd]
    split
    · rename_i hz
      have hq : c.tx.queue = [] := by
        have hp : c.tx.packetsOut = c.tx.queue.length := h.packets
        exact List.length_eq_zero_iff.mp (hp ▸ hz.1)
      refine { h with sacked := fun _ => ?_ }
      show 0 = tagged (·.acked) c.tx.queue
      rw [hq, tagged_nil]
    · exact h
  split
  · rw [score_resetXmitTimer]
    exact hclear
  have hexit := score_ok_exitState hclear now
  generalize d.exitState now = r at hexit ⊢
  split
  · exact hexit
  split
  · exact score_ok_inRecovery hexit priorUna flag dup now nowUs
  · -- Loss: the timeout may turn out spurious, or a new loss may follow.
    have hloss := score_ok_processLoss hexit flag dup now
    have hid := score_ok_identifyPacketLoss hloss flag now nowUs
    split
    · exact score_ok_openPath hid _ dup now nowUs
    · exact hid
  · exact score_ok_openPath hexit flag dup now nowUs

end

end TcpConn

end NopeekOS.Net.Tcp
