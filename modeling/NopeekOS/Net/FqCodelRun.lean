import NopeekOS.Lib.Run
import NopeekOS.Net.FqCodelSched

/-!
# Runs of the transmit queue

What became of every frame the queue took: per flow, the frames taken are the ones settled so far,
in order, followed by the ones still queued (`Ledger`). A settled frame was delivered, dropped by
CoDel, dropped to make room, or thrown away by `clear`; the two drop counters count the second and
the third. Together with the pool and the scheduler this is kept by every call (`Good`).
-/

namespace NopeekOS.Net.Fq

open Lib Function List
open Prod (fst snd)

/-- What became of a frame. -/
inductive Fate where
  | delivered
  | aqm
  | full
  | cleared
  deriving DecidableEq, Repr

namespace FqCodel

/-- How many frames had a fate. -/
def fates (x : Fate) (done : Nat → List (List Byte × Fate)) : Nat :=
  ∑ f ∈ Finset.range FLOWS, (done f).countP fun e => e.2 = x

/-- **The accounts.** `taken` are the frames the queue took and `sent` those it delivered, oldest
first; `done` says per flow what became of the frames that are no longer queued. -/
structure Ledger (q : FqCodel) (fifo : Nat → List Nat) (done : Nat → List (List Byte × Fate))
    (taken sent : List (List Byte)) : Prop where
  taken : ∀ f < FLOWS, taken.filter (flowOf · = f) = (done f).map fst ++ (fifo f).map q.frameAt
  sent : ∀ f < FLOWS, sent.filter (flowOf · = f) = ((done f).filter (·.2 = .delivered)).map fst
  aqm : q.dropsAqm = fates .aqm done % 2 ^ 64
  full : q.dropsFull = fates .full done % 2 ^ 64

/-- The stored frames, the counters of drops and the clock are the same. -/
structure Stored (q q' : FqCodel) : Prop where
  bufs : q'.bufs = q.bufs
  lens : q'.lens = q.lens
  aqm : q'.dropsAqm = q.dropsAqm
  full : q'.dropsFull = q.dropsFull
  interval : q'.interval = q.interval

theorem Stored.frameAt {q q' : FqCodel} (h : Stored q q') : q'.frameAt = q.frameAt := by
  funext s
  rw [FqCodel.frameAt, FqCodel.frameAt, h.bufs, h.lens]

theorem flowOf_lt (frame : List Byte) : flowOf frame < FLOWS := by
  rw [flowOf, BitVec.toNat_and]
  exact Nat.lt_succ_of_le Nat.and_le_right

namespace Ledger

variable {q q' : FqCodel} {fifo : Nat → List Nat} {done : Nat → List (List Byte × Fate)}
  {taken sent : List (List Byte)} {f : Nat}

/-- The frames of a flow hash to it. -/
theorem flowOf_eq (h : Ledger q fifo done taken sent) (hf : f < FLOWS) {s : Nat} (hs : s ∈ fifo f) :
    flowOf (q.frameAt s) = f := by
  have hmem : q.frameAt s ∈ taken.filter (flowOf · = f) := by
    rw [h.taken f hf]
    exact mem_append_right _ (mem_map_of_mem hs)
  simpa using (mem_filter.mp hmem).2

theorem fates_update (x : Fate) (done : Nat → List (List Byte × Fate)) (hf : f < FLOWS)
    (ys : List (List Byte × Fate)) :
    fates x (update done f (done f ++ ys)) = fates x done + ys.countP fun e => e.2 = x := by
  have hsum := sum_update (fun l => l.countP fun e : List Byte × Fate => e.2 = x) done hf
    (done f ++ ys)
  simp only [countP_append] at hsum
  rw [fates, fates]
  omega

section

variable (h : Ledger q fifo done taken sent)

include h

/-- The head of a flow is settled, with the fates `ys`. -/
theorem settle (hf : f < FLOWS) {xs rest : List Nat} (hfifo : fifo f = xs ++ rest)
    {ys : List (List Byte × Fate)} (hys : ys.map fst = xs.map q.frameAt)
    (hframe : q'.frameAt = q.frameAt)
    (haqm : q'.dropsAqm = (q.dropsAqm + ys.countP fun e => e.2 = .aqm) % 2 ^ 64)
    (hfull : q'.dropsFull = (q.dropsFull + ys.countP fun e => e.2 = .full) % 2 ^ 64) :
    Ledger q' (update fifo f rest) (update done f (done f ++ ys)) taken
      (sent ++ (ys.filter (·.2 = .delivered)).map fst) := by
  have hflow : ∀ y ∈ ys, flowOf y.1 = f := by
    intro y hy
    have hmem : y.1 ∈ xs.map q.frameAt := hys ▸ mem_map_of_mem hy
    obtain ⟨s, hs, he⟩ := mem_map.mp hmem
    rw [← he]
    exact h.flowOf_eq hf (hfifo ▸ mem_append_left _ hs)
  refine ⟨fun g hg => ?_, fun g hg => ?_, ?_, ?_⟩
  · by_cases hgf : g = f
    · subst hgf
      rw [update_self, update_self, h.taken g hg, hfifo, hframe]
      simp [hys]
    · rw [update_of_ne hgf, update_of_ne hgf, hframe]
      exact h.taken g hg
  · rw [filter_append, h.sent g hg]
    by_cases hgf : g = f
    · subst hgf
      rw [update_self, filter_append, map_append]
      congr 1
      refine filter_eq_self.mpr fun x hx => ?_
      obtain ⟨y, hy, rfl⟩ := mem_map.mp hx
      simpa using hflow y (mem_filter.mp hy).1
    · rw [update_of_ne hgf]
      have hnone : ((ys.filter (·.2 = .delivered)).map fst).filter (flowOf · = g) = [] := by
        refine filter_eq_nil_iff.mpr fun x hx => ?_
        obtain ⟨y, hy, rfl⟩ := mem_map.mp hx
        have := hflow y (mem_filter.mp hy).1
        simp [this, Ne.symm hgf]
      rw [hnone, append_nil]
  · rw [haqm, h.aqm, Nat.mod_add_mod, fates_update .aqm done hf]
  · rw [hfull, h.full, Nat.mod_add_mod, fates_update .full done hf]

/-- Other fields do not matter. -/
theorem congr (hs : Stored q q') : Ledger q' fifo done taken sent :=
  ⟨fun f hf => hs.frameAt ▸ h.taken f hf, h.sent, hs.aqm.trans h.aqm, hs.full.trans h.full⟩

theorem aqm_lt : q.dropsAqm < 2 ^ 64 :=
  h.aqm ▸ Nat.mod_lt _ (by decide)

theorem full_lt : q.dropsFull < 2 ^ 64 :=
  h.full ▸ Nat.mod_lt _ (by decide)

end

end Ledger

/-- What the queue holds and what became of the rest. -/
structure Books where
  free : List Nat
  fifo : Nat → List Nat
  newL : List Nat
  oldL : List Nat
  done : Nat → List (List Byte × Fate)

/-- **The invariant** of a queue that is in use. -/
structure Good (q : FqCodel) (g : Books) (taken sent : List (List Byte)) : Prop where
  pool : Pool q [] g.free g.fifo
  sched : Sched q g.fifo g.newL g.oldL
  ledger : Ledger q g.fifo g.done taken sent

/-! ## Dequeue -/

section Dequeue

variable {q : FqCodel} {g : Books} {taken sent : List (List Byte)} {f : Nat} {fromNew : Bool}
  {hand free : List Nat} {fifo : Nat → List Nat} {p : FqCodel}

section

variable (h : Pool q hand free fifo)

include h

theorem Pool.empty_of_backlog (hb : q.backlog = 0) (hf : f < FLOWS) : fifo f = [] := by
  cases hfifo : fifo f with
  | nil => rfl
  | cons s rest =>
    have hpos := (h.sized f hf s (hfifo ▸ mem_cons_self)).1
    have hle := le_sum (fun l => (l.map q.lens).sum) fifo hf
    have := h.bytes
    simp only [hfifo, map_cons, sum_cons] at hle
    omega

theorem Pool.backlog_of_empty (he : ∀ f < FLOWS, fifo f = []) : q.backlog = 0 := by
  rw [h.bytes]
  refine Finset.sum_eq_zero fun f hf => ?_
  rw [he f (Finset.mem_range.mp hf)]
  rfl

/-- A turn without a packet moves no slot. -/
theorem Pool.popPicked : Pool (q.popPicked fromNew) hand free fifo := by
  cases fromNew <;> exact { h with }

theorem Pool.pushOld : Pool (q.pushOld f) hand free fifo := by
  have hset : Pool (q.setFlow f { q.flows f with inList := .old }) hand free fifo :=
    h.setFlow rfl rfl
  exact { hset with }

theorem Pool.rotate : Pool (q.rotate fromNew f) hand free fifo := by
  have hset : Pool (q.setFlow f { q.flows f with deficit := (q.flows f).deficit + QUANTUM })
      hand free fifo := h.setFlow rfl rfl
  exact hset.popPicked.pushOld

theorem Pool.drained : Pool (q.drained fromNew f) hand free fifo := by
  unfold FqCodel.drained
  dsimp only
  split
  · exact h.popPicked.pushOld
  · exact h.popPicked.setFlow rfl rfl

end

theorem stored_drained (q : FqCodel) (fromNew : Bool) (f : Nat) :
    Stored q (q.drained fromNew f) ∧ (q.drained fromNew f).backlog = q.backlog := by
  unfold FqCodel.drained
  dsimp only
  split <;> cases fromNew <;> exact ⟨⟨rfl, rfl, rfl, rfl, rfl⟩, rfl⟩

theorem stored_rotate (q : FqCodel) (fromNew : Bool) (f : Nat) :
    Stored q (q.rotate fromNew f) ∧ (q.rotate fromNew f).backlog = q.backlog := by
  cases fromNew <;> exact ⟨⟨rfl, rfl, rfl, rfl, rfl⟩, rfl⟩

/-- Packets left the flow `f`. -/
theorem Sched.left {newL oldL rest : List Nat} (h : Sched q fifo newL oldL)
    (hs : Same q p) (hrest : rest ≠ [] → fifo f ≠ []) :
    Sched p (update fifo f rest) newL oldL := by
  refine h.same hs fun x hx => ?_
  by_cases hxf : x = f
  · subst hxf
    rw [update_self] at hx
    exact hrest hx
  · rwa [update_of_ne hxf] at hx

/-- A flow is charged for a packet. -/
theorem Sched.charge {newL oldL : List Nat} (h : Sched q fifo newL oldL) {len : Nat}
    (hf : f < FLOWS) (hdef : 0 < (q.flows f).deficit) (hlen : len ≤ MTU) :
    Sched (q.setFlow f { q.flows f with deficit := (q.flows f).deficit - len }) fifo newL oldL := by
  refine h.move hf h.newRing h.oldRing h.nodup (fun g hg => by simp [setFlow, hg])
    (fun _ _ => ⟨.rfl, .rfl⟩) (fun _ _ => id) ?_ (h.busy f hf) ?_
  · simpa [setFlow] using h.inList f hf
  · have := h.deficit f hf
    simp only [setFlow, update_self]
    omega

/-- The frames a call handed out. -/
def sentBy : Option (Nat × List Byte) → List (List Byte)
  | none => []
  | some (len, out) => [out.take len]

/-- The frames CoDel dropped. -/
def aqmFates (q : FqCodel) (slots : List Nat) : List (List Byte × Fate) :=
  slots.map fun s => (q.frameAt s, .aqm)

theorem aqmFates_fst (q : FqCodel) (slots : List Nat) :
    (q.aqmFates slots).map fst = slots.map q.frameAt := by
  simp [aqmFates, Function.comp_def]

theorem aqmFates_countP (q : FqCodel) (slots : List Nat) :
    ((q.aqmFates slots).countP fun e => e.2 = .aqm) = slots.length ∧
      ((q.aqmFates slots).countP fun e => e.2 = .full) = 0 ∧
      (q.aqmFates slots).filter (·.2 = .delivered) = [] := by
  refine ⟨?_, ?_, ?_⟩ <;> simp [aqmFates, countP_map, Function.comp_def]

/-- A packet is handed out. -/
theorem Good.deliver (h : Good q g taken sent) (hf : f < FLOWS) (hdef : 0 < (q.flows f).deficit)
    {s : Nat} (ht : Taken q g.fifo f (g.fifo f) (some s, p)) (out : List Byte) :
    ∃ g', Good (p.deliver f s out).2 g' taken (sent ++ sentBy (some (p.deliver f s out).1)) ∧
      (p.deliver f s out).2.interval = q.interval := by
  obtain ⟨hsame, dropped, rest, free, hsplit, -, hpool, haqm⟩ := ht
  have hmem : s ∈ g.fifo f := by
    rw [hsplit]
    simp
  have hsize := h.pool.sized f hf s hmem
  rw [← hsame.lens] at hsize
  have hroom : p.lens s ≤ (p.bufs s).length := by
    rw [hpool.room s]
    exact hsize.2
  -- The bytes handed out are the frame.
  have hframe : (((p.bufs s).take (p.lens s) ++ out.drop (p.lens s)).take (p.lens s)) =
      q.frameAt s := by
    rw [← hsame.frameAt, frameAt]
    rw [take_append_of_le_length (by simpa using hroom)]
    simp
  have hsched : Sched (p.deliver f s out).2 (update g.fifo f rest) g.newL g.oldL := by
    have hs : Sched p (update g.fifo f rest) g.newL g.oldL :=
      h.sched.left hsame fun _ => ne_nil_of_mem hmem
    have hc := hs.charge hf (by rw [hsame.deficit]; exact hdef) hsize.2
    exact { hc with }
  have hcharged : Pool (p.setFlow f { p.flows f with deficit := (p.flows f).deficit - p.lens s }) [s]
      free (update g.fifo f rest) := hpool.setFlow rfl rfl
  obtain ⟨hc1, hc2, hc3⟩ := aqmFates_countP q dropped
  have hys : (q.aqmFates dropped ++ [(q.frameAt s, Fate.delivered)]).map fst =
      (dropped ++ [s]).map q.frameAt := by
    rw [map_append, aqmFates_fst, map_append]
    rfl
  have hsameFrame : (p.deliver f s out).2.frameAt = q.frameAt := hsame.frameAt
  have hledger := h.ledger.settle hf hsplit hys hsameFrame
    (by
      rw [countP_append, hc1]
      exact haqm)
    (by
      rw [countP_append, hc2]
      exact hsame.full.trans (Nat.mod_eq_of_lt h.ledger.full_lt).symm)
  rw [filter_append, hc3] at hledger
  have hsent : sentBy (some (p.deliver f s out).1) = [q.frameAt s] := by
    rw [← hframe]
    rfl
  rw [hsent]
  exact ⟨⟨s :: free, update g.fifo f rest, g.newL, g.oldL, _⟩,
    ⟨hcharged.freeSlot, hsched, hledger⟩, hsame.interval⟩

/-- A flow was found empty, after CoDel dropped what it had. -/
theorem Good.drain (h : Good q g taken sent) (hpick : q.pick = some (fromNew, f))
    (hdef : 0 < (q.flows f).deficit) (ht : Taken q g.fifo f (g.fifo f) (none, p)) :
    ∃ g', Good (p.drained fromNew f) g' taken sent ∧
      (p.drained fromNew f).weight g'.newL g'.oldL < q.weight g.newL g.oldL ∧
      (p.drained fromNew f).interval = q.interval ∧
      ((p.drained fromNew f).backlog = 0 → q.backlog = 0) := by
  have hf := (h.sched.popped hpick).1
  obtain ⟨hsame, dropped, rest, free, hsplit, hnone, hpool, haqm⟩ := ht
  obtain ⟨rfl, hleft⟩ := hnone rfl
  dsimp only at hsplit hpool haqm hsame hleft
  simp only [Option.toList_none, append_nil] at hsplit hpool
  have hs : Sched p (update g.fifo f []) g.newL g.oldL :=
    h.sched.left hsame fun hne => absurd rfl hne
  have hpick' : p.pick = some (fromNew, f) := by
    rw [← hpick, pick, pick, hsame.newQ, hsame.oldQ]
  obtain ⟨newL', oldL', hsched, hweight⟩ := hs.drained hpick' (by rw [hsame.deficit]; exact hdef)
    (update_self _ _ _)
  obtain ⟨hstored, hback⟩ := stored_drained p fromNew f
  obtain ⟨hc1, hc2, hc3⟩ := aqmFates_countP q dropped
  have hall : g.fifo f = dropped ++ [] := by
    rw [append_nil]
    exact hsplit
  have hledger := h.ledger.settle hf hall (aqmFates_fst q dropped)
    (hstored.frameAt.trans hsame.frameAt) (by rw [hstored.aqm, haqm, hc1])
    (by
      rw [hstored.full, hsame.full, hc2, Nat.add_zero]
      exact (Nat.mod_eq_of_lt h.ledger.full_lt).symm)
  rw [hc3, map_nil, append_nil] at hledger
  refine ⟨⟨free, update g.fifo f [], newL', oldL', _⟩, ⟨hpool.drained, hsched, hledger⟩, ?_,
    hstored.interval.trans hsame.interval, fun hb => ?_⟩
  · have hw : p.weight g.newL g.oldL = q.weight g.newL g.oldL :=
      weight_congr fun x _ => hsame.deficit x
    exact hw ▸ hweight
  · rcases hleft with ⟨-, hl⟩ | hl
    · rw [← hl, ← hback, hb]
    · omega

/-- **The loop of `dequeue`** ends within as many turns as the scheduler's weight allows; it keeps
the invariant, and it comes back without a frame only if nothing was queued. -/
theorem dequeueLoop_spec (now : Nat) (out : List Byte) (fuel : Nat) (q : FqCodel) (g : Books)
    (h : Good q g taken sent) (hw : q.weight g.newL g.oldL < fuel) :
    ∃ r p, dequeueLoop now out fuel q = some (r, p) ∧
      (∃ g', Good p g' taken (sent ++ sentBy r)) ∧ (r = none → q.backlog = 0) ∧
      p.interval = q.interval := by
  induction fuel generalizing q g with
  | zero => omega
  | succ fuel ih =>
    rw [dequeueLoop]
    cases hpick : q.pick with
    | none =>
      refine ⟨none, q, rfl, ⟨g, ?_⟩, fun _ => h.pool.backlog_of_empty fun f hf => ?_, rfl⟩
      · rw [sentBy, append_nil]
        exact h
      · by_contra hne
        have := h.sched.busy f hf hne
        rw [h.sched.pick_none hpick] at this
        cases this
    | some turn =>
      obtain ⟨fromNew, f⟩ := turn
      dsimp only
      have hf := (h.sched.popped hpick).1
      by_cases hdef : (q.flows f).deficit ≤ 0
      · -- Behind the others.
        rw [if_pos hdef]
        obtain ⟨newL', oldL', hsched, hweight⟩ := h.sched.rotate hpick hdef
        obtain ⟨hstored, hback⟩ := stored_rotate q fromNew f
        obtain ⟨r, p, hr, hgood, hnone, hp⟩ := ih (q.rotate fromNew f)
          ⟨g.free, g.fifo, newL', oldL', g.done⟩
          ⟨h.pool.rotate, hsched, h.ledger.congr hstored⟩ (by
            dsimp only
            omega)
        exact ⟨r, p, hr, hgood, fun hn => hback ▸ hnone hn, hp.trans hstored.interval⟩
      · rw [if_neg hdef]
        have hdef : 0 < (q.flows f).deficit := not_le.mp hdef
        obtain ⟨⟨slot, p⟩, hr, htaken⟩ := codelDequeue_spec h.pool hf h.ledger.aqm_lt now
        rw [hr]
        dsimp only [Option.bind_some, bind]
        cases slot with
        | some s =>
          obtain ⟨g', hgood, hint⟩ := h.deliver hf hdef htaken out
          exact ⟨_, _, rfl, ⟨g', hgood⟩, fun hn => absurd hn (Option.some_ne_none _), hint⟩
        | none =>
          obtain ⟨g', hgood, hweight, hint, hback⟩ := h.drain hpick hdef htaken
          obtain ⟨r, p', hr', hgood', hnone, hp⟩ := ih (p.drained fromNew f) g' hgood (by omega)
          exact ⟨r, p', hr', hgood', fun hn => hback (hnone hn), hp.trans hint⟩

end Dequeue

/-! ## Enqueue -/

section Enqueue

variable {q p : FqCodel} {g : Books} {taken sent : List (List Byte)} {f s : Nat}
  {free : List Nat} {fifo : Nat → List Nat} {newL oldL : List Nat}
  {done : Nat → List (List Byte × Fate)} {frame : List Byte}

/-- A flow with a new packet joins the new flows, unless it is in a list already. -/
theorem Sched.activate (h : Sched q fifo newL oldL) (hs : Same q p) (hf : f < FLOWS)
    (xs : List Nat) :
    ∃ newL', Sched (p.activate f) (update fifo f xs) newL' oldL := by
  have hin : (p.flows f).inList = if f ∈ newL then .new else if f ∈ oldL then .old else .none :=
    (hs.inList f).trans (h.inList f hf)
  have hfifo : ∀ g, g ≠ f → update fifo f xs g ≠ [] → fifo g ≠ [] := by
    intro g hg
    rw [update_of_ne hg]
    exact id
  unfold FqCodel.activate
  by_cases hmem : f ∈ newL ++ oldL
  · -- Its turn will come.
    have hne : (p.flows f).inList ≠ .none := by
      rw [hin]
      rcases mem_append.mp hmem with hm | hm
      · rw [if_pos hm]
        decide
      · rw [if_pos hm]
        split <;> decide
    rw [if_neg hne]
    refine ⟨newL, h.move hf (hs.newQ ▸ h.newRing) (hs.oldQ ▸ h.oldRing) h.nodup
      (fun g _ => ⟨hs.inList g, hs.deficit g⟩) (fun _ _ => ⟨.rfl, .rfl⟩) hfifo hin (fun _ => hmem) ?_⟩
    rw [hs.deficit]
    exact h.deficit f hf
  · have hnew : f ∉ newL := fun hm => hmem (mem_append_left _ hm)
    have hold : f ∉ oldL := fun hm => hmem (mem_append_right _ hm)
    have hnone : (p.flows f).inList = .none := by rw [hin, if_neg hnew, if_neg hold]
    have hroom := h.length_lt hf hmem
    rw [if_pos hnone]
    have hring : p.newQ.Holds (FLOWS + 1) newL := hs.newQ ▸ h.newRing
    have hperm : (newL ++ [f] ++ oldL).Perm (f :: (newL ++ oldL)) := by
      rw [append_assoc]
      exact perm_middle
    refine ⟨newL ++ [f], h.move hf (hring.push (by omega)) (hs.oldQ ▸ h.oldRing) ?_ (fun g hg => ?_)
      (fun g hg => by simp [hg]) hfifo (by simp [setFlow]) (fun _ => by simp) ?_⟩
    · rw [hperm.nodup_iff]
      exact nodup_cons.mpr ⟨hmem, h.nodup⟩
    · simp [setFlow, hg, hs.inList, hs.deficit]
    · simp only [setFlow, update_self]
      decide

/-- Appending and activating leave the stored frames and the counters alone. -/
theorem stored_push (q : FqCodel) (f s len : Nat) : Stored q ((q.append f s len).activate f) := by
  unfold FqCodel.append FqCodel.activate
  dsimp only
  split <;> split <;> exact ⟨rfl, rfl, rfl, rfl, rfl⟩

theorem Pool.activate (h : Pool q [] free fifo) : Pool (q.activate f) [] free fifo := by
  unfold FqCodel.activate
  dsimp only
  split
  · have hset : Pool (q.setFlow f { q.flows f with
        deficit := QUANTUM, inList := .new, codel := { (q.flows f).codel with dropping := false } })
        [] free fifo := h.setFlow rfl rfl
    exact { hset with }
  · exact h

theorem Sched.append (h : Sched q fifo newL oldL) (hf : f < FLOWS) (s len : Nat) (frame : List Byte)
    (now : Nat) : Sched ((q.store s frame now).append f s len) fifo newL oldL := by
  unfold FqCodel.append
  dsimp only
  split
  all_goals
    refine h.move hf h.newRing h.oldRing h.nodup (fun g hg => by simp [setFlow, store, hg])
      (fun _ _ => ⟨.rfl, .rfl⟩) (fun _ _ => id) ?_ (h.busy f hf) ?_
    · simpa [setFlow, store] using h.inList f hf
    · simpa [setFlow, store] using h.deficit f hf

/-- A frame is taken into the slot in hand. -/
theorem Good.push (hpool : Pool q [s] free fifo) (hsched : Sched q fifo newL oldL)
    (hledger : Ledger q fifo done taken sent) (hpos : 0 < frame.length)
    (hlen : frame.length ≤ MTU) (now : Nat) :
    let p := ((q.store s frame now).append (flowOf frame) s frame.length).activate (flowOf frame)
    ∃ g', Good p g' (taken ++ [frame]) sent ∧ p.interval = q.interval := by
  have hf := flowOf_lt frame
  generalize hfl : flowOf frame = f at hf ⊢
  have hlens : (q.store s frame now).lens s = frame.length := update_self _ _ _
  have happend := (hpool.store hlen now).append hf (update_self _ _ _)
    (hlens.symm ▸ ⟨hpos, hlen⟩)
  rw [hlens] at happend
  obtain ⟨newL', hact⟩ := (hsched.append hf s frame.length frame now).activate (Same.refl _) hf
    (fifo f ++ [s])
  have hpush := stored_push (q.store s frame now) f s frame.length
  have hstored : Ledger (q.store s frame now) (update fifo f (fifo f ++ [s])) done
      (taken ++ [frame]) sent := by
    refine { hledger with taken := fun x hx => ?_ }
    have hold : (fifo x).map (q.store s frame now).frameAt = (fifo x).map q.frameAt := by
      refine map_congr_left fun y hy => ?_
      have hne : y ≠ s := fun he => hpool.hand_not_fifo hx (he ▸ hy)
      simp [frameAt, store, hne]
    rw [filter_append, hledger.taken x hx]
    by_cases hxf : x = f
    · subst hxf
      rw [update_self, map_append, hold, map_singleton]
      simp [hfl, frameAt, store]
    · rw [update_of_ne hxf, hold]
      simp [hfl, Ne.symm hxf]
  exact ⟨⟨free, update fifo f (fifo f ++ [s]), newL', oldL, done⟩,
    ⟨happend.activate, hact, hstored.congr hpush⟩, hpush.interval⟩

/-- **A frame that fits is always taken**: if the pool is full another one goes. -/
theorem Good.take (h : Good q g taken sent) (hpos : 0 < frame.length)
    (hlen : frame.length ≤ MTU) (now : Nat) :
    ∃ s p, q.slotFor = some (some s, p) ∧
      let p := ((p.store s frame now).append (flowOf frame) s frame.length).activate (flowOf frame)
      ∃ g', Good p g' (taken ++ [frame]) sent ∧ p.interval = q.interval := by
  obtain ⟨r, hr, hslot⟩ := slotFor_spec h.pool
  cases hslot with
  | @free s p free hpool hsame haqm =>
    have hsched := h.sched.same hsame fun _ hx => hx
    have hledger := h.ledger.congr { hsame with aqm := haqm }
    obtain ⟨g', hgood, hint⟩ := Good.push hpool hsched hledger hpos hlen now
    exact ⟨s, p, hr, g', hgood, hint.trans hsame.interval⟩
  | @full f s rest free p hf hhead hpool hsame haqm hcount =>
    have hsched : Sched p (update g.fifo f rest) g.newL g.oldL := by
      have hs : Sched { p with dropsFull := q.dropsFull } (update g.fifo f rest) g.newL
          g.oldL := h.sched.left hsame fun _ => hhead ▸ cons_ne_nil s rest
      exact { hs with }
    have hframe : p.frameAt = q.frameAt := hsame.frameAt
    have hhead' : g.fifo f = [s] ++ rest := hhead
    have hys : [(q.frameAt s, Fate.full)].map fst = [s].map q.frameAt := rfl
    have hledger := h.ledger.settle hf hhead' hys hframe
      (haqm.trans (Nat.mod_eq_of_lt h.ledger.aqm_lt).symm) hcount
    rw [show (List.filter (fun e : List Byte × Fate => e.2 = .delivered) [(q.frameAt s, .full)]) = []
      from rfl, map_nil, append_nil] at hledger
    obtain ⟨g', hgood, hint⟩ := Good.push hpool hsched hledger hpos hlen now
    exact ⟨s, p, hr, g', hgood, hint.trans hsame.interval⟩

end Enqueue

/-! ## Runs -/

/-- The queue as the next call finds it: `lazy_init` sets up the lists on the first one. -/
def ready (q : FqCodel) : FqCodel := if q.interval = 0 then q.setup else q

/-- The queue with the frames it took and those it handed out. -/
structure State where
  q : FqCodel
  taken : List (List Byte)
  sent : List (List Byte)

/-- A call, with the counter's frequency and value. -/
inductive Event where
  | enqueue (hz now : Nat) (frame : List Byte)
  | dequeue (hz now : Nat) (out : List Byte)
  | clear

inductive Step : State → Event → State → Prop where
  | enqueue {s : State} {hz now : Nat} {frame : List Byte} {ok : Bool} {q : FqCodel}
      (h : s.q.enqueue hz now frame = some (ok, q)) :
      Step s (.enqueue hz now frame) ⟨q, if ok then s.taken ++ [frame] else s.taken, s.sent⟩
  | dequeue {s : State} {hz now : Nat} {out : List Byte} {r : Option (Nat × List Byte)} {q : FqCodel}
      (h : s.q.dequeue hz now out = some (r, q)) :
      Step s (.dequeue hz now out) ⟨q, s.taken, s.sent ++ sentBy r⟩
  | clear (s : State) : Step s .clear ⟨s.q.clear, s.taken, s.sent⟩

/-- Before the first call. -/
def State.new : State := ⟨.new, [], []⟩

/-- The counter runs at 10 Hz at least, so that the interval of 100 ms is not zero ticks. -/
def Event.Ticks : Event → Prop
  | .enqueue hz _ _ => 10 ≤ hz
  | .dequeue hz _ _ => 10 ≤ hz
  | .clear => True

section Runs

variable {s : State} {g : Books} {hz now : Nat} {taken sent : List (List Byte)} {q : FqCodel}
  {done : Nat → List (List Byte × Fate)}

/-- The pool, the scheduler and the accounts do not look at the clock. -/
theorem Good.clock (h : Good q g taken sent) (target interval oversize : Nat) :
    Good { q with target := target, interval := interval, dropsOversize := oversize } g taken sent where
  pool := { h.pool with }
  sched := { h.sched with }
  ledger := { h.ledger with }

theorem Good.lazyInit (h : Good q.ready g taken sent) (hz : Nat) :
    Good (q.lazyInit hz) g taken sent := by
  rw [ready] at h
  rw [FqCodel.lazyInit]
  split
  · rename_i hi
    rw [if_pos hi] at h
    exact h.clock _ _ _
  · rename_i hi
    rwa [if_neg hi] at h

theorem lazyInit_interval (q : FqCodel) (hz : 10 ≤ now) : (q.lazyInit now).interval ≠ 0 := by
  rw [FqCodel.lazyInit]
  split
  · show max now 1 / 10 ≠ 0
    omega
  · assumption

theorem ready_of_interval (h : q.interval ≠ 0) : q.ready = q := if_neg h

theorem holds_new : FlowQ.new.Holds (FLOWS + 1) [] :=
  ⟨Nat.succ_pos _, Nat.succ_pos _, rfl, fun i hi => absurd hi (Nat.not_lt_zero i)⟩

theorem Sched.setup (hnew : q.newQ = .new) (hold : q.oldQ = .new) :
    Sched q.setup (fun _ => []) [] [] := by
  refine ⟨?_, ?_, nodup_nil, fun f hf => absurd hf not_mem_nil, fun f hf => ?_,
    fun f hf hne => absurd rfl hne, fun f hf => ?_⟩
  · show q.newQ.Holds (FLOWS + 1) []
    rw [hnew]
    exact holds_new
  · show q.oldQ.Holds (FLOWS + 1) []
    rw [hold]
    exact holds_new
  · simp [FqCodel.setup, Flow.new]
  · show 1 - (MTU : Int) ≤ 0 ∧ (0 : Int) ≤ QUANTUM
    decide

/-- An empty queue with accounts. -/
theorem Good.empty
    (hroom : ∀ s, (q.bufs s).length = MTU) (hnew : q.newQ = .new) (hold : q.oldQ = .new)
    (hb : q.backlog = 0) (hledger : Ledger q (fun _ => []) done taken sent) :
    ∃ g, Good q.setup g taken sent := by
  obtain ⟨free, hpool⟩ : ∃ free, Pool q.setup [] free fun _ => [] := ⟨_, Pool.setup hroom hb⟩
  exact ⟨⟨free, fun _ => [], [], [], done⟩, hpool, Sched.setup hnew hold, { hledger with }⟩

theorem Ledger.new : Ledger FqCodel.new (fun _ => []) (fun _ => []) [] [] where
  taken _ _ := rfl
  sent _ _ := rfl
  aqm := by simp [fates, FqCodel.new]
  full := by simp [fates, FqCodel.new]

/-- Clearing settles what was queued. -/
theorem Ledger.clear {fifo : Nat → List Nat} (h : Ledger q fifo done taken sent) :
    Ledger q (fun _ => [])
      (fun f => done f ++ (fifo f).map fun s => (q.frameAt s, .cleared)) taken sent := by
  have hcount : ∀ x, x ≠ Fate.cleared → fates x
      (fun f => done f ++ (fifo f).map fun s => (q.frameAt s, .cleared)) = fates x done := by
    intro x hx
    rw [fates, fates]
    refine Finset.sum_congr rfl fun f _ => ?_
    simp [countP_append, countP_map, Function.comp_def, Ne.symm hx]
  refine ⟨fun f hf => ?_, fun f hf => ?_, ?_, ?_⟩
  · rw [h.taken f hf]
    simp [Function.comp_def]
  · rw [h.sent f hf]
    simp [filter_append, filter_map, Function.comp_def]
  · rw [hcount .aqm (by decide)]
    exact h.aqm
  · rw [hcount .full (by decide)]
    exact h.full

section

variable {q : FqCodel} (h : Good q.ready g taken sent)

include h

theorem Good.clear : ∃ g', Good q.clear.ready g' taken sent := by
  rw [ready] at h
  by_cases hi : q.interval = 0
  · rw [if_pos hi] at h
    have hr : q.clear.ready = q.clear.setup := if_pos hi
    rw [hr]
    exact Good.empty (q := q.clear) h.pool.room rfl rfl rfl { h.ledger.clear with }
  · rw [if_neg hi] at h
    have hr : q.clear.ready = setup { q with newQ := .new, oldQ := .new, backlog := 0 } := if_neg hi
    rw [hr]
    exact Good.empty (q := { q with newQ := .new, oldQ := .new, backlog := 0 }) h.pool.room rfl rfl
      rfl { h.ledger.clear with }

/-- A call of `enqueue` with a frame that fits. -/
theorem Good.enqueue (hhz : 10 ≤ hz) {frame : List Byte} (hne : frame ≠ [])
    (hlen : frame.length ≤ MTU) (now : Nat) :
    ∃ p, q.enqueue hz now frame = some (true, p) ∧ ∃ g', Good p.ready g' (taken ++ [frame]) sent := by
  have hpos : 0 < frame.length := length_pos_iff.mpr hne
  obtain ⟨s, p, hslot, g', hgood, hint⟩ := (h.lazyInit hz).take hpos hlen now
  rw [FqCodel.enqueue, if_neg hne, if_neg (Nat.not_lt.mpr hlen), hslot]
  refine ⟨_, rfl, g', ?_⟩
  rw [ready_of_interval (hint ▸ lazyInit_interval q hhz)]
  exact hgood

/-- A call of `dequeue`. -/
theorem Good.dequeue (hhz : 10 ≤ hz) (now : Nat) (out : List Byte) :
    ∃ r p, q.dequeue hz now out = some (r, p) ∧ (∃ g', Good p.ready g' taken (sent ++ sentBy r)) ∧
      (r = none → ∀ f < FLOWS, g.fifo f = []) := by
  have hinit := h.lazyInit hz
  have hw : (q.lazyInit hz).weight g.newL g.oldL < 3 * FLOWS + 1 := by
    have h1 := (q.lazyInit hz).weight_le g.newL g.oldL
    have h2 := hinit.sched.length_le
    omega
  obtain ⟨r, p, hr, ⟨g', hgood⟩, hnone, hint⟩ := dequeueLoop_spec now out _ _ g hinit hw
  refine ⟨r, p, hr, ⟨g', ?_⟩, fun hn f hf => hinit.pool.empty_of_backlog (hnone hn) hf⟩
  rw [ready_of_interval (hint ▸ lazyInit_interval q hhz)]
  exact hgood

end

/-- **One call keeps the invariant.** -/
theorem Step.good {s s' : State} {e : Event} (hstep : Step s e s') (hticks : e.Ticks)
    (h : ∃ g, Good s.q.ready g s.taken s.sent) : ∃ g, Good s'.q.ready g s'.taken s'.sent := by
  obtain ⟨g, h⟩ := h
  cases hstep with
  | @enqueue hz now frame ok q hq =>
    by_cases hne : frame = []
    · -- An empty frame is not taken.
      rw [FqCodel.enqueue, if_pos hne] at hq
      cases hq
      exact ⟨g, h⟩
    · by_cases hlen : frame.length ≤ MTU
      · obtain ⟨p, hp, g', hgood⟩ := h.enqueue hticks hne hlen now
        rw [hp] at hq
        cases hq
        exact ⟨g', hgood⟩
      · rw [FqCodel.enqueue, if_neg hne, if_pos (Nat.lt_of_not_le hlen)] at hq
        cases hq
        refine ⟨g, ?_⟩
        have hr : ({ s.q with dropsOversize := (s.q.dropsOversize + 1) % 2 ^ 64 } : FqCodel).ready =
            { s.q.ready with
              target := s.q.ready.target, interval := s.q.ready.interval
              dropsOversize := (s.q.dropsOversize + 1) % 2 ^ 64 } := by
          simp only [ready]
          split <;> rfl
        rw [hr]
        exact h.clock _ _ _
  | @dequeue hz now out r q hq =>
    obtain ⟨r', p, hp, hgood, -⟩ := h.dequeue hticks now out
    rw [hp] at hq
    cases hq
    exact hgood
  | clear => exact h.clear

end Runs

end FqCodel

end NopeekOS.Net.Fq
