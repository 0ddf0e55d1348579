import NopeekOS.Net.FqCodelDrop

/-!
# The scheduler of fq_codel

`Sched q fifo newL oldL`: the two rings hold the flow numbers `newL` and `oldL`, every flow at most
once in one of them, and every flow with packets is in one. A turn that delivers nothing lowers
`weight`: a flow that used up its deficit goes behind the others with a fresh one, an empty flow
leaves.
-/

namespace NopeekOS.Net.Fq

open Lib List

namespace FqCodel

/-- **The scheduler invariant.** -/
structure Sched (q : FqCodel) (fifo : Nat → List Nat) (newL oldL : List Nat) : Prop where
  newRing : q.newQ.Holds (FLOWS + 1) newL
  oldRing : q.oldQ.Holds (FLOWS + 1) oldL
  nodup : (newL ++ oldL).Nodup
  lt : ∀ f ∈ newL ++ oldL, f < FLOWS
  inList : ∀ f < FLOWS, (q.flows f).inList =
    if f ∈ newL then .new else if f ∈ oldL then .old else .none
  busy : ∀ f < FLOWS, fifo f ≠ [] → f ∈ newL ++ oldL
  /-- A deficit is overdrawn by less than one packet. -/
  deficit : ∀ f < FLOWS, 1 - (MTU : Int) ≤ (q.flows f).deficit ∧ (q.flows f).deficit ≤ QUANTUM

namespace Sched

variable {q : FqCodel} {fifo : Nat → List Nat} {newL oldL : List Nat} {f : Nat}
  {fifo' : Nat → List Nat}

section

variable (h : Sched q fifo newL oldL)

include h

theorem length_le : newL.length + oldL.length ≤ FLOWS := by
  have hsub : newL ++ oldL ⊆ List.range FLOWS := fun f hf => mem_range.mpr (h.lt f hf)
  have hle := (h.nodup.subperm hsub).length_le
  simpa using hle

/-- A list without repetitions has room for one more flow. -/
theorem length_lt (hf : f < FLOWS) (hnot : f ∉ newL ++ oldL) :
    newL.length + oldL.length < FLOWS := by
  have hnodup : (f :: (newL ++ oldL)).Nodup := nodup_cons.mpr ⟨hnot, h.nodup⟩
  have hsub : f :: (newL ++ oldL) ⊆ List.range FLOWS := by
    exact cons_subset.mpr ⟨mem_range.mpr hf, fun g hg => mem_range.mpr (h.lt g hg)⟩
  have hle := (hnodup.subperm hsub).length_le
  exact Nat.lt_of_succ_le (by simpa using hle)

/-- Taking packets does not touch the scheduler. -/
theorem same {q' : FqCodel} (hs : Same q q')
    (hfifo : ∀ g, fifo' g ≠ [] → fifo g ≠ []) : Sched q' fifo' newL oldL where
  __ := h
  newRing := hs.newQ ▸ h.newRing
  oldRing := hs.oldQ ▸ h.oldRing
  inList f hf := (hs.inList f).trans (h.inList f hf)
  busy f hf hne := h.busy f hf (hfifo f hne)
  deficit f hf := by rw [hs.deficit f]; exact h.deficit f hf

/-- The flow `f` alone changes. -/
theorem move {q' : FqCodel} {newL' oldL' : List Nat} (hf : f < FLOWS)
    (hnew : q'.newQ.Holds (FLOWS + 1) newL') (hold : q'.oldQ.Holds (FLOWS + 1) oldL')
    (hnodup : (newL' ++ oldL').Nodup)
    (hflows : ∀ g, g ≠ f → (q'.flows g).inList = (q.flows g).inList ∧
      (q'.flows g).deficit = (q.flows g).deficit)
    (hlists : ∀ g, g ≠ f → (g ∈ newL' ↔ g ∈ newL) ∧ (g ∈ oldL' ↔ g ∈ oldL))
    (hfifo : ∀ g, g ≠ f → fifo' g ≠ [] → fifo g ≠ [])
    (hin : (q'.flows f).inList = if f ∈ newL' then .new else if f ∈ oldL' then .old else .none)
    (hbusy : fifo' f ≠ [] → f ∈ newL' ++ oldL')
    (hdef : 1 - (MTU : Int) ≤ (q'.flows f).deficit ∧ (q'.flows f).deficit ≤ QUANTUM) :
    Sched q' fifo' newL' oldL' := by
  have hmem : ∀ g, g ≠ f → (g ∈ newL' ++ oldL' ↔ g ∈ newL ++ oldL) := by
    intro g hg
    rw [mem_append, mem_append, (hlists g hg).1, (hlists g hg).2]
  refine ⟨hnew, hold, hnodup, fun g hg => ?_, fun g hg => ?_, fun g hg hne => ?_, fun g hg => ?_⟩
  all_goals by_cases hgf : g = f
  · exact hgf ▸ hf
  · exact h.lt g ((hmem g hgf).mp hg)
  · exact hgf ▸ hin
  · rw [(hflows g hgf).1, h.inList g hg]
    simp only [hlists g hgf]
  · subst hgf
    exact hbusy hne
  · exact (hmem g hgf).mpr (h.busy g hg (hfifo g hgf hne))
  · exact hgf ▸ hdef
  · rw [(hflows g hgf).2]
    exact h.deficit g hg

/-- It is nobody's turn. -/
theorem pick_none (hpick : q.pick = none) : newL ++ oldL = [] := by
  have hnew := h.newRing
  have hold := h.oldRing
  cases newL with
  | cons f rest =>
    rw [pick, hnew.front_cons] at hpick
    cases hpick
  | nil =>
    cases oldL with
    | nil => rfl
    | cons f rest =>
      rw [pick, hnew.front_nil, hold.front_cons] at hpick
      cases hpick

end

end Sched

/-- The turns left before a packet is delivered or the lists are empty: a flow that has used up
its deficit has one more, a new flow may become an old one. -/
def weight (q : FqCodel) (newL oldL : List Nat) : Nat :=
  (newL.map fun f => 2 + if (q.flows f).deficit ≤ 0 then 1 else 0).sum +
    (oldL.map fun f => 1 + if (q.flows f).deficit ≤ 0 then 1 else 0).sum

theorem weight_le (q : FqCodel) (newL oldL : List Nat) :
    q.weight newL oldL ≤ 3 * (newL.length + oldL.length) := by
  have hle : ∀ k ≤ 2, ∀ l : List Nat,
      (l.map fun f => k + if (q.flows f).deficit ≤ 0 then 1 else 0).sum ≤ l.length * 3 := by
    intro k hk l
    refine (sum_le_card_nsmul _ 3 fun x hx => ?_).trans (by simp)
    obtain ⟨f, -, rfl⟩ := mem_map.mp hx
    split <;> omega
  have hnew := hle 2 (by omega) newL
  have hold := hle 1 (by omega) oldL
  rw [weight]
  omega

/-- The weight depends on the deficits of the listed flows. -/
theorem weight_congr {q q' : FqCodel} {newL oldL : List Nat}
    (h : ∀ f ∈ newL ++ oldL, (q'.flows f).deficit = (q.flows f).deficit) :
    q'.weight newL oldL = q.weight newL oldL := by
  have hmap : ∀ (k : Nat) (l : List Nat), (∀ f ∈ l, f ∈ newL ++ oldL) →
      (l.map fun f => k + if (q'.flows f).deficit ≤ 0 then 1 else 0) =
        l.map fun f => k + if (q.flows f).deficit ≤ 0 then 1 else 0 :=
    fun k l hl => map_congr_left fun f hf => by rw [h f (hl f hf)]
  rw [weight, weight, hmap 2 newL fun f hf => mem_append_left _ hf,
    hmap 1 oldL fun f hf => mem_append_right _ hf]

/-! ## A turn without a packet -/

namespace Sched

variable {q p : FqCodel} {fifo : Nat → List Nat} {newL oldL newL' oldL' : List Nat} {f : Nat}

/-- The lists once `f` was taken off the front of one. -/
structure Popped (f : Nat) (newL oldL newL' oldL' : List Nat) : Prop where
  perm : (newL ++ oldL).Perm (f :: (newL' ++ oldL'))
  new : ∀ g, g ≠ f → (g ∈ newL' ↔ g ∈ newL)
  old : ∀ g, g ≠ f → (g ∈ oldL' ↔ g ∈ oldL)

theorem Popped.not_mem (hp : Popped f newL oldL newL' oldL') (h : (newL ++ oldL).Nodup) :
    f ∉ newL' ++ oldL' := (nodup_cons.mp (hp.perm.nodup_iff.mp h)).1

theorem Popped.nodup (hp : Popped f newL oldL newL' oldL') (h : (newL ++ oldL).Nodup) :
    (newL' ++ oldL').Nodup := (nodup_cons.mp (hp.perm.nodup_iff.mp h)).2

section

variable (h : Sched q fifo newL oldL) (hpop : Popped f newL oldL newL' oldL')
  (hnew : p.newQ.Holds (FLOWS + 1) newL') (hold : p.oldQ.Holds (FLOWS + 1) oldL')

include h hpop hnew hold

/-- The flow goes to the end of the old ones. -/
theorem requeue (hflows : ∀ g, g ≠ f → p.flows g = q.flows g)
    (hdef : 1 - (MTU : Int) ≤ (p.flows f).deficit ∧ (p.flows f).deficit ≤ QUANTUM) :
    Sched (p.pushOld f) fifo newL' (oldL' ++ [f]) := by
  have hf : f < FLOWS := h.lt f (hpop.perm.mem_iff.mpr mem_cons_self)
  have hnot := hpop.not_mem h.nodup
  have hlen : newL'.length + oldL'.length + 1 ≤ FLOWS := by
    have := hpop.perm.length_eq
    have := h.length_le
    simp only [length_append, length_cons] at *
    omega
  have hn : f ∉ newL' := fun hm => hnot (mem_append_left _ hm)
  refine h.move hf hnew (hold.push (by omega)) ?_ (fun g hg => ?_) (fun g hg => ?_) (fun _ _ => id)
    ?_ (fun _ => by simp) ?_
  · have hperm := perm_append_singleton f (newL' ++ oldL')
    rw [← append_assoc, hperm.nodup_iff]
    exact nodup_cons.mpr ⟨hnot, hpop.nodup h.nodup⟩
  · rw [← hflows g hg]
    simp [pushOld, setFlow, hg]
  · simp [hpop.new g hg, hpop.old g hg, hg]
  · simp [pushOld, setFlow, hn]
  · simpa [pushOld, setFlow] using hdef

/-- An empty flow leaves. -/
theorem leave (hflows : p.flows = q.flows) (hfifo : fifo f = []) :
    Sched (p.setFlow f { p.flows f with inList := .none }) fifo newL' oldL' := by
  have hf : f < FLOWS := h.lt f (hpop.perm.mem_iff.mpr mem_cons_self)
  have hnot := hpop.not_mem h.nodup
  rw [mem_append, not_or] at hnot
  refine h.move hf hnew hold (hpop.nodup h.nodup) (fun g hg => ?_)
    (fun g hg => ⟨hpop.new g hg, hpop.old g hg⟩) (fun _ _ => id) ?_ (fun hne => absurd hfifo hne) ?_
  · rw [← hflows]
    simp [setFlow, hg]
  · simp [setFlow, hnot]
  · have := h.deficit f hf
    rw [← hflows] at this
    simpa [setFlow] using this

end

end Sched

/-! ## The weight goes down -/

section Weight

variable {q : FqCodel} {newL oldL : List Nat} {f : Nat}

/-- A flow behind the others with a deficit counts one. -/
theorem weight_pushOld {p : FqCodel} (hnot : f ∉ newL ++ oldL)
    (hflows : ∀ g, g ≠ f → p.flows g = q.flows g) (hdef : 0 < (p.flows f).deficit) :
    (p.pushOld f).weight newL (oldL ++ [f]) = q.weight newL oldL + 1 := by
  have hself : ¬ ((p.pushOld f).flows f).deficit ≤ 0 := by
    simpa [pushOld, setFlow] using hdef
  have hrest : (p.pushOld f).weight newL oldL = q.weight newL oldL := by
    refine weight_congr fun g hg => ?_
    have hgf : g ≠ f := fun he => hnot (he ▸ hg)
    rw [← hflows g hgf]
    simp [pushOld, setFlow, hgf]
  rw [← hrest, weight, weight, map_append, sum_append, map_singleton, sum_singleton, if_neg hself]
  rfl

end Weight

/-! ## The two turns -/

section Turns

variable {q : FqCodel} {fifo : Nat → List Nat} {newL oldL : List Nat} {f : Nat} {fromNew : Bool}

theorem rotate_flows (q : FqCodel) (fromNew : Bool) (f : Nat) :
    ∃ p : FqCodel, q.rotate fromNew f = p.pushOld f ∧ p.newQ = (q.popPicked fromNew).newQ ∧
      p.oldQ = (q.popPicked fromNew).oldQ ∧ (∀ g, g ≠ f → p.flows g = q.flows g) ∧
      (p.flows f).deficit = (q.flows f).deficit + QUANTUM := by
  refine ⟨_, rfl, ?_, ?_, fun g hg => ?_, ?_⟩
  · cases fromNew <;> rfl
  · cases fromNew <;> rfl
  · cases fromNew <;> simp [popPicked, setFlow, hg]
  · cases fromNew <;> simp [popPicked, setFlow]

section

variable (h : Sched q fifo newL oldL) (hpick : q.pick = some (fromNew, f))

include h hpick

/-- The picked flow is taken off the ring it heads, and its turn is counted off. -/
theorem Sched.popped : f < FLOWS ∧ ∃ newL' oldL', Popped f newL oldL newL' oldL' ∧
      (q.popPicked fromNew).newQ.Holds (FLOWS + 1) newL' ∧
      (q.popPicked fromNew).oldQ.Holds (FLOWS + 1) oldL' ∧
      q.weight newL oldL = (if fromNew then 2 else 1) +
        (if (q.flows f).deficit ≤ 0 then 1 else 0) + q.weight newL' oldL' := by
  have hnew := h.newRing
  have hold := h.oldRing
  cases newL with
  | cons g rest =>
    rw [pick, hnew.front_cons] at hpick
    cases hpick
    refine ⟨h.lt f mem_cons_self, rest, oldL, ⟨.refl _, fun x hx => ?_, fun _ _ => Iff.rfl⟩,
      hnew.pop, hold, ?_⟩
    · simp [hx]
    · rw [weight, weight, map_cons, sum_cons, if_pos rfl, Nat.add_assoc]
  | nil =>
    cases oldL with
    | nil =>
      rw [pick, hnew.front_nil, hold.front_nil] at hpick
      cases hpick
    | cons g rest =>
      rw [pick, hnew.front_nil, hold.front_cons] at hpick
      cases hpick
      refine ⟨h.lt f mem_cons_self, [], rest, ⟨.refl _, fun _ _ => Iff.rfl, fun x hx => ?_⟩,
        hnew, hold.pop, ?_⟩
      · simp [hx]
      · rw [weight, weight, map_cons, sum_cons, if_neg Bool.false_ne_true]
        exact Nat.add_left_comm ..

/-- **A flow that used up its deficit** goes behind the old ones, and can send on its next turn. -/
theorem Sched.rotate (hdef : (q.flows f).deficit ≤ 0) :
    ∃ newL' oldL', Sched (q.rotate fromNew f) fifo newL' oldL' ∧
      (q.rotate fromNew f).weight newL' oldL' < q.weight newL oldL := by
  obtain ⟨p, hp, hnewQ, holdQ, hflows, hd⟩ := rotate_flows q fromNew f
  obtain ⟨hf, newL', oldL', hpop, hn, ho, hw⟩ := h.popped hpick
  have hq : QUANTUM = 1514 := rfl
  have hm : (MTU : Int) = 1514 := rfl
  have hpos : 0 < (p.flows f).deficit := by
    have := (h.deficit f hf).1
    omega
  refine ⟨newL', oldL' ++ [f], ?_⟩
  rw [hp, weight_pushOld (hpop.not_mem h.nodup) hflows hpos, hw, if_pos hdef]
  refine ⟨h.requeue hpop (hnewQ ▸ hn) (holdQ ▸ ho) hflows (by omega), ?_⟩
  split <;> omega

/-- **A flow found empty** leaves, or waits once more behind the old ones. -/
theorem Sched.drained (hdef : 0 < (q.flows f).deficit) (hfifo : fifo f = []) :
    ∃ newL' oldL', Sched (q.drained fromNew f) fifo newL' oldL' ∧
      (q.drained fromNew f).weight newL' oldL' < q.weight newL oldL := by
  have hflows : (q.popPicked fromNew).flows = q.flows := by cases fromNew <;> rfl
  obtain ⟨hf, newL', oldL', hpop, hn, ho, hw⟩ := h.popped hpick
  have hnot := hpop.not_mem h.nodup
  rw [hw, if_neg (not_le.mpr hdef), Nat.add_zero]
  unfold FqCodel.drained
  dsimp only
  split
  · rename_i hwait
    refine ⟨newL', oldL' ++ [f], h.requeue hpop hn ho (fun _ _ => by rw [hflows])
      (by rw [hflows]; exact h.deficit f hf), ?_⟩
    rw [weight_pushOld (q := q) hnot (fun _ _ => by rw [hflows]) (by rw [hflows]; exact hdef),
      if_pos hwait.1]
    omega
  · refine ⟨newL', oldL', h.leave hpop hn ho hflows hfifo, ?_⟩
    rw [weight_congr (q := q) fun g hg => ?_]
    · split <;> omega
    · have hgf : g ≠ f := fun he => hnot (he ▸ hg)
      rw [setFlow]
      simp [hgf, hflows]

end

end Turns

end FqCodel

end NopeekOS.Net.Fq
