import Mathlib

/-!
# Lanes

Items that are handed over for one of several destinations wait in the lane of their
destination or pass it when it is empty. A lane is sent as a whole or reported as a whole,
and items are lost from its front when it gets too long. Whatever the order of these steps,
each item is in one place (`Lanes.Ok.perm`), and what is sent to a destination keeps the order
in which it was handed over (`Lanes.Ok.order`). Both are stated per destination, so that
items of different destinations need not be compared.
-/

namespace NopeekOS.Lib

open Function List

/-- What was handed over, where it went, and the lanes. -/
structure Lanes (K P : Type*) where
  handed : List P
  sent : List P
  reported : List P
  lost : List P
  lane : K → List P

namespace Lanes

variable {K P : Type*} [DecidableEq K] (hop : P → K)

/-- The items for `k`. -/
def itemsFor (k : K) (l : List P) : List P := l.filter fun p => decide (hop p = k)

/-- The steps: an item passes an empty lane, waits at the end of a lane that lost `n` items
at its front, or is refused; a lane is sent, or reported. -/
inductive Step : Lanes K P → Lanes K P → Prop
  | pass (l : Lanes K P) (p : P) (hempty : l.lane (hop p) = []) :
      Step l { l with handed := l.handed ++ [p], sent := l.sent ++ [p] }
  | wait (l : Lanes K P) (p : P) (n : Nat) : Step l { l with
        handed := l.handed ++ [p]
        lost := l.lost ++ (l.lane (hop p)).take n
        lane := update l.lane (hop p) ((l.lane (hop p)).drop n ++ [p]) }
  | refuse (l : Lanes K P) (p : P) :
      Step l { l with handed := l.handed ++ [p], lost := l.lost ++ [p] }
  | flush (l : Lanes K P) (k : K) :
      Step l { l with sent := l.sent ++ l.lane k, lane := update l.lane k [] }
  | fail (l : Lanes K P) (k : K) :
      Step l { l with reported := l.reported ++ l.lane k, lane := update l.lane k [] }

/-- Any steps. -/
abbrev Steps : Lanes K P → Lanes K P → Prop := Relation.ReflTransGen (Step hop)

/-- **The invariant**: a lane has items of its destination, every item is in one place, and
what is sent or waits is in the order in which it was handed over. -/
structure Ok (l : Lanes K P) : Prop where
  own : ∀ k, ∀ p ∈ l.lane k, hop p = k
  perm : ∀ k, (itemsFor hop k l.handed).Perm
    (itemsFor hop k l.sent ++ l.lane k ++ itemsFor hop k l.reported ++ itemsFor hop k l.lost)
  order : ∀ k, (itemsFor hop k l.sent ++ l.lane k).Sublist (itemsFor hop k l.handed)

variable {hop} {k j : K} {l l' : Lanes K P} {p : P} {xs ys : List P}

theorem itemsFor_append : itemsFor hop k (xs ++ ys) = itemsFor hop k xs ++ itemsFor hop k ys := filter_append ..

theorem itemsFor_own (h : ∀ p ∈ xs, hop p = k) : itemsFor hop k xs = xs :=
  filter_eq_self.mpr fun p hp => decide_eq_true (h p hp)

theorem itemsFor_other (h : ∀ p ∈ xs, hop p = j) (hne : k ≠ j) : itemsFor hop k xs = [] :=
  filter_eq_nil_iff.mpr fun p hp => by
    rw [decide_eq_true_eq, h p hp]
    exact hne.symm

/-- Nothing yet. -/
theorem ok_empty : Ok hop ⟨[], [], [], [], fun _ => []⟩ where
  own _ _ hp := absurd hp not_mem_nil
  perm _ := .nil
  order _ := .slnil

namespace Ok

section

variable (h : Ok hop l)

include h

/-- What every step does, at the lane of `k`: the items `a` come, and of those there now `b` are
sent, `c` reported and `d` lost, in the order of the lane, while `e` stay. -/
theorem move {a b c d e : List P} (ha : ∀ p ∈ a, hop p = k)
    (hperm : (l.lane k ++ a).Perm (b ++ e ++ c ++ d)) (horder : (b ++ e).Sublist (l.lane k ++ a)) :
    Ok hop ⟨l.handed ++ a, l.sent ++ b, l.reported ++ c, l.lost ++ d, update l.lane k e⟩ := by
  have hall : ∀ p ∈ b ++ e ++ c ++ d, hop p = k := by
    intro p hp
    rcases mem_append.mp (hperm.mem_iff.mpr hp) with hp | hp
    · exact h.own k p hp
    · exact ha p hp
  simp only [forall_mem_append] at hall
  obtain ⟨⟨⟨hb, he⟩, hc⟩, hd⟩ := hall
  refine ⟨fun j p hp => ?_, fun j => ?_, fun j => ?_⟩ <;> by_cases hj : j = k
  · subst hj
    dsimp only at hp
    rw [update_self] at hp
    exact he p hp
  · dsimp only at hp
    rw [update_of_ne hj] at hp
    exact h.own j p hp
  · subst hj
    have hold := h.perm j
    simp only [itemsFor_append, itemsFor_own ha, itemsFor_own hb, itemsFor_own hc, itemsFor_own hd,
      update_self]
    classical
    rw [perm_iff_count] at hold hperm ⊢
    intro x
    have := hold x
    have := hperm x
    simp only [count_append] at *
    omega
  · simp only [itemsFor_append, itemsFor_other ha hj, itemsFor_other hb hj, itemsFor_other hc hj,
      itemsFor_other hd hj, update_of_ne hj, append_nil]
    exact h.perm j
  · subst hj
    simp only [itemsFor_append, itemsFor_own ha, itemsFor_own hb, update_self, append_assoc]
    refine (List.Sublist.append (.refl _) horder).trans ?_
    rw [← append_assoc]
    exact (h.order j).append (.refl _)
  · simp only [itemsFor_append, itemsFor_other ha hj, itemsFor_other hb hj, update_of_ne hj,
      append_nil]
    exact h.order j

/-- **One step** keeps the invariant. -/
theorem step (hstep : Step hop l l') : Ok hop l' := by
  have hself (p : P) : ∀ q ∈ [p], hop q = hop p := by simp
  cases hstep with
  | pass p hempty =>
    have := h.move (b := [p]) (c := []) (d := []) (e := l.lane (hop p)) (hself p) (by simp [hempty])
      (by simp [hempty])
    simpa using this
  | wait p n =>
    have hperm : (l.lane (hop p) ++ [p]).Perm
        ((l.lane (hop p)).drop n ++ [p] ++ (l.lane (hop p)).take n) := by
      nth_rewrite 1 [← take_append_drop n (l.lane (hop p)), append_assoc]
      exact perm_append_comm
    have := h.move (b := []) (c := []) (hself p) (by simpa using hperm)
      ((drop_sublist n _).append (.refl _))
    simpa using this
  | refuse p =>
    have := h.move (b := []) (c := []) (d := [p]) (e := l.lane (hop p)) (hself p) (by simp) (by simp)
    simpa using this
  | flush k =>
    have := h.move (k := k) (a := []) (b := l.lane k) (c := []) (d := []) (e := []) (by simp) (by simp)
      (by simp)
    simpa using this
  | fail k =>
    have := h.move (k := k) (a := []) (b := []) (c := l.lane k) (d := []) (e := []) (by simp) (by simp)
      (by simp)
    simpa using this

/-- **Any steps** keep it. -/
theorem steps (hsteps : Steps hop l l') : Ok hop l' := by
  induction hsteps with
  | refl => exact h
  | tail _ hstep ih => exact ih.step hstep

end

end Ok

end Lanes

end NopeekOS.Lib
