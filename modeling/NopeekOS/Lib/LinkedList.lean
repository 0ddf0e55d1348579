import Mathlib

/-!
# Intrusive doubly linked lists

Cells are numbered, and the neighbours of a cell are kept in the cell itself: a
`Links` has the two ends and, for every cell, the neighbour towards each end,
with the number `nil` for "none". `Linked nil d l` says that following the links
from the front visits the cells of `l` in order.

The unit that composes is the segment: `Seg prev next p l q` are the links inside
`l` and to its outer neighbours `p` and `q`. Taking a cell out (`Links.unlink`)
joins the segments before and after it; putting one in front
(`Links.pushFront`) extends one.
-/

namespace NopeekOS.Lib

open Function List

/-- The ends of a list and the neighbours of every cell. -/
@[ext] structure Links where
  head : Nat
  tail : Nat
  prev : Nat → Nat
  next : Nat → Nat

/-- Take the cell `s` out: its neighbours, or the ends, point past it. -/
def Links.unlink (nil : Nat) (d : Links) (s : Nat) : Links where
  head := if d.prev s = nil then d.next s else d.head
  tail := if d.next s = nil then d.prev s else d.tail
  prev := if d.next s = nil then d.prev else update d.prev (d.next s) (d.prev s)
  next := if d.prev s = nil then d.next else update d.next (d.prev s) (d.next s)

/-- Put the cell `s` in front. -/
def Links.pushFront (nil : Nat) (d : Links) (s : Nat) : Links where
  head := s
  tail := if d.tail = nil then s else d.tail
  prev := if d.head = nil then update d.prev s nil
    else update (update d.prev s nil) d.head s
  next := update d.next s d.head

/-! ## Segments -/

theorem headD_mem {nil : Nat} : ∀ {l : List Nat}, l.headD nil ≠ nil → l.headD nil ∈ l
  | [], h => absurd rfl h
  | _ :: _, _ => mem_cons_self

theorem getLastD_append_cons (d y : Nat) (ys : List Nat) :
    ∀ xs : List Nat, (xs ++ y :: ys).getLastD d = ys.getLastD y
  | [] => getLastD_cons
  | x :: xs => by
    rw [cons_append, getLastD_cons]
    exact getLastD_append_cons x y ys xs

theorem getLastD_mem {nil : Nat} {l : List Nat} (h : l.getLastD nil ≠ nil) :
    l.getLastD nil ∈ l := by
  rcases eq_nil_or_concat l with rfl | ⟨xs, a, rfl⟩
  · exact absurd rfl h
  · simp

theorem getLastD_ne {nil : Nat} {l : List Nat} (hnil : nil ∉ l) (hne : l ≠ []) :
    l.getLastD nil ≠ nil := by
  rcases eq_nil_or_concat l with rfl | ⟨xs, a, rfl⟩
  · exact absurd rfl hne
  · intro ha
    simp only [concat_eq_append, getLastD_concat] at ha
    exact hnil (by simp [ha])

/-- The links of the cells `l`, whose outer neighbours are `p` and `q`. -/
def Seg (prev next : Nat → Nat) : Nat → List Nat → Nat → Prop
  | _, [], _ => True
  | p, s :: l, q => prev s = p ∧ next s = l.headD q ∧ Seg prev next s l q

namespace Seg

variable {prev next prev' next' : Nat → Nat} {p q a : Nat}

theorem append_iff (ys : List Nat) : ∀ (p : Nat) (xs : List Nat),
    Seg prev next p (xs ++ ys) q ↔
      Seg prev next p xs (ys.headD q) ∧ Seg prev next (xs.getLastD p) ys q
  | p, [] => by simp [Seg]
  | p, x :: xs => by
    have hhead : (xs ++ ys).headD q = xs.headD (ys.headD q) := by
      cases xs <;> rfl
    have hlast : (x :: xs).getLastD p = xs.getLastD x := getLastD_cons
    simp only [cons_append, Seg, append_iff ys x xs, hhead, hlast, and_assoc]

/-- A segment only depends on the links of its own cells. -/
theorem congr {l : List Nat} (h : Seg prev next p l q) (hprev : ∀ s ∈ l, prev' s = prev s)
    (hnext : ∀ s ∈ l, next' s = next s) : Seg prev' next' p l q := by
  induction l generalizing p with
  | nil => trivial
  | cons s l ih =>
    obtain ⟨h₁, h₂, h₃⟩ := h
    refine ⟨(hprev s mem_cons_self).trans h₁, (hnext s mem_cons_self).trans h₂, ?_⟩
    exact ih h₃ (fun t ht => hprev t (mem_cons_of_mem _ ht))
      (fun t ht => hnext t (mem_cons_of_mem _ ht))

/-- Give the last cell of a segment another outer neighbour, if there is one. -/
theorem relast {nil : Nat} {xs : List Nat} (h : Seg prev next p xs q) (hnodup : xs.Nodup)
    (hnil : nil ∉ xs) (q' : Nat) :
    Seg prev (if xs.getLastD nil = nil then next
      else update next (xs.getLastD nil) q') p xs q' := by
  rcases eq_nil_or_concat xs with rfl | ⟨xs', a, rfl⟩
  · trivial
  rw [concat_eq_append] at *
  have hne : a ≠ nil := fun ha => hnil (by simp [ha])
  have ha : a ∉ xs' := fun hmem => (nodup_append.mp hnodup).2.2 a hmem a (by simp) rfl
  rw [getLastD_concat, if_neg hne, append_iff]
  obtain ⟨hxs, hprev, -, -⟩ := (append_iff _ _ _).mp h
  refine ⟨hxs.congr (fun _ _ => rfl) fun s hs => ?_, hprev, update_self .., trivial⟩
  exact update_of_ne (fun hsa : s = a => ha (hsa ▸ hs)) ..

/-- Give the first cell of a segment another outer neighbour, if there is one. -/
theorem rehead {nil : Nat} {ys : List Nat} (h : Seg prev next p ys q) (hnodup : ys.Nodup)
    (hnil : nil ∉ ys) (p' : Nat) :
    Seg (if ys.headD nil = nil then prev
      else update prev (ys.headD nil) p') next p' ys q := by
  cases ys with
  | nil => trivial
  | cons b ys' =>
    have hne : b ≠ nil := fun hb => hnil (by simp [hb])
    have hb : b ∉ ys' := (nodup_cons.mp hnodup).1
    obtain ⟨-, hnext, hys⟩ := h
    rw [headD_cons, if_neg hne]
    refine ⟨update_self .., hnext, hys.congr (fun s hs => ?_) fun _ _ => rfl⟩
    exact update_of_ne (fun hsb : s = b => hb (hsb ▸ hs)) ..

end Seg

/-! ## Whole lists -/

/-- Following `d` from the front visits the cells of `l`, each once. -/
structure Linked (nil : Nat) (d : Links) (l : List Nat) : Prop where
  head : d.head = l.headD nil
  tail : d.tail = l.getLastD nil
  seg : Seg d.prev d.next nil l nil
  nodup : l.Nodup
  nil_notMem : nil ∉ l

namespace Linked

variable {nil s : Nat} {d : Links} {l xs ys : List Nat}

theorem prev_eq (h : Linked nil d (xs ++ s :: ys)) : d.prev s = xs.getLastD nil :=
  ((Seg.append_iff _ _ _).mp h.seg).2.1

theorem next_eq (h : Linked nil d (xs ++ s :: ys)) : d.next s = ys.headD nil :=
  ((Seg.append_iff _ _ _).mp h.seg).2.2.1

/-- The list is empty iff there is no last cell. -/
theorem tail_eq_nil_iff (h : Linked nil d l) : d.tail = nil ↔ l = [] := by
  rw [h.tail]
  constructor
  · intro hnil
    by_contra hne
    exact getLastD_ne h.nil_notMem hne hnil
  · rintro rfl
    rfl

/-- A list that is not empty ends in its last cell. -/
theorem eq_concat_tail (h : Linked nil d l) (hne : d.tail ≠ nil) : ∃ xs, l = xs ++ [d.tail] := by
  rcases eq_nil_or_concat l with rfl | ⟨xs, a, rfl⟩
  · exact absurd h.tail hne
  refine ⟨xs, ?_⟩
  have htail := h.tail
  simp only [concat_eq_append, getLastD_concat] at htail ⊢
  rw [htail]

/-- **`unlink`** takes one cell out and keeps the order of the others. -/
theorem unlink (h : Linked nil d (xs ++ s :: ys)) : Linked nil (d.unlink nil s) (xs ++ ys) := by
  obtain ⟨hxs, hprev, hnext, hys⟩ := (Seg.append_iff _ _ _).mp h.seg
  have hsub : (xs ++ ys).Sublist (xs ++ s :: ys) := (sublist_cons_self s ys).append_left xs
  have hnodup : (xs ++ ys).Nodup := h.nodup.sublist hsub
  have hnotMem : nil ∉ xs ++ ys := fun hmem => h.nil_notMem (hsub.subset hmem)
  obtain ⟨hnx, hny, hdisj⟩ := nodup_append.mp hnodup
  have hnilx : nil ∉ xs := fun hmem => hnotMem (mem_append_left _ hmem)
  have hnily : nil ∉ ys := fun hmem => hnotMem (mem_append_right _ hmem)
  constructor
  · simp only [Links.unlink, hprev, hnext, h.head]
    cases xs with
    | nil => exact if_pos getLastD_nil
    | cons x xs => rw [if_neg (getLastD_ne hnilx (cons_ne_nil _ _))]; rfl
  · simp only [Links.unlink, hprev, hnext, h.tail]
    cases ys with
    | nil => rw [if_pos headD_nil, append_nil]
    | cons y ys =>
      have hy : (y :: ys).headD nil ≠ nil := fun hy => hnily (hy ▸ mem_cons_self)
      rw [if_neg hy, getLastD_append_cons, getLastD_append_cons, getLastD_cons]
  · -- The two sides are rewritten independently: each write is at a cell of its own side.
    simp only [Links.unlink, hprev, hnext, Seg.append_iff]
    constructor
    · refine (hxs.relast hnx hnilx (ys.headD nil)).congr (fun t ht => ?_) fun _ _ => rfl
      split
      · rfl
      · rename_i hne
        exact update_of_ne (hdisj t ht _ (headD_mem hne)) ..
    · refine (hys.rehead hny hnily (xs.getLastD nil)).congr (fun _ _ => rfl) fun t ht => ?_
      split
      · rfl
      · rename_i hne
        exact update_of_ne (hdisj _ (getLastD_mem hne) t ht).symm ..
  · exact hnodup
  · exact hnotMem

/-- **`pushFront`** puts a cell that is not on the list in front. -/
theorem pushFront (h : Linked nil d l) (hs : s ∉ l) (hnil : s ≠ nil) :
    Linked nil (d.pushFront nil s) (s :: l) := by
  have hhead := h.head
  constructor
  · rfl
  · show (if d.tail = nil then s else d.tail) = _
    rcases eq_nil_or_concat l with rfl | ⟨xs, a, rfl⟩
    · exact if_pos h.tail
    · rw [if_neg (mt h.tail_eq_nil_iff.mp (by simp)), h.tail, getLastD_cons, concat_eq_append,
        getLastD_concat, getLastD_concat]
  · have hold : Seg (update d.prev s nil) (update d.next s d.head) nil l nil :=
      h.seg.congr (fun t ht => update_of_ne (fun he : t = s => hs (he ▸ ht)) ..)
        fun t ht => update_of_ne (fun he : t = s => hs (he ▸ ht)) ..
    have hnew := hold.rehead h.nodup h.nil_notMem s
    rw [← hhead] at hnew
    refine ⟨?_, ?_, hnew⟩
    · simp only [Links.pushFront]
      split
      · exact update_self ..
      rename_i hne
      rw [update_of_ne, update_self]
      rintro rfl
      exact hs (hhead ▸ headD_mem (hhead ▸ hne))
    · exact (update_self ..).trans hhead
  · exact nodup_cons.mpr ⟨hs, h.nodup⟩
  · exact fun hmem => (mem_cons.mp hmem).elim (fun he => hnil he.symm) h.nil_notMem

end Linked

end NopeekOS.Lib
