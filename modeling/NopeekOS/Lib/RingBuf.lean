import Mathlib

/-!
# Ring buffers

A queue in `n` cells with a read and a write position. Equal positions mean empty, so it holds
at most `n - 1` entries; `push` does not look. `RingBuf.Holds n r xs` says which entries `r` holds,
the oldest first.
-/

namespace NopeekOS.Lib

open Function

structure RingBuf (α : Type*) where
  buf : Nat → α
  head : Nat
  tail : Nat

namespace RingBuf

variable {α : Type*}

def isEmpty (r : RingBuf α) : Bool := r.head == r.tail

def front (r : RingBuf α) : Option α := if r.isEmpty then none else some (r.buf r.head)

def push (n : Nat) (r : RingBuf α) (x : α) : RingBuf α :=
  { r with buf := update r.buf r.tail x, tail := (r.tail + 1) % n }

/-- The oldest entry leaves. -/
def pop (n : Nat) (r : RingBuf α) : RingBuf α :=
  if r.isEmpty then r else { r with head := (r.head + 1) % n }

/-- The entries of a ring of `n` cells, the oldest first. -/
structure Holds (n : Nat) (r : RingBuf α) (xs : List α) : Prop where
  head_lt : r.head < n
  room : xs.length < n
  tail_eq : r.tail = (r.head + xs.length) % n
  cell : ∀ i (h : i < xs.length), r.buf ((r.head + i) % n) = xs[i]

/-- Two cells within one turn are different. -/
theorem cell_ne {n a i j : Nat} (hi : i < n) (hj : j < n) (hij : i ≠ j) :
    (a + i) % n ≠ (a + j) % n := by
  intro he
  have hmod : Nat.ModEq n (a + i) (a + j) := he
  have := Nat.ModEq.add_left_cancel' a hmod
  exact hij (Nat.ModEq.eq_of_lt_of_lt this hi hj)

namespace Holds

variable {n : Nat} {r : RingBuf α} {x : α} {xs : List α}

theorem isEmpty_iff (h : Holds n r xs) : r.isEmpty = true ↔ xs = [] := by
  rw [isEmpty, beq_iff_eq, h.tail_eq]
  constructor
  · intro he
    by_contra hne
    have hpos : 0 < xs.length := List.length_pos_iff.mpr hne
    have hn : 0 < n := by have := h.room; omega
    refine cell_ne (a := r.head) hn h.room (by omega) ?_
    rw [Nat.add_zero, Nat.mod_eq_of_lt h.head_lt]
    exact he
  · rintro rfl
    rw [List.length_nil, Nat.add_zero, Nat.mod_eq_of_lt h.head_lt]

theorem isEmpty_cons (h : Holds n r (x :: xs)) : r.isEmpty = false := by
  rw [Bool.eq_false_iff]
  intro he
  cases h.isEmpty_iff.mp he

theorem front_cons (h : Holds n r (x :: xs)) : r.front = some x := by
  have hcell := h.cell 0 (by simp)
  rw [Nat.add_zero, Nat.mod_eq_of_lt h.head_lt] at hcell
  rw [front, h.isEmpty_cons, if_neg Bool.false_ne_true, hcell]
  rfl

theorem front_nil (h : Holds n r []) : r.front = none := by
  rw [front, if_pos (h.isEmpty_iff.mpr rfl)]

theorem push (h : Holds n r xs) (hroom : xs.length + 1 < n) : Holds n (r.push n x) (xs ++ [x]) := by
  refine ⟨h.head_lt, by simpa using hroom, ?_, ?_⟩
  · show (r.tail + 1) % n = (r.head + (xs ++ [x]).length) % n
    rw [h.tail_eq, List.length_append, List.length_singleton, Nat.mod_add_mod, Nat.add_assoc]
  · intro i hi
    rw [List.length_append, List.length_singleton] at hi
    show update r.buf r.tail x ((r.head + i) % n) = (xs ++ [x])[i]
    by_cases hlt : i < xs.length
    · have hne : (r.head + i) % n ≠ r.tail := by
        rw [h.tail_eq]
        exact cell_ne (by omega) h.room (by omega)
      rw [update_of_ne hne, h.cell i hlt, List.getElem_append_left hlt]
    · have he : i = xs.length := by omega
      subst he
      rw [← h.tail_eq, update_self]
      simp

theorem pop (h : Holds n r (x :: xs)) : Holds n (r.pop n) xs := by
  have hn : 0 < n := by have := h.room; omega
  rw [RingBuf.pop, h.isEmpty_cons, if_neg Bool.false_ne_true]
  refine ⟨Nat.mod_lt _ hn, ?_, ?_, ?_⟩
  · have := h.room
    rw [List.length_cons] at this
    omega
  · rw [h.tail_eq, Nat.mod_add_mod, List.length_cons]
    congr 1
    omega
  · intro i hi
    have hcell := h.cell (i + 1) (by simpa using hi)
    rw [Nat.mod_add_mod, Nat.add_assoc, Nat.add_comm 1 i, hcell]
    rfl

end Holds

end RingBuf

end NopeekOS.Lib
