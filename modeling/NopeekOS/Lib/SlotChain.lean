import Mathlib

/-!
# Singly linked lists through an array

`Chained link nil h xs`: following `link` from the slot `h` visits the slots `xs` and ends at
`nil`. Pushing and popping at the head, appending at the tail, and the frame: a write outside the
list leaves it alone. Several lists share the array, so their sums over a family of lists are
here too.
-/

namespace NopeekOS.Lib

open Function

/-- From `h` the links visit `xs` and end at `nil`. -/
def Chained (link : Nat → Nat) (nil : Nat) : Nat → List Nat → Prop
  | h, [] => h = nil
  | h, x :: xs => h = x ∧ x ≠ nil ∧ Chained link nil (link x) xs

namespace Chained

variable {link : Nat → Nat} {nil h s v : Nat} {xs : List Nat}

section

variable (hc : Chained link nil h xs)

include hc

theorem eq_nil_iff : h = nil ↔ xs = [] := by
  cases xs with
  | nil => exact ⟨fun _ => rfl, fun _ => hc⟩
  | cons x xs =>
    obtain ⟨rfl, hx, -⟩ := hc
    exact ⟨fun he => absurd he hx, nofun⟩

theorem ne_nil_of_mem (hs : s ∈ xs) : s ≠ nil := by
  induction xs generalizing h with
  | nil => cases hs
  | cons x xs ih =>
    obtain ⟨-, hx, hrest⟩ := hc
    rcases List.mem_cons.mp hs with rfl | hs
    · exact hx
    · exact ih hrest hs

/-- A write to a slot that is not on the list. -/
theorem frame (hs : s ∉ xs) : Chained (update link s v) nil h xs := by
  induction xs generalizing h with
  | nil => exact hc
  | cons x xs ih =>
    obtain ⟨hsx, hsxs⟩ := List.ne_and_not_mem_of_not_mem_cons hs
    obtain ⟨rfl, hx, hrest⟩ := hc
    refine ⟨rfl, hx, ?_⟩
    rw [update_of_ne (Ne.symm hsx)]
    exact ih hrest hsxs

/-- The slot `s` in front. -/
theorem push (hs : s ∉ xs) (hnil : s ≠ nil) : Chained (update link s h) nil s (s :: xs) := by
  refine ⟨rfl, hnil, ?_⟩
  rw [update_self]
  exact hc.frame hs

/-- The slot `s` at the end of a list that is not empty. -/
theorem snoc (hne : xs ≠ []) (hnodup : xs.Nodup) (hs : s ∉ xs) (hnil : s ≠ nil)
    (hend : link s = nil) : Chained (update link (xs.getLastD nil) s) nil h (xs ++ [s]) := by
  induction xs generalizing h with
  | nil => exact absurd rfl hne
  | cons x xs ih =>
    obtain ⟨hxs, hrestNodup⟩ := List.nodup_cons.mp hnodup
    obtain ⟨hsx, hsxs⟩ := List.ne_and_not_mem_of_not_mem_cons hs
    obtain ⟨rfl, hx, hrest⟩ := hc
    refine ⟨rfl, hx, ?_⟩
    cases xs with
    | nil =>
      -- `x` was the last one.
      refine ⟨?_, hnil, ?_⟩
      · exact update_self _ _ _
      · rw [List.getLastD_cons, List.getLastD_nil, update_of_ne hsx]
        exact hend
    | cons y ys =>
      have hlast : (h :: y :: ys).getLastD nil = (y :: ys).getLastD nil := rfl
      have hmem : (y :: ys).getLastD nil ∈ y :: ys := by
        rw [List.getLastD_cons]
        exact List.getLastD_mem_cons
      have hne : h ≠ (y :: ys).getLastD nil := fun he => hxs (he ▸ hmem)
      rw [hlast, update_of_ne hne]
      exact ih hrest (by simp) hrestNodup hsxs

end

end Chained

/-! ## Families of lists -/

section Family

variable {α β : Type*} (φ : α → Nat) (F : Nat → α) {n f : Nat}

/-- Replacing one member changes a sum over the family by the difference. -/
theorem sum_update (hf : f < n) (a : α) : ∑ g ∈ Finset.range n, φ (update F f a g) + φ (F f) =
      ∑ g ∈ Finset.range n, φ (F g) + φ a := by
  have hmem : f ∈ Finset.range n := Finset.mem_range.mpr hf
  have hcomp : ∀ g, φ (update F f a g) = update (fun g => φ (F g)) f (φ a) g :=
    fun g => Function.apply_update (fun _ => φ) F f a g
  have hsplit : ∑ g ∈ Finset.range n, φ (F g) = φ (F f) + ∑ g ∈ Finset.range n \ {f}, φ (F g) :=
    Finset.sum_eq_add_sum_sdiff_singleton_of_mem hmem fun g => φ (F g)
  rw [Finset.sum_congr rfl fun g _ => hcomp g, Finset.sum_update_of_mem hmem, hsplit]
  omega

theorem le_sum (hf : f < n) : φ (F f) ≤ ∑ g ∈ Finset.range n, φ (F g) :=
  Finset.single_le_sum (f := fun g => φ (F g)) (fun _ _ => Nat.zero_le _) (Finset.mem_range.mpr hf)

/-- Two members together are at most the sum. -/
theorem add_le_sum {g : Nat} (hf : f < n) (hg : g < n) (hne : f ≠ g) :
    φ (F f) + φ (F g) ≤ ∑ g ∈ Finset.range n, φ (F g) := by
  have hsub : ({f, g} : Finset Nat) ⊆ Finset.range n := by
    intro x hx
    rcases Finset.mem_insert.mp hx with rfl | hx
    · exact Finset.mem_range.mpr hf
    · exact Finset.mem_range.mpr (Finset.mem_singleton.mp hx ▸ hg)
  calc φ (F f) + φ (F g) = ∑ x ∈ ({f, g} : Finset Nat), φ (F x) := by
        rw [Finset.sum_pair hne]
    _ ≤ ∑ g ∈ Finset.range n, φ (F g) :=
      Finset.sum_le_sum_of_subset hsub

end Family

end NopeekOS.Lib
