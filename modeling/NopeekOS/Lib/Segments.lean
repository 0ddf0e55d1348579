import Mathlib

/-!
# Strings split at a separator

`l.splitOn sep` are the segments of `l`. A string continues another one behind a
separator iff its segments properly extend the other's: the one fact that makes a
prefix test on strings a prefix test on segment lists.
-/

namespace NopeekOS.Lib

variable {α : Type*}

/-- `l` is a prefix of `l'` and not all of it. -/
def ProperPrefix (l l' : List α) : Prop := ∃ rest, rest ≠ [] ∧ l' = l ++ rest

/-- Joining appended lists of segments. -/
theorem intercalate_append (sep : α) {xs ys : List (List α)} (hxs : xs ≠ []) (hys : ys ≠ []) :
    [sep].intercalate (xs ++ ys) = [sep].intercalate xs ++ sep :: [sep].intercalate ys := by
  induction xs with
  | nil => exact absurd rfl hxs
  | cons x xs ih =>
    cases xs with
    | nil =>
      obtain ⟨y, ys', rfl⟩ := List.exists_cons_of_ne_nil hys
      rw [List.singleton_append, List.intercalate_cons_cons, List.intercalate_singleton]
      simp
    | cons x' xs' =>
      have := ih (List.cons_ne_nil x' xs')
      rw [List.cons_append, List.cons_append, List.intercalate_cons_cons,
        List.intercalate_cons_cons, ← List.cons_append, this]
      simp

/-- The test for a continuation that looks at one position. -/
theorem continues_iff_getElem [BEq α] [LawfulBEq α] (sep : α) (a b : List α) :
    (a.isPrefixOf b = true ∧ b[a.length]? = some sep) ↔ ∃ rest, b = a ++ sep :: rest := by
  constructor
  · rintro ⟨hpre, hsep⟩
    obtain ⟨rest, rfl⟩ := List.isPrefixOf_iff_prefix.mp hpre
    rw [List.getElem?_append_right (Nat.le_refl _), Nat.sub_self] at hsep
    cases rest with
    | nil => exact nomatch hsep
    | cons b rest =>
      injection hsep with hb
      exact ⟨rest, by rw [← hb]⟩
  · rintro ⟨rest, rfl⟩
    refine ⟨List.isPrefixOf_iff_prefix.mpr (List.prefix_append _ _), ?_⟩
    rw [List.getElem?_append_right (Nat.le_refl _), Nat.sub_self]
    rfl

/-- **A string continues `a` behind a separator iff its segments properly extend
those of `a`.** -/
theorem continues_iff_properPrefix [BEq α] [LawfulBEq α] (sep : α) (a b : List α) :
    (∃ rest, b = a ++ sep :: rest) ↔ ProperPrefix (a.splitOn sep) (b.splitOn sep) := by
  constructor
  · rintro ⟨rest, rfl⟩
    exact ⟨rest.splitOn sep, by simp, List.splitOn_append_cons_self ..⟩
  · rintro ⟨rest, hne, hb⟩
    refine ⟨[sep].intercalate rest, ?_⟩
    calc b = [sep].intercalate (b.splitOn sep) := (List.intercalate_splitOn sep).symm
      _ = [sep].intercalate (a.splitOn sep ++ rest) := by rw [hb]
      _ = [sep].intercalate (a.splitOn sep) ++ sep :: [sep].intercalate rest :=
          intercalate_append sep (by simp) hne
      _ = a ++ sep :: [sep].intercalate rest := by rw [List.intercalate_splitOn]

end NopeekOS.Lib
