import Mathlib

/-!
# Stable sorting by a key

What holds between every element and every later one of a stably sorted list,
said about the list before it was sorted (`pairwise_insertionSort_iff`): of two
elements the one with the smaller key comes first, and with equal keys the one
that came first.
-/

namespace NopeekOS.Lib

variable {α : Type*} (key : α → Nat) {R : α → α → Prop}

/-- `R` in the order a stable sort by `key` gives to `a` and a later `b`. -/
def InKeyOrder (R : α → α → Prop) (a b : α) : Prop :=
  (key a ≤ key b → R a b) ∧ (key b < key a → R b a)

theorem pairwise_orderedInsert_iff (a : α) : ∀ {l : List α}, l.Pairwise (fun x y => key x ≤ key y) →
      ((l.orderedInsert (fun x y => key x ≤ key y) a).Pairwise R ↔
        l.Pairwise R ∧ ∀ b ∈ l, InKeyOrder key R a b)
  | [], _ => by simp
  | b :: l, hsorted => by
    obtain ⟨hb, hl⟩ := List.pairwise_cons.mp hsorted
    rw [List.orderedInsert]
    split_ifs with hab
    · -- `a` goes first: every key is at least its own
      have hle : ∀ c ∈ b :: l, key a ≤ key c :=
        List.forall_mem_cons.mpr ⟨hab, fun c hc => hab.trans (hb c hc)⟩
      have horder : ∀ c ∈ b :: l, (InKeyOrder key R a c ↔ R a c) := fun c hc =>
        ⟨fun h => h.1 (hle c hc), fun h => ⟨fun _ => h, fun hlt =>
          absurd (hle c hc) (Nat.not_le.mpr hlt)⟩⟩
      rw [List.pairwise_cons, and_comm]
      exact and_congr_right fun _ => forall₂_congr fun c hc => (horder c hc).symm
    · -- `b` stays first
      have hba : InKeyOrder key R a b ↔ R b a :=
        ⟨fun h => h.2 (Nat.lt_of_not_le hab), fun h => ⟨fun hle => absurd hle hab, fun _ => h⟩⟩
      rw [List.pairwise_cons, pairwise_orderedInsert_iff a hl, List.pairwise_cons]
      simp only [List.mem_orderedInsert, List.mem_cons, forall_eq_or_imp, hba]
      tauto

/-- A relation between earlier and later elements of the sorted list. -/
theorem pairwise_insertionSort_iff (l : List α) :
    (l.insertionSort fun x y => key x ≤ key y).Pairwise R ↔ l.Pairwise (InKeyOrder key R) := by
  induction l with
  | nil => simp
  | cons a l ih =>
    have hsorted : (l.insertionSort fun x y => key x ≤ key y).Pairwise
        (fun x y => key x ≤ key y) := by
      have htotal : Std.Total fun x y : α => key x ≤ key y := ⟨fun x y => Nat.le_total _ _⟩
      have htrans : IsTrans α fun x y => key x ≤ key y := ⟨fun _ _ _ => Nat.le_trans⟩
      exact List.pairwise_insertionSort _ _
    rw [List.insertionSort_cons, pairwise_orderedInsert_iff key a hsorted, ih,
      List.pairwise_cons, and_comm]
    simp only [List.mem_insertionSort]

end NopeekOS.Lib
