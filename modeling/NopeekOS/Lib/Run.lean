import Mathlib

/-!
# Runs of a labelled transition system

Every component of the kernel is modelled as a state with a step relation
`step : S → L → S → Prop`, where a label is one call with its arguments (and
whatever the environment chose for it). `Run step s ls s'` is a finite run with
the labels it took.

The one induction the safety proofs need is packaged here: a predicate that one
step preserves holds after every run (`Run.invariant`), and the same where the
labels of the run all satisfy a side condition (`Run.invariant_of`).
-/

namespace NopeekOS.Lib

universe u v

variable {S : Type u} {L : Type v} {step : S → L → S → Prop} {I : S → Prop}

/-- Finite runs, with the labels taken, oldest first. -/
inductive Run (step : S → L → S → Prop) : S → List L → S → Prop where
  | nil (s : S) : Run step s [] s
  | cons {s s₁ s₂ : S} {l : L} {ls : List L} :
      step s l s₁ → Run step s₁ ls s₂ → Run step s (l :: ls) s₂

namespace Run

variable {s s' : S}

theorem single {l : L} (h : step s l s') : Run step s [l] s' :=
  .cons h (.nil s')

variable {s₂ : S} {ls : List L}

theorem append {s₁ : S} {ls' : List L} (h : Run step s ls s₁) (h' : Run step s₁ ls' s₂) :
    Run step s (ls ++ ls') s₂ := by
  induction h with
  | nil => exact h'
  | cons hstep _ ih => exact .cons hstep (ih h')

theorem snoc {s₁ : S} {l : L} (h : Run step s ls s₁) (h' : step s₁ l s₂) :
    Run step s (ls ++ [l]) s₂ :=
  h.append (single h')

/-- A run over an appended label list passes through a middle state. -/
theorem split {ls' : List L} (h : Run step s (ls ++ ls') s₂) :
    ∃ s₁, Run step s ls s₁ ∧ Run step s₁ ls' s₂ := by
  induction ls generalizing s with
  | nil => exact ⟨s, .nil s, h⟩
  | cons l ls ih =>
    cases h with
    | cons hstep hrest =>
      obtain ⟨s₁, h₁, h₂⟩ := ih hrest
      exact ⟨s₁, .cons hstep h₁, h₂⟩

/-- **Invariant rule**, under a condition on the labels of the run: what every
step with a good label preserves holds at the end of every run with good
labels. -/
theorem invariant_of {G : L → Prop}
    (hstep : ∀ s l s', I s → G l → step s l s' → I s') (hrun : Run step s ls s')
    (hgood : ∀ l ∈ ls, G l) (hs : I s) : I s' := by
  induction hrun with
  | nil => exact hs
  | cons h _ ih =>
    refine ih (fun l hl => hgood l (List.mem_cons_of_mem _ hl)) ?_
    exact hstep _ _ _ hs (hgood _ List.mem_cons_self) h

/-- **Invariant rule**: what every step preserves holds after every run. -/
theorem invariant (hstep : ∀ s l s', I s → step s l s' → I s')
    (hrun : Run step s ls s') (hs : I s) : I s' :=
  invariant_of (G := fun _ => True) (fun s l s' hI _ h => hstep s l s' hI h)
    hrun (fun _ _ => trivial) hs

/-- **Simulation rule**: a relation that every step of the concrete system keeps
with a step of the abstract one carries whole runs over, with the same labels. -/
theorem simulate {A : Type*} {astep : A → L → A → Prop} {R : S → A → Prop} {a : A}
    (hstep : ∀ s l s' a, R s a → step s l s' → ∃ a', astep a l a' ∧ R s' a')
    (hrun : Run step s ls s') (h : R s a) : ∃ a', Run astep a ls a' ∧ R s' a' := by
  induction hrun generalizing a with
  | nil => exact ⟨a, .nil a, h⟩
  | cons hs _ ih =>
    obtain ⟨a₁, ha₁, h₁⟩ := hstep _ _ _ _ h hs
    obtain ⟨a₂, ha₂, h₂⟩ := ih h₁
    exact ⟨a₂, .cons ha₁ ha₂, h₂⟩

end Run

end NopeekOS.Lib
