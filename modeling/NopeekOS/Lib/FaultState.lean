import Mathlib

/-!
# Stateful computations that may fault

`FaultState σ ε α` is a computation over a state `σ` that returns an `α` or stops
with a fault `ε`; what it did to the state before the fault stays done.

`wp x Q E s` is its weakest precondition: run from `s`, `x` either returns with
`Q` or faults with `E`. Programs are specified by one `wp` lemma each and
composed with `wp_bind` and `wp_mono`; a caller never unfolds a callee.
-/

namespace NopeekOS.Lib

/-- A computation over `σ` that returns an `α` or faults with an `ε`. -/
def FaultState (σ ε α : Type) : Type := σ → Except ε α × σ

namespace FaultState

variable {σ ε α β : Type} {E' : ε → σ → Prop}

instance : Monad (FaultState σ ε) where
  pure a := fun s => (.ok a, s)
  bind x f := fun s =>
    match x s with
    | (.ok a, s') => f a s'
    | (.error e, s') => (.error e, s')

variable (x : FaultState σ ε α)

variable (f : α → FaultState σ ε β)

theorem bind_apply (s : σ) : (x >>= f) s = match x s with
    | (.ok a, s') => f a s'
    | (.error e, s') => (.error e, s') := rfl

instance : LawfulMonad (FaultState σ ε) :=
  have hid {α : Type} (x : FaultState σ ε α) : x >>= pure = x := by
    funext s
    rw [bind_apply]
    rcases x s with ⟨a | e, s'⟩ <;> rfl
  have hassoc {α β γ : Type} (x : FaultState σ ε α) (f : α → FaultState σ ε β)
      (g : β → FaultState σ ε γ) : x >>= f >>= g = x >>= fun a => f a >>= g := by
    funext s
    simp only [bind_apply]
    rcases x s with ⟨a | e, s'⟩ <;> rfl
  LawfulMonad.mk' _ hid (fun _ _ => rfl) hassoc

/-- Stop with a fault. -/
def fault (e : ε) : FaultState σ ε α := fun s => (.error e, s)

/-- Read from the state. -/
def gets (f : σ → α) : FaultState σ ε α := fun s => (.ok (f s), s)

/-- Change the state. -/
def modify (f : σ → σ) : FaultState σ ε Unit := fun s => (.ok (), f s)

/-- A result that is already there. -/
def ofExcept : Except ε α → FaultState σ ε α
  | .ok a => fun s => (.ok a, s)
  | .error e => fun s => (.error e, s)

/-- Weakest precondition: from `s`, `x` returns with `Q` or faults with `E`. -/
def wp (x : FaultState σ ε α) (Q : α → σ → Prop) (E : ε → σ → Prop) (s : σ) : Prop :=
  match x s with
  | (.ok a, s') => Q a s'
  | (.error e, s') => E e s'

variable {Q : α → σ → Prop} {E : ε → σ → Prop} {s s' : σ}

@[simp] theorem wp_pure (a : α) : wp (pure a : FaultState σ ε α) Q E s ↔ Q a s := Iff.rfl

@[simp] theorem wp_gets (f : σ → α) : wp (gets f : FaultState σ ε α) Q E s ↔ Q (f s) s := Iff.rfl

variable {R : β → σ → Prop}

theorem wp_bind : wp (x >>= f) R E s ↔ wp x (fun a => wp (f a) R E) E s := by
  unfold wp
  rw [bind_apply]
  rcases x s with ⟨a | e, s'⟩ <;> rfl

variable {x : FaultState σ ε α}

/-- Consequence. -/
theorem wp_mono {Q' : α → σ → Prop} (h : wp x Q E s)
    (hQ : ∀ a s', Q a s' → Q' a s') (hE : ∀ e s', E e s' → E' e s') : wp x Q' E' s := by
  unfold wp at h ⊢
  rcases hx : x s with ⟨a | e, s'⟩
  · rw [hx] at h
    exact hE _ _ h
  · rw [hx] at h
    exact hQ _ _ h

variable {f : α → FaultState σ ε β}

/-- Sequencing two specified computations. -/
theorem wp_seq (h : wp x Q E s) (hf : ∀ a s', Q a s' → wp (f a) R E s') : wp (x >>= f) R E s :=
  (wp_bind x f).mpr (wp_mono h hf fun _ _ he => he)

/-- Sequencing, when the first part's faults are weakened. -/
theorem wp_seq_mono (h : wp x Q E' s) (hE : ∀ e s', E' e s' → E e s')
    (hf : ∀ a s', Q a s' → wp (f a) R E s') : wp (x >>= f) R E s :=
  wp_seq (wp_mono h (fun _ _ hq => hq) hE) hf

/-- A computation that runs as `x` does. -/
theorem wp_congr {y : FaultState σ ε α} (hy : y s = x s) (h : wp x Q E s) : wp y Q E s := by
  unfold wp at h ⊢
  rwa [hy]

/-- Every computation returns or faults. -/
theorem wp_true (s : σ) : wp x (fun _ _ => True) (fun _ _ => True) s := by
  unfold wp
  rcases x s with ⟨_ | _, _⟩ <;> trivial

variable {a : α}

/-- What `x` returned satisfies its postcondition. -/
theorem of_wp_ok (h : wp x Q E s) (hx : x s = (.ok a, s')) : Q a s' := by
  unfold wp at h
  rwa [hx] at h

theorem of_wp_error {e : ε} (h : wp x Q E s) (hx : x s = (.error e, s')) : E e s' := by
  unfold wp at h
  rwa [hx] at h

/-- Running a sequence whose first part returns. -/
theorem bind_run (hx : x s = (.ok a, s')) : (x >>= f) s = f a s' := by
  rw [bind_apply, hx]

/-- Running a sequence whose first part faults. -/
theorem bind_run_error {e : ε} (hx : x s = (.error e, s')) : (x >>= f) s = (.error e, s') := by
  rw [bind_apply, hx]

/-- Sequencing after a computation whose result is known. -/
theorem wp_of_run (hx : x s = (.ok a, s')) (h : wp (f a) R E s') : wp (x >>= f) R E s := by
  unfold wp at h ⊢
  rwa [bind_run hx]

end FaultState

end NopeekOS.Lib
