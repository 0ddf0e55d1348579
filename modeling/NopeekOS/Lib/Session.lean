import Mathlib

/-!
# Sessions in an event log

A component reports events; some open a session, some close it, some may only come while one is
open. `Accepts kind o es` says that the log `es`, which starts with the session open or not as `o`
says, keeps to that, and `after kind o es` is whether it is open at the end. Both are read from the
left, so a log is extended by the events of one more call with `accepts_append` and `after_append`.

`OpenIn kind es` says the same of a whole log in terms of positions: an opening event with no
closing one behind it (`after_eq_true_iff`).
-/

namespace NopeekOS.Lib.Session

/-- What an event means for the session. -/
inductive Kind where
  | opens
  | within
  | closes
  | neutral
  deriving DecidableEq, Repr

variable {E : Type*} (kind : E → Kind)

/-- Whether the session is open behind the event. -/
def next (o : Bool) (e : E) : Bool :=
  match kind e with
  | .opens => true
  | .closes => false
  | .within | .neutral => o

/-- Whether the event may come: a session is opened once, and used only while it is open. -/
def Allowed (o : Bool) (e : E) : Prop :=
  (kind e = .opens → o = false) ∧ (kind e = .within → o = true)

/-- Whether the session is open behind the log. -/
def after (o : Bool) (es : List E) : Bool := es.foldl (next kind) o

/-- The log keeps to the protocol. -/
def Accepts : Bool → List E → Prop
  | _, [] => True
  | o, e :: es => Allowed kind o e ∧ Accepts (next kind o e) es

/-- The log has an opening event with no closing one behind it. -/
def OpenIn (es : List E) : Prop :=
  ∃ pre e post, es = pre ++ e :: post ∧ kind e = .opens ∧ ∀ f ∈ post, kind f ≠ .closes

variable {kind} {o : Bool} {e : E} {es fs : List E}

@[simp] theorem after_nil : after kind o [] = o := rfl

@[simp] theorem after_cons : after kind o (e :: es) = after kind (next kind o e) es := rfl

@[simp] theorem accepts_nil : Accepts kind o [] := trivial

@[simp] theorem accepts_cons :
    Accepts kind o (e :: es) ↔ Allowed kind o e ∧ Accepts kind (next kind o e) es := Iff.rfl

theorem after_append : after kind o (es ++ fs) = after kind (after kind o es) fs :=
  List.foldl_append

theorem accepts_append :
    Accepts kind o (es ++ fs) ↔ Accepts kind o es ∧ Accepts kind (after kind o es) fs := by
  induction es generalizing o with
  | nil => simp
  | cons e es ih => simp [ih, and_assoc]

/-- In an accepted log every event was allowed where it stands. -/
theorem Accepts.allowed (h : Accepts kind o (es ++ e :: fs)) : Allowed kind (after kind o es) e :=
  (accepts_append.mp h).2.1

/-- A log that opens nothing leaves a closed session closed. -/
theorem after_false_of_no_opens (h : ∀ f ∈ es, kind f ≠ .opens) : after kind false es = false := by
  induction es with
  | nil => rfl
  | cons e es ih =>
    have hnext : next kind false e = false := by
      unfold next
      split <;> simp_all
    rw [after_cons, hnext]
    exact ih fun f hf => h f (List.mem_cons_of_mem e hf)

/-- A log that closes the session and opens none leaves it closed. -/
theorem after_false_of_closes (hes : ∃ f ∈ es, kind f = .closes)
    (h : ∀ f ∈ es, kind f ≠ .opens) : after kind o es = false := by
  obtain ⟨f, hf, hkind⟩ := hes
  obtain ⟨pre, post, rfl⟩ := List.append_of_mem hf
  rw [after_append, after_cons]
  have hnext : next kind (after kind o pre) f = false := by simp [next, hkind]
  rw [hnext]
  exact after_false_of_no_opens fun g hg => h g (by simp [hg])

theorem openIn_concat : OpenIn kind (es ++ [e]) ↔
    kind e = .opens ∨ (OpenIn kind es ∧ kind e ≠ .closes) := by
  constructor
  · rintro ⟨pre, f, post, heq, hopens, hpost⟩
    -- The opening event is the last one, or it stands in `es` and the last is behind it.
    rcases List.eq_nil_or_concat post with rfl | ⟨post, g, rfl⟩
    · have := List.append_inj_right' heq rfl
      exact .inl (by simp_all)
    rw [List.concat_eq_append, ← List.cons_append, ← List.append_assoc] at heq
    obtain ⟨rfl, hlast⟩ := List.append_inj' heq rfl
    obtain rfl : e = g := by simpa using hlast
    refine .inr ⟨⟨pre, f, post, rfl, hopens, fun k hk => hpost k ?_⟩, hpost e ?_⟩
    · simp [hk]
    · simp
  · rintro (hopens | ⟨⟨pre, f, post, rfl, hopens, hpost⟩, hne⟩)
    · exact ⟨es, e, [], rfl, hopens, by simp⟩
    · exact ⟨pre, f, post ++ [e], by simp, hopens,
        List.forall_mem_append.mpr ⟨hpost, List.forall_mem_singleton.mpr hne⟩⟩

/-- The session is open behind a log exactly if it was opened there and not closed since. -/
theorem after_eq_true_iff : after kind false es = true ↔ OpenIn kind es := by
  induction es using List.reverseRecOn with
  | nil => simp [OpenIn]
  | append_singleton es e ih =>
    rw [after_append, openIn_concat, ← ih, after_cons, after_nil, next]
    cases h : kind e <;> simp

end NopeekOS.Lib.Session
