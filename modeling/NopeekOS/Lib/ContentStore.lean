import Mathlib

/-!
# Content-addressed stores

Objects `O` are kept under addresses `H` computed from them. Under an injective
`Addressing` a store holds at an address the one object with that address or
nothing, so stores are ordered by what they hold and putting an object only ever
adds to them. `null` is an address that no object has.
-/

namespace NopeekOS.Lib

open Function

variable {O H : Type*}

/-- Addresses that determine the object, and one that no object has. -/
structure Addressing (O H : Type*) where
  addr : O → H
  inj : Function.Injective addr
  null : H
  addr_ne : ∀ o, addr o ≠ null

/-- A store: what it holds at an address has that address. -/
@[ext] structure ContentStore (A : Addressing O H) where
  get : H → Option O
  addressed : ∀ {h : H} {o : O}, get h = some o → A.addr o = h

namespace ContentStore

variable {A : Addressing O H}

/-- The store that holds nothing. -/
def empty : ContentStore A := ⟨fun _ => none, nofun⟩

/-- Put an object under its address. -/
def put [DecidableEq H] (st : ContentStore A) (o : O) : ContentStore A where
  get := update st.get (A.addr o) (some o)
  addressed := by
    intro h o' hget
    by_cases hh : h = A.addr o
    · subst hh
      rw [update_self, Option.some.injEq] at hget
      rw [hget]
    · rw [update_of_ne hh] at hget
      exact st.addressed hget

/-- `st'` holds all that `st` does. -/
instance : LE (ContentStore A) := ⟨fun st st' => ∀ h o, st.get h = some o → st'.get h = some o⟩

variable (st : ContentStore A)

theorem le_refl : st ≤ st := fun _ _ h => h

theorem le_trans {st st₁ st₂ : ContentStore A} (h : st ≤ st₁) (h' : st₁ ≤ st₂) : st ≤ st₂ :=
  fun a o hget => h' a o (h a o hget)

variable [DecidableEq H]

theorem get_put (o : O) : (st.put o).get (A.addr o) = some o :=
  update_self ..

/-- Putting an object adds to a store: under its address there was it or nothing. -/
theorem le_put (o : O) : st ≤ st.put o := by
  intro h o' hget
  by_cases hh : h = A.addr o
  · subst hh
    rw [A.inj (st.addressed hget)]
    exact st.get_put o
  · exact (update_of_ne hh ..).trans hget

end ContentStore

end NopeekOS.Lib
