import Mathlib

/-!
# Two counters and an epoch

A grace period kept with two counters: a reader counts itself in the counter of the
epoch's parity and leaves by the same one; who wants every earlier reader gone flips
the parity and waits for the counter of the old one to reach zero. `index t` is the
counter reader `t` is counted in.

`Counts` ties the counters to the readers, `Settled` says which readers can be there:
those of the current parity and, while somebody waits, those of the one waited for.
With both, a counter found zero means that no reader of the old parity is left
(`Counts.none_of_zero`), and the wait ends with everybody in the current one
(`Settled.passed`). Both survive the operations as long as a reader that counts itself
takes the current parity (`Settled.moved`).
-/

namespace NopeekOS.Lib

open Function

variable {T : Type*}

/-- Exactly these readers are counted in `i`. -/
def ReadersAt (index : T → Option Bool) (i : Bool) (s : Finset T) : Prop :=
  ∀ t, t ∈ s ↔ index t = some i

/-- Every counter holds the number of its readers. -/
def Counts (counter : Bool → BitVec 32) (index : T → Option Bool) : Prop :=
  ∀ i, ∃ s, ReadersAt index i s ∧ s.card = (counter i).toNat

/-- Readers are in the current counter, or in the one waited for. -/
def Settled (parity : Bool) (waiting : Option Bool) (index : T → Option Bool) : Prop :=
  ∀ t i, index t = some i → i = parity ∨ waiting = some i

variable {counter : Bool → BitVec 32} {index : T → Option Bool} {i : Bool}

/-- Nobody is left in a counter found zero. -/
theorem Counts.none_of_zero (h : Counts counter index) (hzero : counter i = 0) (t : T) :
    index t ≠ some i := by
  intro ht
  obtain ⟨s, hs, hcard⟩ := h i
  rw [hzero] at hcard
  have hempty : s = ∅ := Finset.card_eq_zero.mp hcard
  have hmem := (hs t).mpr ht
  rw [hempty] at hmem
  exact absurd hmem (Finset.notMem_empty t)

variable [DecidableEq T]

variable {s : Finset T}

theorem ReadersAt.moved (h : ReadersAt index i s) (t : T) (o : Option Bool) :
    ReadersAt (update index t o) i (if o = some i then insert t s else s.erase t) := by
  intro t'
  by_cases ht : t' = t
  · subst ht
    split <;> simp [*]
  · split <;> simp [ht, h t']

variable {t : T}

/-- A reader counts itself; the counter must have room. -/
theorem Counts.enter (h : Counts counter index) (ht : index t = none)
    (hroom : counter i ≠ BitVec.allOnes 32) :
    Counts (update counter i (counter i + 1)) (update index t (some i)) := by
  intro j
  obtain ⟨s, hs, hcard⟩ := h j
  by_cases hj : j = i
  · subst hj
    have hnew : t ∉ s := by rw [hs t, ht]; exact nofun
    have hlt : (counter j).toNat + 1 < 2 ^ 32 := by
      have hne : (counter j).toNat ≠ 2 ^ 32 - 1 := fun heq => hroom (by
        apply BitVec.eq_of_toNat_eq
        rw [heq, BitVec.toNat_allOnes])
      have := (counter j).isLt
      omega
    refine ⟨_, hs.moved t (some j), ?_⟩
    rw [if_pos rfl, Finset.card_insert_of_notMem hnew, hcard, update_self, BitVec.toNat_add]
    exact (Nat.mod_eq_of_lt hlt).symm
  · have hnot : t ∉ s := by rw [hs t, ht]; exact nofun
    refine ⟨_, hs.moved t (some i), ?_⟩
    rw [if_neg fun heq => hj (Option.some.inj heq).symm, Finset.erase_eq_of_notMem hnot,
      update_of_ne hj, hcard]

/-- A reader leaves by the counter it is in. -/
theorem Counts.leave (h : Counts counter index) (ht : index t = some i) :
    Counts (update counter i (counter i - 1)) (update index t none) := by
  intro j
  obtain ⟨s, hs, hcard⟩ := h j
  refine ⟨s.erase t, hs.moved t none, ?_⟩
  by_cases hj : j = i
  · subst hj
    have hmem : t ∈ s := (hs t).mpr ht
    have hpos : 0 < s.card := Finset.card_pos.mpr ⟨t, hmem⟩
    rw [Finset.card_erase_of_mem hmem, update_self, BitVec.toNat_sub]
    rw [hcard] at hpos ⊢
    simp
    omega
  · have hnot : t ∉ s := by
      rw [hs t, ht]
      exact fun heq => hj (Option.some.inj heq).symm
    rw [Finset.erase_eq_of_notMem hnot, update_of_ne hj, hcard]

variable {parity : Bool}

theorem Settled.moved {waiting o : Option Bool} (h : Settled parity waiting index) (t : T)
    (ho : ∀ i, o = some i → i = parity) : Settled parity waiting (update index t o) :=
  (forall_update_iff index fun _ o => ∀ i, o = some i → i = parity ∨ waiting = some i).mpr
    ⟨fun i hi => .inl (ho i hi), fun t' _ => h t'⟩

omit [DecidableEq T] in
/-- Flipping the parity makes everybody there a reader of the old one. -/
theorem Settled.flipped (h : Settled parity none index) :
    Settled (!parity) (some parity) index := by
  intro t i hi
  rcases h t i hi with rfl | h
  · exact .inr rfl
  · exact nomatch h

omit [DecidableEq T] in
/-- **The wait ends with everybody in the current epoch.** -/
theorem Settled.passed {old : Bool} (h : Settled parity (some old) index)
    (hcount : Counts counter index) (hzero : counter old = 0) : Settled parity none index := by
  intro t i hi
  rcases h t i hi with rfl | hold
  · exact .inl rfl
  · obtain rfl := Option.some.inj hold
    exact absurd hi (hcount.none_of_zero hzero t)

end NopeekOS.Lib
