import Mathlib

/-!
# Ordered maps over any key

A map is the list of its entries, each key once; the keys being different is part of the type. Where
a new key goes is decided by a comparison that the map is given: nothing here depends on what it
says, except the order in which the entries are visited.

`alter` is the one way to write: it makes the value of a key from the one there was. Lookups,
membership and sums over the values (`weight`) are described after `erase` and `alter`.
-/

namespace NopeekOS.Lib

open List

universe u v

section

variable {κ : Type u} {β : Type v} [BEq κ] [LawfulBEq κ] {key : β → κ} {l : List β} {e : β}
variable (hl : (l.map key).Nodup)

include hl

/-- Where the keys are distinct, looking one up is membership. -/
theorem find?_key_eq_some {k : κ} : l.find? (fun f => key f == k) = some e ↔ e ∈ l ∧ key e = k := by
  constructor
  · exact fun h => ⟨mem_of_find?_eq_some h, by simpa using find?_some h⟩
  · rintro ⟨he, rfl⟩
    have hsome : (l.find? fun f => key f == key e).isSome :=
      find?_isSome.mpr ⟨e, he, beq_self_eq_true _⟩
    obtain ⟨f, hf⟩ := Option.isSome_iff_exists.mp hsome
    have hkey : key f = key e := by simpa using find?_some hf
    rw [hf, inj_on_of_nodup_map hl (mem_of_find?_eq_some hf) he hkey]

omit [BEq κ] [LawfulBEq κ] in
/-- One entry, and those with other keys. -/
theorem perm_cons_filter_key {p : β → Bool} (he : e ∈ l) (hp : ∀ f, p f = true ↔ key f ≠ key e) :
    l.Perm (e :: l.filter p) := by
  have hnodup : (e :: l.filter p).Nodup := by
    refine nodup_cons.mpr ⟨fun hin => ?_, (hl.of_map _).filter _⟩
    exact (hp e).mp (mem_filter.mp hin).2 rfl
  refine (perm_ext_iff_of_nodup (hl.of_map _) hnodup).mpr fun f => ?_
  rw [mem_cons, mem_filter, hp]
  constructor
  · intro hf
    by_cases hk : key f = key e
    · exact .inl (inj_on_of_nodup_map hl hf he hk)
    · exact .inr ⟨hf, hk⟩
  · rintro (rfl | ⟨hf, -⟩)
    · exact he
    · exact hf

end

/-- A map from `κ` to `α`, as the list of its entries. -/
structure KeyMap (κ : Type u) (α : Type v) where
  entries : List (κ × α)
  nodup : (entries.map Prod.fst).Nodup

namespace KeyMap

variable {κ : Type u} {α : Type v} [DecidableEq κ] {m : KeyMap κ α} {v : α} {k : κ}

def empty : KeyMap κ α := ⟨[], nodup_nil⟩

def get (m : KeyMap κ α) (k : κ) : Option α := (m.entries.find? fun e => e.1 = k).map Prod.snd

theorem mem_entries_iff : (k, v) ∈ m.entries ↔ m.get k = some v := by
  rw [get, Option.map_eq_some_iff]
  constructor
  · exact fun h => ⟨(k, v), (find?_key_eq_some m.nodup).mpr ⟨h, rfl⟩, rfl⟩
  · rintro ⟨e, he, rfl⟩
    obtain ⟨hin, rfl⟩ := (find?_key_eq_some m.nodup).mp he
    exact hin

theorem get_eq_none_iff : m.get k = none ↔ k ∉ m.entries.map Prod.fst := by
  rw [get, Option.map_eq_none_iff, find?_eq_none]
  simp only [mem_map, not_exists, not_and, decide_eq_true_eq]

/-- Without the key. -/
def erase (m : KeyMap κ α) (k : κ) : KeyMap κ α where
  entries := m.entries.filter fun e => e.1 ≠ k
  nodup := m.nodup.sublist (filter_sublist.map _)

theorem mem_erase {e : κ × α} : e ∈ (m.erase k).entries ↔ e ∈ m.entries ∧ e.1 ≠ k := by
  simp [erase]

theorem get_erase {k j : κ} : (m.erase k).get j = if j = k then none else m.get j := by
  ext v
  rw [← mem_entries_iff, mem_erase, mem_entries_iff]
  split <;> simp_all

/-- A new entry in front of the first with a greater key. -/
def insertBy (lt : κ → κ → Bool) (e : κ × α) : List (κ × α) → List (κ × α)
  | [] => [e]
  | f :: l => if lt e.1 f.1 then e :: f :: l else f :: insertBy lt e l

omit [DecidableEq κ] in
theorem insertBy_perm (lt : κ → κ → Bool) (e : κ × α) (l : List (κ × α)) :
    (insertBy lt e l).Perm (e :: l) := by
  induction l with
  | nil => exact .refl _
  | cons f l ih =>
    rw [insertBy]
    split
    · exact .refl _
    · exact (ih.cons f).trans (.swap ..)

/-- The value of `k` becomes `f` of what it was. -/
def alter (lt : κ → κ → Bool) (m : KeyMap κ α) (k : κ) (f : Option α → α) : KeyMap κ α :=
  if h : k ∈ m.entries.map Prod.fst then
    ⟨m.entries.map fun e => if e.1 = k then (e.1, f (some e.2)) else e, by
      have hkeys : (m.entries.map fun e => if e.1 = k then (e.1, f (some e.2)) else e).map Prod.fst =
          m.entries.map Prod.fst := by
        rw [map_map]
        refine map_congr_left fun e _ => ?_
        simp only [Function.comp]
        split <;> rfl
      rw [hkeys]
      exact m.nodup⟩
  else
    ⟨insertBy lt (k, f none) m.entries, by
      rw [((insertBy_perm lt (k, f none) m.entries).map Prod.fst).nodup_iff, map_cons]
      exact nodup_cons.mpr ⟨h, m.nodup⟩⟩

variable {lt : κ → κ → Bool} {m : KeyMap κ α} {k : κ} {f : Option α → α}

/-- The entry of a key splits off. -/
theorem perm_erase (h : m.get k = some v) : m.entries.Perm ((k, v) :: (m.erase k).entries) :=
  perm_cons_filter_key m.nodup (mem_entries_iff.mpr h) fun _ => decide_eq_true_iff

theorem erase_of_none (h : m.get k = none) : (m.erase k).entries = m.entries := by
  refine filter_eq_self.mpr fun e he => ?_
  have hk : e.1 ≠ k := fun hk => get_eq_none_iff.mp h (hk ▸ mem_map_of_mem (f := Prod.fst) he)
  simpa using hk

theorem perm_alter : (m.alter lt k f).entries.Perm ((k, f (m.get k)) :: (m.erase k).entries) := by
  unfold alter
  split
  · next h =>
    obtain ⟨⟨k', v⟩, hv, rfl⟩ := mem_map.mp h
    have hget : m.get k' = some v := mem_entries_iff.mp hv
    refine ((perm_erase hget).map _).trans ?_
    -- The other entries are left as they are.
    have hrest : (m.erase k').entries.map (fun e => if e.1 = k' then (e.1, f (some e.2)) else e) =
        (m.erase k').entries :=
      (map_congr_left fun e he => if_neg (mem_erase.mp he).2).trans (map_id' _)
    rw [map_cons, if_pos rfl, hget, hrest]
  · next h =>
    have hnone := get_eq_none_iff.mpr h
    rw [hnone, erase_of_none hnone]
    exact insertBy_perm ..

theorem get_alter {j : κ} :
    (m.alter lt k f).get j = if j = k then some (f (m.get k)) else m.get j := by
  ext v
  rw [← mem_entries_iff, perm_alter.mem_iff, mem_cons, mem_erase, mem_entries_iff]
  split <;> simp_all [eq_comm]

/-! ## Sums -/

/-- The sum of a weight over the values. -/
def weight (w : α → Nat) (m : KeyMap κ α) : Nat := (m.entries.map fun e => w e.2).sum

theorem weight_erase (w : α → Nat) (h : m.get k = some v) :
    m.weight w = w v + (m.erase k).weight w := by
  rw [weight, ((perm_erase h).map _).sum_eq, map_cons, sum_cons]
  rfl

/-- Writing a value takes the weight of the old one out and puts that of the new one in. -/
theorem weight_alter (w : α → Nat) (lt : κ → κ → Bool) (m : KeyMap κ α) (k : κ)
    (f : Option α → α) : (m.alter lt k f).weight w = w (f (m.get k)) + (m.erase k).weight w := by
  rw [weight, (perm_alter.map _).sum_eq, map_cons, sum_cons]
  rfl

theorem length_erase (h : m.get k = some v) : (m.erase k).entries.length < m.entries.length := by
  have := (perm_erase h).length_eq
  simp only [length_cons] at this
  omega

end KeyMap

end NopeekOS.Lib
