import NopeekOS.Lib.KeyMap

/-!
# Ordered maps as ascending lists

A map from numbers is the list of its entries by ascending key. The map operations that
look at a range of keys are filters; what is said here is how a new entry is put in
(`insertKey`), what the last entry of a range is (`lastWhere`), and how looking up,
putting in and taking out an entry go together (`getKey`, `eraseKey`). Sums over the
values split off the entry of a key (`sum_eraseKey`, `sum_insertKey`).
-/

namespace NopeekOS.Lib

open List

variable {α : Type*} {m : List (Nat × α)} {k : Nat} {v : α} {m' : List (Nat × α)} {p : Nat → Bool}

/-- Ascending keys, each once. -/
def Ascending (m : List (Nat × α)) : Prop := m.Pairwise fun a b => a.1 < b.1

/-- Put an entry in, in the place of the one with the same key if there is one. -/
def insertKey (k : Nat) (v : α) : List (Nat × α) → List (Nat × α)
  | [] => [(k, v)]
  | e :: m =>
    if k < e.1 then (k, v) :: e :: m
    else if k = e.1 then (k, v) :: m
    else e :: insertKey k v m

/-- The value of a key. -/
def getKey (k : Nat) (m : List (Nat × α)) : Option α := (m.find? fun e => e.1 == k).map Prod.snd

/-- Take an entry out. -/
def eraseKey (k : Nat) (m : List (Nat × α)) : List (Nat × α) := m.filter fun e => e.1 != k

/-- The last entry with a key in a range. -/
def lastWhere (p : Nat → Bool) (m : List (Nat × α)) : Option (Nat × α) :=
  (m.filter fun e => p e.1).getLast?

theorem Ascending.nodup_keys (hm : Ascending m) : (m.map Prod.fst).Nodup :=
  pairwise_map.mpr (hm.imp Nat.ne_of_lt)

/-- An entry is known by its key. -/
theorem Ascending.eq_of_key (hm : Ascending m) {a b : Nat × α} (ha : a ∈ m) (hb : b ∈ m)
    (h : a.1 = b.1) : a = b :=
  inj_on_of_nodup_map hm.nodup_keys ha hb h

theorem mem_eraseKey (e : Nat × α) : e ∈ eraseKey k m ↔ e ∈ m ∧ e.1 ≠ k := by
  rw [eraseKey, mem_filter, bne_iff_ne]

theorem eraseKey_of_forall_ne (h : ∀ e ∈ m, e.1 ≠ k) : eraseKey k m = m :=
  filter_eq_self.mpr fun e he => bne_iff_ne.mpr (h e he)

section

variable (hm : Ascending m)

include hm

/-- Putting an entry in: it takes the place of the one with its key. -/
theorem insertKey_perm_eraseKey : (insertKey k v m).Perm ((k, v) :: eraseKey k m) := by
  induction m with
  | nil => exact .refl _
  | cons f m ih =>
    obtain ⟨hlater, hrest⟩ := pairwise_cons.mp hm
    rw [insertKey]
    split
    · -- In front: all keys are above `k`.
      rename_i hlt
      rw [eraseKey_of_forall_ne (forall_mem_cons.mpr
        ⟨Nat.ne_of_gt hlt, fun e he => Nat.ne_of_gt (Nat.lt_trans hlt (hlater e he))⟩)]
    · split
      · -- In the place of the head.
        rename_i heq
        rw [eraseKey, filter_cons_of_neg (by simp [heq]), ← eraseKey,
          eraseKey_of_forall_ne fun e he => heq ▸ Nat.ne_of_gt (hlater e he)]
      · rename_i hne
        rw [eraseKey, filter_cons_of_pos (by simpa using Ne.symm hne)]
        exact ((ih hrest).cons f).trans (.swap ..)

/-- A new key only adds an entry. -/
theorem insertKey_perm (h : ∀ e ∈ m, e.1 ≠ k) : (insertKey k v m).Perm ((k, v) :: m) := by
  have hperm := insertKey_perm_eraseKey (k := k) (v := v) hm
  rwa [eraseKey_of_forall_ne h] at hperm

theorem mem_insertKey (e : Nat × α) : e ∈ insertKey k v m ↔ e = (k, v) ∨ (e ∈ m ∧ e.1 ≠ k) := by
  rw [(insertKey_perm_eraseKey hm).mem_iff, mem_cons, mem_eraseKey]

/-- Putting an entry in keeps a relation between earlier and later entries. -/
theorem pairwise_insertKey {R : Nat × α → Nat × α → Prop} (hR : m.Pairwise R)
    (h : ∀ e ∈ m, e.1 ≠ k → (e.1 < k ∧ R e (k, v)) ∨ (k < e.1 ∧ R (k, v) e)) :
    (insertKey k v m).Pairwise R := by
  induction m with
  | nil => exact pairwise_singleton ..
  | cons e m ih =>
    obtain ⟨he, hR'⟩ := pairwise_cons.mp hR
    obtain ⟨hlater, hrest⟩ := pairwise_cons.mp hm
    have hafter (f : Nat × α) (hf : f ∈ e :: m) (hlt : k < f.1) : R (k, v) f :=
      ((h f hf (Nat.ne_of_gt hlt)).resolve_left fun h => Nat.lt_asymm hlt h.1).2
    rw [insertKey]
    split
    · rename_i hlt
      refine pairwise_cons.mpr ⟨fun f hf => hafter f hf ?_, hR⟩
      rcases mem_cons.mp hf with rfl | hf
      · exact hlt
      · exact Nat.lt_trans hlt (hlater f hf)
    · split
      · rename_i heq
        refine pairwise_cons.mpr ⟨fun f hf => ?_, hR'⟩
        exact hafter f (mem_cons_of_mem _ hf) (heq ▸ hlater f hf)
      rename_i hge hne
      refine pairwise_cons.mpr ⟨fun f hf => ?_, ih hrest hR' fun f hf => h f (mem_cons_of_mem _ hf)⟩
      rcases (mem_insertKey hrest f).mp hf with rfl | ⟨hf, -⟩
      · exact ((h e mem_cons_self (Ne.symm hne)).resolve_right fun h => hge h.1).2
      · exact he f hf

/-! ## Looking up -/

theorem Ascending.insertKey (k : Nat) (v : α) : Ascending (Lib.insertKey k v m) :=
  pairwise_insertKey hm hm fun _ _ hne =>
    (Nat.lt_or_gt_of_ne hne).imp (fun h => ⟨h, h⟩) fun h => ⟨h, h⟩

theorem Ascending.filter (p : Nat × α → Bool) : Ascending (m.filter p) :=
  List.Pairwise.filter p hm

theorem Ascending.eraseKey (k : Nat) : Ascending (Lib.eraseKey k m) :=
  hm.filter _

theorem Ascending.nodup : m.Nodup :=
  hm.imp fun hlt heq => Nat.ne_of_lt hlt (congrArg Prod.fst heq)

/-- A map is known by its entries. -/
theorem Ascending.eq_of_mem_iff (hm' : Ascending m') (h : ∀ e, e ∈ m ↔ e ∈ m') : m = m' := by
  have : Std.Irrefl fun a b : Nat × α => a.1 < b.1 := ⟨fun _ => Nat.lt_irrefl _⟩
  have : Std.Antisymm fun a b : Nat × α => a.1 < b.1 :=
    ⟨fun _ _ hab hba => absurd hba (Nat.lt_asymm hab)⟩
  exact List.Pairwise.eq_of_mem_iff hm hm' h

end

theorem getKey_eq_some (hm : Ascending m) : getKey k m = some v ↔ (k, v) ∈ m := by
  unfold getKey
  rw [Option.map_eq_some_iff]
  constructor
  · rintro ⟨e, he, rfl⟩
    obtain ⟨hmem, rfl⟩ := (find?_key_eq_some hm.nodup_keys).mp he
    exact hmem
  · exact fun hmem => ⟨(k, v), (find?_key_eq_some hm.nodup_keys).mpr ⟨hmem, rfl⟩, rfl⟩

theorem getKey_eq_none : getKey k m = none ↔ ∀ e ∈ m, e.1 ≠ k := by
  simp [getKey]

section

variable (hm : Ascending m)

include hm

theorem getKey_ext (hm' : Ascending m') {j : Nat}
    (h : ∀ v, (k, v) ∈ m ↔ (j, v) ∈ m') : getKey k m = getKey j m' := by
  refine Option.ext fun v => ?_
  rw [getKey_eq_some hm, getKey_eq_some hm', h]

theorem getKey_insertKey (j : Nat) :
    getKey j (insertKey k v m) = if j = k then some v else getKey j m := by
  split
  · rename_i heq
    exact (getKey_eq_some (hm.insertKey k v)).mpr ((mem_insertKey hm _).mpr (.inl (heq ▸ rfl)))
  rename_i hne
  refine getKey_ext (hm.insertKey k v) hm fun w => ?_
  rw [mem_insertKey hm, Prod.mk.injEq]
  exact ⟨fun h => (h.resolve_left fun h => hne h.1).1, fun h => .inr ⟨h, hne⟩⟩

theorem getKey_eraseKey (j : Nat) :
    getKey j (eraseKey k m) = if j = k then none else getKey j m := by
  split
  · rename_i heq
    exact getKey_eq_none.mpr fun e he => heq ▸ ((mem_eraseKey e).mp he).2
  rename_i hne
  refine getKey_ext (hm.eraseKey k) hm fun w => ?_
  rw [mem_eraseKey]
  exact ⟨And.left, fun h => ⟨h, hne⟩⟩

/-- Values that are mapped, and entries kept by their value. -/
theorem getKey_filter_map (f : α → α) (p : α → Bool) (j : Nat) :
    getKey j ((m.map fun e => (e.1, f e.2)).filter fun e => p e.2) =
      ((getKey j m).map f).filter p := by
  have hasc : Ascending (m.map fun e => (e.1, f e.2)) := pairwise_map.mpr hm
  refine Option.ext fun w => ?_
  rw [getKey_eq_some (hasc.filter _), mem_filter, mem_map, Option.filter_eq_some_iff,
    Option.map_eq_some_iff]
  refine and_congr_left' ⟨?_, ?_⟩
  · rintro ⟨e, he, heq⟩
    cases heq
    exact ⟨e.2, (getKey_eq_some hm).mpr he, rfl⟩
  · rintro ⟨v, hv, rfl⟩
    exact ⟨(j, v), (getKey_eq_some hm).mp hv, rfl⟩

/-! ## Sums over the values -/

/-- The entry of a key, and the others. -/
theorem perm_eraseKey (h : getKey k m = some v) : m.Perm ((k, v) :: eraseKey k m) :=
  perm_cons_filter_key hm.nodup_keys ((getKey_eq_some hm).mp h) fun _ => bne_iff_ne

variable (f : Nat × α → Nat)

theorem sum_eraseKey (h : getKey k m = some v) :
    (m.map f).sum = f (k, v) + ((eraseKey k m).map f).sum := by
  rw [((perm_eraseKey hm h).map f).sum_nat, map_cons, sum_cons]

theorem sum_insertKey : ((insertKey k v m).map f).sum = f (k, v) + ((eraseKey k m).map f).sum := by
  rw [((insertKey_perm_eraseKey hm).map f).sum_nat, map_cons, sum_cons]

end

theorem eraseKey_of_none (h : getKey k m = none) : eraseKey k m = m :=
  eraseKey_of_forall_ne (getKey_eq_none.mp h)

/-- Keys that are erased one after the other. -/
theorem getKey_eraseKeys (hm : Ascending m) (ks : List Nat) (j : Nat) :
    Ascending (ks.foldl (fun m k => eraseKey k m) m) ∧
      getKey j (ks.foldl (fun m k => eraseKey k m) m) = if j ∈ ks then none else getKey j m := by
  induction ks generalizing m with
  | nil => exact ⟨hm, rfl⟩
  | cons k ks ih =>
    obtain ⟨hasc, hget⟩ := ih (hm.eraseKey k)
    refine ⟨hasc, hget.trans ?_⟩
    rw [getKey_eraseKey hm]
    by_cases hj : j = k
    · simp [hj]
    · simp [hj]

/-! ## The last entry of a range -/

theorem lastWhere_eq_none : lastWhere p m = none ↔ ∀ e ∈ m, p e.1 = false := by
  simp [lastWhere]

/-- The last entry of a range: no entry of the range is above it. -/
theorem lastWhere_eq_some (hm : Ascending m) {e : Nat × α}
    (h : lastWhere p m = some e) : e ∈ m ∧ p e.1 = true ∧ ∀ f ∈ m, p f.1 = true → f.1 ≤ e.1 := by
  obtain ⟨xs, hxs⟩ := getLast?_eq_some_iff.mp h
  have hmem : e ∈ m.filter fun e => p e.1 := by
    rw [hxs]
    exact mem_append_right _ mem_cons_self
  obtain ⟨he, hp⟩ := mem_filter.mp hmem
  refine ⟨he, hp, fun f hf hpf => ?_⟩
  have hsorted : (m.filter fun e => p e.1).Pairwise fun a b => a.1 < b.1 := hm.filter _
  have hfm : f ∈ m.filter fun e => p e.1 := mem_filter.mpr ⟨hf, hpf⟩
  rw [hxs] at hfm hsorted
  rcases mem_append.mp hfm with hfx | hfe
  · exact Nat.le_of_lt ((pairwise_append.mp hsorted).2.2 f hfx e mem_cons_self)
  · exact Nat.le_of_eq (congrArg Prod.fst (mem_singleton.mp hfe))

end NopeekOS.Lib
