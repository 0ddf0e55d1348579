import NopeekOS.Net.DnsCache

/-!
# What the DNS cache may hold

Three facts about a cache, each kept by every function. `All P` says that every item stored under
a key satisfies `P`: what it needs is that the items which are put in do. `Counted` says that the
number of items is the one kept, and that no key is left without items. `Pure` says that a key has
records only, or a single item.

Taking keys out keeps all three (`Shrunk`); so what is left to see is what `link`, the replacement
of a record and the removal of a record do.
-/

namespace NopeekOS.Net.Dns

open Lib KeyMap List
open List (length)

def Kind.isPositive : Kind → Bool
  | .positive _ => true
  | .noData | .nxDomain | .rcode _ => false

namespace Cache

/-- Every item under every key. -/
def All (P : Key → Item → Prop) (c : Cache) : Prop :=
  ∀ k v, c.byKey.get k = some v → ∀ i ∈ v, P k i

/-- The number of items is right, and no key is left without. -/
structure Counted (c : Cache) : Prop where
  count : c.nItems = c.byKey.weight length
  ne_nil : ∀ k v, c.byKey.get k = some v → v ≠ []

/-- A key has records only, or a single item. -/
def Pure (c : Cache) : Prop :=
  ∀ k v, c.byKey.get k = some v → (∀ i ∈ v, i.kind.isPositive = true) ∨ ∃ i, v = [i]

/-- Every key that is left has what it had. -/
def Within (c d : Cache) : Prop := ∀ k v, c.byKey.get k = some v → d.byKey.get k = some v

variable {c d e : Cache} {P : Key → Item → Prop}

theorem Within.refl (c : Cache) : Within c c := fun _ _ h => h

theorem Within.trans (h : Within c d) (h' : Within d e) : Within c e :=
  fun k v hv => h' k v (h k v hv)

theorem All.within (h : All P d) (hw : Within c d) : All P c := fun k v hv => h k v (hw k v hv)

theorem Pure.within (h : Pure d) (hw : Within c d) : Pure c := fun k v hv => h k v (hw k v hv)

/-- Keys were taken out of `d`. -/
structure Shrunk (d c : Cache) : Prop where
  within : Within c d
  counted : c.Counted
  max_eq : c.cacheMax = d.cacheMax
  le : c.nItems ≤ d.nItems

theorem Shrunk.refl (h : c.Counted) : Shrunk c c := ⟨.refl c, h, rfl, Nat.le_refl _⟩

theorem Shrunk.trans (h : Shrunk c d) (h' : Shrunk d e) : Shrunk c e :=
  ⟨h'.within.trans h.within, h'.counted, h'.max_eq.trans h.max_eq, Nat.le_trans h'.le h.le⟩

/-- The size of a cache between any two operations. -/
structure Sized (n : Nat) (c : Cache) : Prop where
  counted : c.Counted
  max_eq : c.cacheMax = n
  room : 2 ≤ n → c.nItems < n

variable {n : Nat}

theorem Sized.of_le (h : Sized n d) (hc : c.Counted) (hmax : c.cacheMax = d.cacheMax)
    (hn : c.nItems ≤ d.nItems) : Sized n c :=
  ⟨hc, hmax.trans h.max_eq, fun h2 => Nat.lt_of_le_of_lt hn (h.room h2)⟩

/-! ## Taking keys out -/

theorem get_removeByKey (c : Cache) (k j : Key) :
    (c.removeByKey k).byKey.get j = if j = k then none else c.byKey.get j := by
  unfold removeByKey
  split
  · next h => split <;> simp_all
  · exact get_erase

theorem within_removeByKey (c : Cache) (k : Key) : Within (c.removeByKey k) c := by
  intro j v hv
  rw [get_removeByKey] at hv
  split at hv
  · cases hv
  · exact hv

theorem Counted.removeByKey (h : c.Counted) (k : Key) : Shrunk c (c.removeByKey k) := by
  have hw := within_removeByKey c k
  cases hget : c.byKey.get k with
  | none =>
    have hsame : c.removeByKey k = c := by rw [Cache.removeByKey, hget]
    rw [hsame]
    exact .refl h
  | some v =>
    have hweight := weight_erase length hget
    have hc := h.count
    refine ⟨hw, ⟨?_, fun j v hv => h.ne_nil j v (hw j v hv)⟩, ?_, ?_⟩ <;>
      simp only [Cache.removeByKey, hget] <;> omega

/-- Keys taken out one after the other. -/
theorem get_removeKeys (ks : List Key) (c : Cache) (j : Key) :
    (ks.foldl removeByKey c).byKey.get j = if j ∈ ks then none else c.byKey.get j := by
  induction ks generalizing c with
  | nil => simp
  | cons k ks ih =>
    rw [foldl_cons, ih, get_removeByKey]
    by_cases hk : j = k <;> by_cases hks : j ∈ ks <;> simp [hk, hks]

theorem Counted.removeKeys (h : c.Counted) (ks : List Key) :
    Shrunk c (ks.foldl Cache.removeByKey c) := by
  induction ks generalizing c with
  | nil => exact .refl h
  | cons k ks ih => exact (h.removeByKey k).trans (ih (h.removeByKey k).counted)

/-! ## Making space -/

variable {l : List (Key × List Item)}

theorem earliest_mem {e : Key × List Item} (h : earliest l = some e) : e ∈ l := by
  induction l generalizing e with
  | nil => cases h
  | cons f l ih =>
    rw [earliest] at h
    split at h
    · cases h
      exact mem_cons_self
    next g hg =>
    split at h
    · cases h
      exact mem_cons_of_mem f (ih hg)
    · cases h
      exact mem_cons_self

theorem earliest_eq_none : earliest l = none ↔ l = [] := by
  cases l with
  | nil => simp [earliest]
  | cons f l =>
    simp only [earliest, reduceCtorEq, iff_false]
    split
    · simp
    · split <;> simp

variable {add : Nat}

theorem within_makeSpaceLoop (fuel : Nat) (c : Cache) : Within (makeSpaceLoop fuel c add) c := by
  induction fuel generalizing c with
  | zero => exact .refl c
  | succ fuel ih =>
    rw [makeSpaceLoop]
    split
    · split
      · exact .refl c
      · exact (ih _).trans (within_removeByKey c _)
    · exact .refl c

theorem within_makeSpace (c : Cache) (add : Nat) : Within (c.makeSpace add) c := by
  unfold makeSpace
  split
  · exact .refl c
  · exact within_makeSpaceLoop _ c

/-- What the loop of `make_space` leaves: fewer keys, and room for `add` or nothing at all. -/
theorem makeSpaceLoop_spec {fuel : Nat} (h : c.Counted) (hfuel : c.byKey.entries.length < fuel) :
    Shrunk c (makeSpaceLoop fuel c add) ∧ ((makeSpaceLoop fuel c add).nItems = 0 ∨
      (makeSpaceLoop fuel c add).nItems + add < c.cacheMax) := by
  induction fuel generalizing c with
  | zero => omega
  | succ fuel ih =>
    rw [makeSpaceLoop]
    split
    · next hfull =>
      split
      · next hnone =>
        -- Without keys there are no items.
        have hnil := earliest_eq_none.mp hnone
        have : c.nItems = 0 := by rw [h.count, weight, hnil]; rfl
        omega
      · next e he =>
        have hget : c.byKey.get e.1 = some e.2 := mem_entries_iff.mp (earliest_mem he)
        have hlt : (c.removeByKey e.1).byKey.entries.length < fuel := by
          have := length_erase hget
          simp only [removeByKey, hget]
          omega
        have hrem := h.removeByKey e.1
        obtain ⟨hloop, hroom⟩ := ih hrem.counted hlt
        exact ⟨hrem.trans hloop, hrem.max_eq ▸ hroom⟩
    · next hroom => exact ⟨.refl h, by omega⟩

theorem Counted.makeSpace (h : c.Counted) (add : Nat) : Shrunk c (c.makeSpace add) := by
  unfold Cache.makeSpace
  split
  · exact .refl h
  · exact (makeSpaceLoop_spec h (Nat.lt_succ_self _)).1

/-- Behind `make_space` there is room for as many as it was asked for, or there is nothing. -/
theorem makeSpace_room (h : c.Counted) (hadd : add ≠ 0) (hmax : c.cacheMax ≠ 0) :
    (c.makeSpace add).nItems = 0 ∨ (c.makeSpace add).nItems + add < c.cacheMax := by
  unfold makeSpace
  rw [if_neg (by simp [hadd, hmax])]
  exact (makeSpaceLoop_spec h (Nat.lt_succ_self _)).2

/-! ## Putting items in -/

theorem get_link (c : Cache) (k j : Key) (item : Item) : (c.link k item).byKey.get j =
      if j = k then some ((c.byKey.get k).getD [] ++ [item]) else c.byKey.get j :=
  get_alter

variable {k : Key} {item : Item}

theorem All.link (h : All P c) (hi : P k item) : All P (c.link k item) := by
  intro j v hv i hmem
  rw [get_link] at hv
  split at hv
  · next hj =>
    cases hv
    subst hj
    rcases mem_append.mp hmem with hmem | hmem
    · cases hget : c.byKey.get j with
      | none => simp [hget] at hmem
      | some w => exact h j w hget i (by simpa [hget] using hmem)
    · rw [mem_singleton.mp hmem]
      exact hi
  · exact h j v hv i hmem

theorem Counted.link (h : c.Counted) (k : Key) (item : Item) : (c.link k item).Counted where
  count := by
    have hw := weight_alter length Key.lt c.byKey k fun v => v.getD [] ++ [item]
    have hc := h.count
    show c.nItems + 1 = (c.byKey.alter Key.lt k fun v => v.getD [] ++ [item]).weight length
    rw [hw]
    cases hget : c.byKey.get k with
    | none =>
      have he : (c.byKey.erase k).weight length = c.byKey.weight length := by
        rw [weight, erase_of_none hget]
        rfl
      simp only [Option.getD_none, nil_append, length_singleton]
      omega
    | some v =>
      have := weight_erase length hget
      simp only [Option.getD_some, length_append, length_singleton]
      omega
  ne_nil j v hv := by
    rw [get_link] at hv
    split at hv
    · cases hv
      simp
    · exact h.ne_nil j v hv

variable {v w : List Item}

/-- What a key has is replaced by other items. -/
theorem Counted.rewrite {m : Nat} (h : c.Counted) (hv : c.byKey.get k = some v) (hw : w ≠ [])
    (hm : m + v.length = c.nItems + w.length) :
    ({ c with byKey := c.byKey.alter Key.lt k fun _ => w, nItems := m } : Cache).Counted where
  count := by
    have hweight := weight_alter length Key.lt c.byKey k fun _ => w
    have he := weight_erase length hv
    have hc := h.count
    simp only
    omega
  ne_nil j u hu := by
    rw [get_alter] at hu
    split at hu
    · cases hu
      exact hw
    · exact h.ne_nil j u hu

/-- The replacement of a record: the same number of items, each one that was there or the new. -/
theorem replaceData_spec {data : RData} (h : replaceData data item v = some w) :
    w.length = v.length ∧ (∀ i ∈ w, i ∈ v ∨ i = item) ∧ ∃ i ∈ v, i.kind.isPositive = true := by
  induction v generalizing w with
  | nil => cases h
  | cons i v ih =>
    -- Behind an item that is kept, the rest is what the recursion says.
    have hkeep : (replaceData data item v).map (i :: ·) = some w →
        w.length = (i :: v).length ∧ (∀ j ∈ w, j ∈ i :: v ∨ j = item) ∧
          ∃ j ∈ i :: v, j.kind.isPositive = true := by
      intro h
      obtain ⟨u, hu, rfl⟩ := Option.map_eq_some_iff.mp h
      obtain ⟨hlen, hmem, j, hj, hpos⟩ := ih hu
      exact ⟨by simp [hlen], forall_mem_cons.mpr ⟨.inl mem_cons_self,
        fun m hm => (hmem m hm).imp_left (mem_cons_of_mem i)⟩, j, mem_cons_of_mem i hj, hpos⟩
    rw [replaceData] at h
    split at h
    · next r hk =>
      split at h
      · cases h
        exact ⟨rfl, forall_mem_cons.mpr ⟨.inr rfl, fun j hj => .inl (mem_cons_of_mem i hj)⟩,
          i, mem_cons_self, by rw [hk]; rfl⟩
      · exact hkeep h
    · exact hkeep h
    · exact hkeep h
    · exact hkeep h

/-! ## Dropping a record -/

theorem get_dropRecord (c : Cache) (rr : Rr) {j : Key} (h : (c.dropRecord rr).byKey.get j = some v) :
    ∃ w, c.byKey.get j = some w ∧ v.Sublist w ∧ (j ≠ rr.key → v = w) := by
  unfold dropRecord at h
  split at h
  · exact ⟨v, h, List.Sublist.refl v, fun _ => rfl⟩
  next w hw =>
  dsimp only at h
  split at h
  · rw [get_erase] at h
    split at h
    · cases h
    · exact ⟨v, h, List.Sublist.refl v, fun _ => rfl⟩
  · rw [get_alter] at h
    split at h
    · next hj =>
      cases h
      exact ⟨w, hj ▸ hw, filter_sublist, fun hne => absurd hj hne⟩
    · exact ⟨v, h, List.Sublist.refl v, fun _ => rfl⟩

theorem Sized.dropRecord (h : Sized n c) (rr : Rr) : Sized n (c.dropRecord rr) := by
  unfold Cache.dropRecord
  split
  · exact h
  next v hv =>
  have he := weight_erase length hv
  have hc := h.counted.count
  dsimp only
  generalize hkept : v.filter (fun i => i.kind ≠ .positive rr) = kept
  have hle : kept.length ≤ v.length := hkept ▸ length_filter_le _ v
  split
  · next hnil =>
    have hs := h.counted.removeByKey rr.key
    rw [removeByKey, hv] at hs
    rw [hnil, length_nil, Nat.sub_zero]
    exact h.of_le hs.counted rfl hs.le
  · next hne => exact h.of_le (h.counted.rewrite hv hne (by omega)) rfl (Nat.sub_le _ _)

/-! ## Records -/

/-- The item of a record of a reply (cache.rs:140). -/
def recordItem (rr : Rr) (answer : List Rr) (primary : Bool) (timestamp : Nat) : Item :=
  ⟨.positive rr, untilValid rr (min (answerMinTtl answer) rr.ttl) timestamp false, primary⟩

/-- What `put_positive` does: it drops the record, puts it in the place of one with its data, or
adds it. -/
theorem putPositive_cases (c : Cache) (rr : Rr) (answer : List Rr) (primary : Bool)
    (timestamp : Nat) :
    c.putPositive rr answer primary timestamp = c.dropRecord rr ∨
      (min (answerMinTtl answer) rr.ttl ≠ 0 ∧ ((∃ v w, c.byKey.get rr.key = some v ∧
          replaceData rr.data (recordItem rr answer primary timestamp) v = some w ∧
          c.putPositive rr answer primary timestamp =
            { c with byKey := c.byKey.alter Key.lt rr.key fun _ => w }) ∨
        c.putPositive rr answer primary timestamp =
          (c.makeSpace 1).link rr.key (recordItem rr answer primary timestamp))) := by
  unfold putPositive
  dsimp only
  split
  · exact .inl rfl
  next httl =>
  refine .inr ⟨httl, ?_⟩
  split
  · next w hw =>
    obtain ⟨v, hv, hrep⟩ := Option.bind_eq_some_iff.mp hw
    exact .inl ⟨v, w, hv, hrep, rfl⟩
  · exact .inr rfl

variable {answer : List Rr} {timestamp : Nat} {rr : Rr} {primary : Bool}

theorem All.putPositive (h : All P c)
    (hi : min (answerMinTtl answer) rr.ttl ≠ 0 → P rr.key (recordItem rr answer primary timestamp)) :
    All P (c.putPositive rr answer primary timestamp) := by
  rcases putPositive_cases c rr answer primary timestamp with
    heq | ⟨httl, ⟨v, w, hv, hrep, heq⟩ | heq⟩ <;> rw [heq]
  · intro j u hu i hmem
    obtain ⟨w, hw, hsub, -⟩ := get_dropRecord c rr hu
    exact h j w hw i (hsub.subset hmem)
  · intro j u hu i hmem
    rw [get_alter] at hu
    split at hu
    · next hj =>
      cases hu
      subst hj
      rcases (replaceData_spec hrep).2.1 i hmem with hold | rfl
      · exact h _ v hv i hold
      · exact hi httl
    · exact h j u hu i hmem
  · exact (h.within (within_makeSpace c 1)).link (hi httl)

/-- An item that is added finds room. -/
theorem Sized.link (h : Sized n c) (hs : Shrunk (c.makeSpace 1) d) (k : Key) (item : Item) :
    Sized n (d.link k item) := by
  refine ⟨hs.counted.link k item, hs.max_eq.trans ((h.counted.makeSpace 1).max_eq.trans h.max_eq),
    fun h2 => ?_⟩
  show d.nItems + 1 < n
  have hle := hs.le
  have hroom := makeSpace_room h.counted Nat.one_ne_zero (by rw [h.max_eq]; omega)
  rw [h.max_eq] at hroom
  omega

theorem Sized.putPositive (h : Sized n c) (rr : Rr) (answer : List Rr) (primary : Bool)
    (timestamp : Nat) : Sized n (c.putPositive rr answer primary timestamp) := by
  rcases putPositive_cases c rr answer primary timestamp with
    heq | ⟨-, ⟨v, w, hv, hrep, heq⟩ | heq⟩ <;> rw [heq]
  · exact h.dropRecord rr
  · have hlen := (replaceData_spec hrep).1
    have hpos := length_pos_of_ne_nil (h.counted.ne_nil _ v hv)
    exact h.of_le (h.counted.rewrite hv (ne_nil_of_length_pos (by omega)) (by omega)) rfl
      (Nat.le_refl _)
  · exact h.link (.refl (h.counted.makeSpace 1).counted) _ _

/-- A record joins records only. -/
theorem Pure.putPositive (h : c.Pure)
    (hpos : ∀ v, c.byKey.get rr.key = some v → ∀ i ∈ v, i.kind.isPositive = true) :
    (c.putPositive rr answer primary timestamp).Pure := by
  intro j u hu
  by_cases hj : j = rr.key
  · -- The record's own key: every item there is a record before and behind.
    subst hj
    left
    have hall : All (fun k i => k = rr.key → i.kind.isPositive = true) c :=
      fun k v hv i hi hk => hpos v (hk ▸ hv) i hi
    intro i hi
    exact hall.putPositive (fun _ _ => rfl) _ u hu i hi rfl
  · -- Another key has what it had.
    rcases putPositive_cases c rr answer primary timestamp with
      heq | ⟨-, ⟨v, w, -, -, heq⟩ | heq⟩ <;> rw [heq] at hu
    · obtain ⟨w, hw, -, hsame⟩ := get_dropRecord c rr hu
      exact hsame hj ▸ h j w hw
    · rw [get_alter, if_neg hj] at hu
      exact h j u hu
    · rw [get_link, if_neg hj] at hu
      exact h j u (within_makeSpace c 1 j u hu)

/-! ## The invariant -/

/-- What holds of a cache between any two of its operations. -/
structure Ok (P : Key → Item → Prop) (n : Nat) (c : Cache) : Prop where
  counted : c.Counted
  max_eq : c.cacheMax = n
  room : 2 ≤ n → c.nItems < n
  all : All P c
  pure : c.Pure

theorem Ok.sized (h : Ok P n c) : Sized n c := ⟨h.counted, h.max_eq, h.room⟩

theorem Sized.ok (h : Sized n c) (hall : All P c) (hpure : c.Pure) : Ok P n c :=
  ⟨h.counted, h.max_eq, h.room, hall, hpure⟩

theorem Ok.shrunk (h : Ok P n d) (hs : Shrunk d c) : Ok P n c :=
  (h.sized.of_le hs.counted hs.max_eq hs.le).ok (h.all.within hs.within) (h.pure.within hs.within)

theorem Ok.removeKeys (h : Ok P n c) (ks : List Key) : Ok P n (ks.foldl Cache.removeByKey c) :=
  h.shrunk (h.counted.removeKeys ks)

theorem Ok.new (P : Key → Item → Prop) (cacheMax : Nat) : Ok P cacheMax (Cache.new cacheMax) where
  counted := ⟨rfl, nofun⟩
  max_eq := rfl
  room h := Nat.lt_of_lt_of_le Nat.zero_lt_two h
  all _ _ h := by cases h
  pure _ _ h := by cases h

variable {key : Key}

/-- The loop over the records of a reply. -/
theorem All.putRecords {rrs : List Rr} (hi : ∀ rr ∈ rrs, min (answerMinTtl answer) rr.ttl ≠ 0 →
      P rr.key (recordItem rr answer (answers key rr) timestamp))
    (h : All P c) : All P (Cache.putRecords key answer timestamp rrs c).1 := by
  induction rrs generalizing c with
  | nil => exact h
  | cons rr rrs ih =>
    rw [Cache.putRecords]
    split
    · exact h
    · exact ih (fun r hr => hi r (mem_cons_of_mem _ hr)) (h.putPositive (hi rr mem_cons_self))

/-- The keys of the records that are put hold records only. -/
theorem Sized.putRecords {rrs : List Rr} (h : Sized n c) (hpure : c.Pure)
    (hpos : All (fun k i => k ∈ rrs.map Rr.key → i.kind.isPositive = true) c) :
    Sized n (Cache.putRecords key answer timestamp rrs c).1 ∧
      (Cache.putRecords key answer timestamp rrs c).1.Pure := by
  induction rrs generalizing c with
  | nil => exact ⟨h, hpure⟩
  | cons rr rrs ih =>
    rw [Cache.putRecords]
    split
    · exact ⟨h, hpure⟩
    have hrest : All (fun k i => k ∈ rrs.map Rr.key → i.kind.isPositive = true) c :=
      fun k v hv i hmem hk => hpos k v hv i hmem (mem_cons_of_mem _ hk)
    exact ih (h.putPositive rr answer _ timestamp)
      (hpure.putPositive fun v hv i hmem => hpos _ v hv i hmem (by simp))
      (hrest.putPositive fun _ _ => rfl)

variable {rcode : Nat} {soa : Option Rr}

theorem All.putNegative
    (hi : ∀ k item, negativeItem key rcode answer soa timestamp = some (k, item) → P k item)
    (h : All P c) : All P (c.putNegative key rcode answer soa timestamp) := by
  unfold Cache.putNegative
  split
  · exact h
  next k item hneg =>
  exact (h.within ((within_removeByKey _ k).trans (within_makeSpace c 1))).link (hi k item hneg)

/-- A negative item stands alone under its key. -/
theorem Sized.putNegative (h : Sized n c) (hpure : c.Pure) :
    Sized n (c.putNegative key rcode answer soa timestamp) ∧
      (c.putNegative key rcode answer soa timestamp).Pure := by
  unfold Cache.putNegative
  split
  · exact ⟨h, hpure⟩
  next k item hneg =>
  have hspace := h.counted.makeSpace 1
  have hs := hspace.counted.removeByKey k
  refine ⟨h.link hs k item, fun j v hv => ?_⟩
  rw [get_link] at hv
  split at hv
  · -- What was there was taken out.
    rw [get_removeByKey, if_pos rfl] at hv
    cases hv
    exact .inr ⟨item, rfl⟩
  · exact hpure.within (hspace.trans hs).within j v hv

/-- What the loop of `put` leaves (cache.rs:177-185). -/
def putLoop (c : Cache) (key : Key) (answer : List Rr) (timestamp : Nat) : Cache :=
  (Cache.putRecords key answer timestamp (answer.filter Rr.cacheable)
    ((c.removePrevious key answer).makeSpace (answer.length + 1))).1

/-- What `put` does: it stops behind the removal, behind the records or behind the negative
item. -/
theorem put_cases (rcode : Nat) (hmax : c.cacheMax ≠ 0) :
    c.put key rcode answer timestamp = c.removePrevious key answer ∨
      c.put key rcode answer timestamp = c.putLoop key answer timestamp ∨
      (answer.any (answers key) = false ∧ c.put key rcode answer timestamp =
        (c.putLoop key answer timestamp).putNegative key rcode answer (findSoa key answer)
          timestamp) := by
  unfold Cache.put
  rw [if_neg hmax]
  dsimp only
  split
  · exact .inl rfl
  split
  · exact .inl rfl
  right
  split
  · exact .inl rfl
  split
  · exact .inl rfl
  next hany =>
  split
  · exact .inl rfl
  · exact .inr ⟨by simpa using hany, rfl⟩

/-- The removal takes the key of every record of the answer section. -/
theorem get_removePrevious (c : Cache) (key : Key) {k : Key}
    (hk : k ∈ (answer.filter Rr.cacheable).map Rr.key) :
    (c.removePrevious key answer).byKey.get k = none := by
  rw [removePrevious, get_removeKeys, if_pos hk]

section

variable
  (hrec : ∀ rr ∈ answer, rr.cacheable = true → min (answerMinTtl answer) rr.ttl ≠ 0 →
    P rr.key (recordItem rr answer (answers key rr) timestamp))
  (hneg : answer.any (answers key) = false → ∀ k item,
    negativeItem key rcode answer (findSoa key answer) timestamp = some (k, item) → P k item)

include hrec hneg

/-- **A reply is put**: the items it adds are those of its records and its negative one. -/
theorem All.put (hmax : c.cacheMax ≠ 0) (h : All P (c.removePrevious key answer)) :
    All P (c.put key rcode answer timestamp) := by
  have hloop : All P (c.putLoop key answer timestamp) :=
    (h.within (within_makeSpace _ _)).putRecords fun rr hrr =>
      hrec rr (mem_filter.mp hrr).1 (mem_filter.mp hrr).2
  rcases put_cases rcode hmax with heq | heq | ⟨hany, heq⟩ <;> rw [heq]
  · exact h
  · exact hloop
  · exact hloop.putNegative (hneg hany)

theorem Ok.put (h : Ok P n c) : Ok P n (c.put key rcode answer timestamp) := by
  by_cases hmax : c.cacheMax = 0
  · rw [Cache.put, if_pos hmax]
    exact h
  have hprev : Ok P n (c.removePrevious key answer) :=
    Ok.removeKeys (c := c.removeByKey key) (h.removeKeys [key]) _
  have hall := All.put hrec hneg hmax hprev.all
  have hs := hprev.shrunk (hprev.counted.makeSpace (answer.length + 1))
  -- The keys of the records are empty when they are put.
  have hloop : Sized n (c.putLoop key answer timestamp) ∧ (c.putLoop key answer timestamp).Pure := by
    refine hs.sized.putRecords hs.pure fun k v hv i _ hk => ?_
    have hnone := get_removePrevious c key hk
    rw [within_makeSpace _ _ k v hv] at hnone
    cases hnone
  rcases put_cases rcode hmax with heq | heq | ⟨-, heq⟩ <;> rw [heq] at hall ⊢
  · exact hprev
  · exact hloop.1.ok hall hloop.2
  · exact (hloop.1.putNegative hloop.2).1.ok hall (hloop.1.putNegative hloop.2).2

end

theorem Ok.prune (h : Ok P n c) (now : Nat) : Ok P n (c.prune now) := h.removeKeys _

theorem Ok.flush (P : Key → Item → Prop) (c : Cache) : Ok P c.cacheMax c.flush :=
  .new P c.cacheMax

end Cache

end NopeekOS.Net.Dns
