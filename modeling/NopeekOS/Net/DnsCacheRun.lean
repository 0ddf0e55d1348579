import NopeekOS.Net.DnsCacheInv

/-!
# What a DNS lookup finds in the cache

Any sequence of operations on a new cache. Every item stored was made by a reply that was put and
not flushed since (`Origin`), so a lookup only hands out what a reply said, no longer than its
lowest TTL allows.

The time an item is good until is a wrapped sum. A wrapped one lies before the reply itself, so with
a clock that does not go back no lookup takes it (`wrapped_eq`).
-/

namespace NopeekOS.Net.Dns

open Lib Cache List

/-- An operation on the cache. -/
inductive Op where
  | put (key : Key) (rcode : Nat) (answer : List Rr) (timestamp : Nat)
  | prune (now : Nat)
  | flush
  | lookup (key : Key) (now : Nat)

/-- The clock an operation reads. -/
def Op.clock : Op → Option Nat
  | .put _ _ _ t | .prune t | .lookup _ t => some t
  | .flush => none

def Cache.apply (c : Cache) : Op → Cache
  | .put key rcode answer timestamp => c.put key rcode answer timestamp
  | .prune now => c.prune now
  | .flush => c.flush
  | .lookup _ _ => c

/-- The cache behind a sequence of operations. -/
def Cache.after (cacheMax : Nat) (ops : List Op) : Cache := ops.foldl apply (.new cacheMax)

/-- A reply was put, and the cache not flushed since. -/
def LivePut (ops : List Op) (key : Key) (rcode : Nat) (answer : List Rr) (t : Nat) : Prop :=
  ∃ pre post, ops = pre ++ Op.put key rcode answer t :: post ∧ Op.flush ∉ post

variable {ops : List Op} {key : Key} {rcode t : Nat} {answer : List Rr}

theorem LivePut.snoc (h : LivePut ops key rcode answer t) {op : Op} (hop : op ≠ .flush) :
    LivePut (ops ++ [op]) key rcode answer t := by
  obtain ⟨pre, post, rfl, hpost⟩ := h
  refine ⟨pre, post ++ [op], by simp, fun hmem => ?_⟩
  rcases mem_append.mp hmem with hmem | hmem
  · exact hpost hmem
  · exact hop (mem_singleton.mp hmem).symm

/-- What a reply makes of itself in the cache: an item for a record of its answer section, or its
negative item. -/
def Made (key : Key) (rcode : Nat) (answer : List Rr) (t : Nat) (k : Key) (i : Item) : Prop :=
  (∃ rr ∈ answer, rr.cacheable = true ∧ k = rr.key ∧ i = recordItem rr answer (answers key rr) t) ∨
  (answer.any (answers key) = false ∧
    negativeItem key rcode answer (findSoa key answer) t = some (k, i))

/-- A stored item was made by a reply that is not flushed. -/
def Origin (ops : List Op) (k : Key) (i : Item) : Prop :=
  ∃ key rcode answer t, LivePut ops key rcode answer t ∧ Made key rcode answer t k i

variable {c : Cache}

theorem Cache.Ok.mono {P Q : Key → Item → Prop} {n : Nat} (h : Cache.Ok P n c)
    (hPQ : ∀ k i, P k i → Q k i) : Cache.Ok Q n c :=
  { h with all := fun k v hv i hi => hPQ k i (h.all k v hv i hi) }

/-- **One operation** keeps the origin of every item. -/
theorem Cache.Ok.apply {n : Nat} (h : Cache.Ok (Origin ops) n c) (op : Op) :
    Cache.Ok (Origin (ops ++ [op])) n (c.apply op) := by
  have hold : op ≠ .flush → Cache.Ok (Origin (ops ++ [op])) n c := by
    intro hop
    refine h.mono fun k i hi => ?_
    obtain ⟨key, rcode, answer, t, hlive, hmade⟩ := hi
    exact ⟨key, rcode, answer, t, hlive.snoc hop, hmade⟩
  cases op with
  | put key rcode answer t =>
    have hlive : LivePut (ops ++ [.put key rcode answer t]) key rcode answer t :=
      ⟨ops, [], rfl, by simp⟩
    refine Cache.Ok.put (fun rr hrr hcache _ => ?_) (fun hany k i hi => ?_) (hold (by simp))
    · exact ⟨key, rcode, answer, t, hlive, .inl ⟨rr, hrr, hcache, rfl, rfl⟩⟩
    · exact ⟨key, rcode, answer, t, hlive, .inr ⟨hany, hi⟩⟩
  | prune now => exact (hold (by simp)).prune now
  | flush => exact h.max_eq ▸ Cache.Ok.flush _ c
  | lookup key now => exact hold (by simp)

/-- **Every sequence of operations.** -/
theorem Cache.ok_after (cacheMax : Nat) (ops : List Op) :
    Cache.Ok (Origin ops) cacheMax (Cache.after cacheMax ops) := by
  induction ops using reverseRecOn with
  | nil => exact Cache.Ok.new _ cacheMax
  | append_singleton ops op ih =>
    rw [after, foldl_append]
    exact ih.apply op

/-! ## What a lookup reads -/

variable {v : List Item}

/-- Where the items of a lookup stand: under the key, as NXDOMAIN of its name, or as its CNAME. -/
def Cache.Source (c : Cache) (key : Key) (v : List Item) (k : Key) : Prop :=
  c.byKey.get k = some v ∧ k.name = key.name ∧
    (k = key ∨ (k.rtype = TYPE_ANY ∧ ∃ i ∈ v, i.kind = .nxDomain) ∨
      (k.rtype = TYPE_CNAME ∧ ∀ i ∈ v, i.kind ≠ .noData))

theorem Cache.getFollowCname_source (h : c.getFollowCname key = some v) :
    ∃ k, c.Source key v k := by
  unfold getFollowCname at h
  -- The CNAME comes last, and only without NODATA.
  have hcname : (if key.rtype ≠ TYPE_CNAME then
      (c.byKey.get ⟨key.name, TYPE_CNAME⟩).filter fun v => v.all fun i => i.kind ≠ .noData
      else none) = some v → ∃ k, c.Source key v k := by
    intro h
    split at h
    · obtain ⟨hget, hall⟩ := Option.filter_eq_some_iff.mp h
      exact ⟨_, hget, rfl, .inr (.inr ⟨rfl, by simpa using hall⟩)⟩
    · cases h
  split at h
  · next w hw =>
    cases h
    exact ⟨key, hw, rfl, .inl rfl⟩
  · dsimp only at h
    split at h
    · next w hw =>
      split at h
      · next hany =>
        cases h
        exact ⟨_, hw, rfl, .inr (.inl ⟨rfl, by simpa using hany⟩)⟩
      · exact hcname h
    · exact hcname h

variable {now : Nat} {hit : Hit}

/-- What a lookup says of the items it reads. -/
theorem Cache.lookup_cases (h : c.lookup key now = some hit) : key.rtype ≠ TYPE_ANY ∧
      ∃ v, c.getFollowCname key = some v ∧ (∀ i ∈ v, now ≤ i.until') ∧
        (∀ rr ∈ hit.answer, ∃ i ∈ v, ∃ src, i.kind = .positive src ∧
          rr = clamped src i.until' now) ∧
        (hit.answer = [] → ∀ i ∈ v, i.kind.isPositive = false) ∧
        ((∃ i ∈ v, i.kind = .rcode hit.rcode) ∨
          ((∀ i ∈ v, ∀ r, i.kind ≠ .rcode r) ∧ hit.answer = [] ∧ hit.rcode = RCODE_NXDOMAIN ∧
            ∃ i ∈ v, i.kind = .nxDomain) ∨
          ((∀ i ∈ v, ∀ r, i.kind ≠ .rcode r) ∧ hit.rcode = RCODE_SUCCESS ∧
            (hit.answer = [] → ∀ i ∈ v, i.kind ≠ .nxDomain))) := by
  unfold lookup at h
  split at h
  · cases h
  next hany =>
  refine ⟨hany, ?_⟩
  split at h
  · cases h
  next v hv =>
  split at h
  · cases h
  next hlive =>
  refine ⟨v, hv, by simpa using hlive, ?_⟩
  extract_lets answer rcode at h
  have hrecords : ∀ rr ∈ answer, ∃ i ∈ v, ∃ src, i.kind = .positive src ∧
      rr = clamped src i.until' now := by
    intro rr hrr
    obtain ⟨i, hi, hk⟩ := mem_filterMap.mp hrr
    refine ⟨i, hi, ?_⟩
    cases hkind : i.kind <;> simp only [hkind, Option.some.injEq, reduceCtorEq] at hk
    exact ⟨_, rfl, hk.symm⟩
  have hempty : answer = [] → ∀ i ∈ v, i.kind.isPositive = false := by
    intro hnil i hi
    have := filterMap_eq_nil_iff.mp hnil i hi
    cases hkind : i.kind <;> simp_all [Kind.isPositive]
  cases hrc : rcode with
  | some r =>
    rw [hrc] at h
    cases h
    refine ⟨hrecords, hempty, .inl ?_⟩
    obtain ⟨i, hi, hk⟩ := mem_filterMap.mp (mem_of_getLast? hrc)
    refine ⟨i, hi, ?_⟩
    cases hkind : i.kind <;> simp_all
  | none =>
    rw [hrc] at h
    have hno : ∀ i ∈ v, ∀ r, i.kind ≠ .rcode r := by
      intro i hi r hk
      have := filterMap_eq_nil_iff.mp (getLast?_eq_none_iff.mp hrc) i hi
      simp [hk] at this
    dsimp only at h
    split at h
    · next hnx =>
      cases h
      exact ⟨by simp, fun _ => hempty hnx.1,
        .inr (.inl ⟨hno, rfl, rfl, by simpa using hnx.2⟩)⟩
    · next hnx =>
      cases h
      refine ⟨hrecords, hempty, .inr (.inr ⟨hno, rfl, fun hnil i hi hk => hnx ⟨hnil, ?_⟩⟩)⟩
      exact any_eq_true.mpr ⟨i, hi, by simp [hk]⟩

/-! ## Times -/

/-- A wrapped sum lies before what was added to. -/
theorem wrapped_eq {d : Nat} (hd : d < 2 ^ 64) (h : t ≤ (t + d) % 2 ^ 64) :
    (t + d) % 2 ^ 64 = t + d := by
  by_cases hsum : t + d < 2 ^ 64
  · exact Nat.mod_eq_of_lt hsum
  · have hwrap : (t + d) % 2 ^ 64 = t + d - 2 ^ 64 := by
      rw [Nat.mod_eq_sub_mod (by omega), Nat.mod_eq_of_lt (by omega)]
    omega

theorem answerMinTtl_le {r : Rr} (h : r ∈ answer) : answerMinTtl answer ≤ r.ttl := by
  unfold answerMinTtl
  cases hmin : (answer.map Rr.ttl).min? with
  | none =>
    rw [min?_eq_none_iff, map_eq_nil_iff] at hmin
    rw [hmin] at h
    cases h
  | some m =>
    exact (min?_eq_some_iff.mp hmin).2 _ (mem_map_of_mem h)

/-- Until when something with a TTL of `ttl` is good. -/
def goodUntil (ttl t : Nat) : Nat := (t + min (ttl * USEC_PER_SEC) CACHE_TTL_MAX_USEC) % 2 ^ 64

/-- Something still good: its time did not wrap, and is within the TTL and 2 h. -/
theorem goodUntil_le {ttl : Nat} (ht : t ≤ now) (hnow : now ≤ goodUntil ttl t) :
    goodUntil ttl t ≤ t + ttl * USEC_PER_SEC ∧ goodUntil ttl t ≤ t + CACHE_TTL_MAX_USEC := by
  have hd : min (ttl * USEC_PER_SEC) CACHE_TTL_MAX_USEC < 2 ^ 64 :=
    Nat.lt_of_le_of_lt (Nat.min_le_right _ _) (by decide)
  have heq : goodUntil ttl t = t + min (ttl * USEC_PER_SEC) CACHE_TTL_MAX_USEC :=
    wrapped_eq hd (Nat.le_trans ht hnow)
  rw [heq]
  exact ⟨Nat.add_le_add_left (Nat.min_le_left _ _) t, Nat.add_le_add_left (Nat.min_le_right _ _) t⟩

/-- An item of a record that is still good is within every TTL of its reply. -/
theorem recordItem_until {rr : Rr} {primary : Bool} (ht : t ≤ now)
    (hnow : now ≤ (recordItem rr answer primary t).until') :
    (recordItem rr answer primary t).until' ≤ t + CACHE_TTL_MAX_USEC ∧
      ∀ r ∈ answer, (recordItem rr answer primary t).until' ≤ t + r.ttl * USEC_PER_SEC := by
  have heq : (recordItem rr answer primary t).until' =
      goodUntil (min (answerMinTtl answer) rr.ttl) t := by
    unfold recordItem untilValid
    cases rr.data <;> rfl
  rw [heq] at hnow ⊢
  obtain ⟨httl, hmax⟩ := goodUntil_le ht hnow
  refine ⟨hmax, fun r hr => Nat.le_trans httl (Nat.add_le_add_left (Nat.mul_le_mul_right _ ?_) t)⟩
  exact Nat.le_trans (Nat.min_le_left _ _) (answerMinTtl_le hr)

/-- A negative item that is still good is within the SOA's TTL and MINIMUM. -/
theorem soaItem_until {soa : Rr} {minimum : Nat} (hsoa : soa ∈ answer)
    (hdata : soa.data = .soa minimum) (ht : t ≤ now)
    (hnow : now ≤ untilValid soa (answerMinTtl answer) t true) :
    now ≤ t + soa.ttl * USEC_PER_SEC ∧ now ≤ t + minimum * USEC_PER_SEC ∧
      now ≤ t + CACHE_TTL_MAX_USEC := by
  have heq : untilValid soa (answerMinTtl answer) t true =
      goodUntil (min (answerMinTtl answer) minimum) t := by
    unfold untilValid goodUntil
    rw [hdata]
  rw [heq] at hnow
  obtain ⟨httl, hmax⟩ := goodUntil_le ht hnow
  have hwithin : ∀ b, min (answerMinTtl answer) minimum ≤ b → now ≤ t + b * USEC_PER_SEC :=
    fun b hb => Nat.le_trans (Nat.le_trans hnow httl)
      (Nat.add_le_add_left (Nat.mul_le_mul_right _ hb) t)
  exact ⟨hwithin _ (Nat.le_trans (Nat.min_le_left _ _) (answerMinTtl_le hsoa)),
    hwithin _ (Nat.min_le_right _ _), Nat.le_trans hnow hmax⟩

theorem clamped_ttl (src : Rr) (u now : Nat) :
    (clamped src u now).ttl * USEC_PER_SEC ≤ u - now := by
  have hle : (clamped src u now).ttl ≤ (u - now) / USEC_PER_SEC :=
    Nat.le_trans (Nat.min_le_right _ _) (Nat.mod_le _ _)
  exact Nat.le_trans (Nat.mul_le_mul_right _ hle) (Nat.div_mul_le_self _ _)

/-! ## Where a negative item comes from -/

variable {k : Key} {i : Item}

/-- The SOA of the reply says until when the item is good. -/
def OfSoa (key : Key) (answer : List Rr) (t : Nat) (i : Item) : Prop :=
  ∃ soa ∈ answer, ∃ minimum, soa.rtype = TYPE_SOA ∧ soa.data = .soa minimum ∧
    nameEndswith key.name soa.name = true ∧ i.until' = untilValid soa (answerMinTtl answer) t true

/-- The negative item of a reply, by its kind. -/
theorem negativeItem_kind (h : negativeItem key rcode answer (findSoa key answer) t = some (k, i)) :
    match i.kind with
    | .positive _ => False
    | .noData => rcode = RCODE_SUCCESS ∧ k = key ∧ OfSoa key answer t i
    | .nxDomain => rcode = RCODE_NXDOMAIN ∧ k = ⟨key.name, TYPE_ANY⟩ ∧ OfSoa key answer t i
    | .rcode r => r = RCODE_SERVFAIL ∧ rcode = RCODE_SERVFAIL ∧ k = key ∧
      i.until' = (t + CACHE_TTL_STRANGE_RCODE_USEC) % 2 ^ 64 := by
  unfold negativeItem at h
  split at h
  · cases h
  split at h
  · next hcode =>
    split at h
    · cases h
    next soa hfind =>
    have hsoa : soa.rtype = TYPE_SOA ∧ nameEndswith key.name soa.name = true := by
      simpa using find?_some hfind
    have hmem := mem_of_find?_eq_some hfind
    split at h
    · next minimum hdata =>
      split at h
      · cases h
      split at h
      · next hs =>
        cases h
        exact ⟨hs, rfl, soa, hmem, minimum, hsoa.1, hdata, hsoa.2, rfl⟩
      · next hs =>
        cases h
        exact ⟨hcode.resolve_left hs, rfl, soa, hmem, minimum, hsoa.1, hdata, hsoa.2, rfl⟩
    all_goals cases h
  · split at h
    · next hserv =>
      cases h
      exact ⟨hserv, hserv, rfl, rfl⟩
    · cases h

/-- A reply was put before a later reading of the clock. -/
theorem LivePut.le (h : LivePut ops key rcode answer t)
    (hclock : (ops.filterMap Op.clock ++ [now]).Pairwise (· ≤ ·)) : t ≤ now := by
  obtain ⟨pre, post, rfl, -⟩ := h
  refine (pairwise_append.mp hclock).2.2 t ?_ now (by simp)
  exact mem_filterMap.mpr ⟨.put key rcode answer t, by simp, rfl⟩

/-! ## The cache is sound -/

variable {cacheMax : Nat}

/-- Where the records of a lookup come from. -/
theorem lookup_record {rr : Rr} (hclock : (ops.filterMap Op.clock ++ [now]).Pairwise (· ≤ ·))
    (h : (Cache.after cacheMax ops).lookup key now = some hit) (hrr : rr ∈ hit.answer) :
    ∃ k rcode answer t, LivePut ops k rcode answer t ∧ ∃ src ∈ answer, src.sect = .answer ∧
      src.name = key.name ∧ (src.rtype = key.rtype ∨ src.rtype = TYPE_CNAME) ∧
      rr = { src with ttl := rr.ttl } ∧ t ≤ now ∧
      now + rr.ttl * USEC_PER_SEC ≤ t + CACHE_TTL_MAX_USEC ∧
      ∀ r ∈ answer, now + rr.ttl * USEC_PER_SEC ≤ t + r.ttl * USEC_PER_SEC := by
  have hok := ok_after cacheMax ops
  obtain ⟨-, v, hv, hlive, hrecords, -⟩ := lookup_cases h
  obtain ⟨i, hi, src, hkind, rfl⟩ := hrecords rr hrr
  obtain ⟨k, hget, hname, hwhere⟩ := getFollowCname_source hv
  obtain ⟨key', rcode, answer, t, hput, hmade⟩ := hok.all k v hget i hi
  rcases hmade with ⟨src', hsrc, hcache, rfl, rfl⟩ | ⟨-, hneg⟩
  · obtain rfl : src' = src := Kind.positive.inj hkind
    have ht := hput.le hclock
    obtain ⟨hmax, httl⟩ := recordItem_until ht (hlive _ hi)
    have hleft := clamped_ttl src' (recordItem src' answer
      (answers key' src') t).until' now
    have hnow := hlive _ hi
    refine ⟨key', rcode, answer, t, hput, src', hsrc, by simpa [Rr.cacheable] using hcache, hname,
      ?_, rfl, ht, by omega, fun r hr => ?_⟩
    · -- Under ANY there is NXDOMAIN, and then no record.
      rcases hwhere with heq | ⟨-, j, hj, hnx⟩ | ⟨hcname, -⟩
      · exact .inl (congrArg Key.rtype heq)
      · exfalso
        rcases hok.pure _ v hget with hall | ⟨m, rfl⟩
        · have := hall j hj
          rw [hnx] at this
          cases this
        · rw [mem_singleton.mp hj, ← mem_singleton.mp hi] at hnx
          rw [hnx] at hkind
          cases hkind
      · exact .inr hcname
    · have := httl r hr
      omega
  · -- A negative item carries no record.
    have := negativeItem_kind hneg
    rw [hkind] at this
    exact this.elim

/-- The live reply behind an item without a record. -/
theorem negative_origin (hget : (Cache.after cacheMax ops).byKey.get k = some v) (hi : i ∈ v)
    (hk : i.kind.isPositive = false) : ∃ key rcode answer t, LivePut ops key rcode answer t ∧
      answer.any (answers key) = false ∧
      negativeItem key rcode answer (findSoa key answer) t = some (k, i) := by
  obtain ⟨key, rcode, answer, t, hput, hmade⟩ := (ok_after cacheMax ops).all k v hget i hi
  rcases hmade with ⟨src, -, -, -, rfl⟩ | ⟨hany, hneg⟩
  · cases hk
  · exact ⟨key, rcode, answer, t, hput, hany, hneg⟩

/-- An item with a code is of a reply with SERVFAIL. -/
theorem rcode_origin {r : Nat} (hget : (Cache.after cacheMax ops).byKey.get k = some v) (hi : i ∈ v)
    (hk : i.kind = .rcode r) :
    r = RCODE_SERVFAIL ∧ ∃ answer t, LivePut ops k RCODE_SERVFAIL answer t ∧
      i.until' = (t + CACHE_TTL_STRANGE_RCODE_USEC) % 2 ^ 64 := by
  obtain ⟨key, rcode, answer, t, hput, -, hneg⟩ := negative_origin hget hi (by rw [hk]; rfl)
  have hkind := negativeItem_kind hneg
  rw [hk] at hkind
  obtain ⟨hr, rfl, rfl, huntil⟩ := hkind
  exact ⟨hr, answer, t, hput, huntil⟩

section

variable (h : (Cache.after cacheMax ops).lookup key now = some hit)

include h

/-- The item behind a negative result: NXDOMAIN for the name, or no data for the key. -/
theorem lookup_negative (hnil : hit.answer = [])
    (hcode : hit.rcode = RCODE_NXDOMAIN ∨ hit.rcode = RCODE_SUCCESS) :
    ∃ i k answer t, now ≤ i.until' ∧ LivePut ops k hit.rcode answer t ∧ k.name = key.name ∧
      (hit.rcode = RCODE_SUCCESS → k = key) ∧ answer.any (answers k) = false ∧
      OfSoa k answer t i := by
  have hok := ok_after cacheMax ops
  obtain ⟨-, v, hv, hlive, -, hempty, hread⟩ := lookup_cases h
  obtain ⟨k, hget, hname, hwhere⟩ := getFollowCname_source hv
  have hneg := hempty hnil
  rcases hread with ⟨i, hi, hk⟩ | ⟨-, -, hrcode, i, hi, hk⟩ | ⟨hno, hrcode, hnx⟩
  · -- A code is SERVFAIL.
    have := (rcode_origin hget hi hk).1
    rcases hcode with hcode | hcode <;> rw [hcode] at this <;> cases this
  · obtain ⟨key', rcode, answer, t, hput, hany, hitem⟩ := negative_origin hget hi (hneg i hi)
    have hkind := negativeItem_kind hitem
    rw [hk] at hkind
    obtain ⟨rfl, rfl, hsoa⟩ := hkind
    refine ⟨i, key', answer, t, hlive i hi, hrcode ▸ hput, hname, fun hs => ?_, hany, hsoa⟩
    rw [hrcode] at hs
    cases hs
  · -- No code, no NXDOMAIN, no record: the key has NODATA.
    obtain ⟨i, hi⟩ := exists_mem_of_ne_nil v (hok.counted.ne_nil k v hget)
    have hk : i.kind = .noData := by
      have hpos := hneg i hi
      cases hkind : i.kind with
      | positive rr => rw [hkind] at hpos; cases hpos
      | noData => rfl
      | nxDomain => exact absurd hkind (hnx hnil i hi)
      | rcode r => exact absurd hkind (hno i hi r)
    obtain rfl : k = key := by
      rcases hwhere with heq | ⟨-, j, hj, hnx'⟩ | ⟨-, hdata⟩
      · exact heq
      · exact absurd hnx' (hnx hnil j hj)
      · exact absurd hk (hdata i hi)
    obtain ⟨key', rcode, answer, t, hput, hany, hitem⟩ := negative_origin hget hi (hneg i hi)
    have hkind := negativeItem_kind hitem
    rw [hk] at hkind
    obtain ⟨rfl, rfl, hsoa⟩ := hkind
    exact ⟨i, k, answer, t, hlive i hi, hrcode ▸ hput, hname, fun _ => rfl, hany, hsoa⟩

variable (hclock : (ops.filterMap Op.clock ++ [now]).Pairwise (· ≤ ·))

include hclock

/-- Where any other result comes from: SERVFAIL for the key, or for its CNAME, in the last 10 s. -/
theorem lookup_servfail (hcode : ¬(hit.rcode = RCODE_NXDOMAIN ∨ hit.rcode = RCODE_SUCCESS)) :
    hit.rcode = RCODE_SERVFAIL ∧ ∃ k answer t, LivePut ops k RCODE_SERVFAIL answer t ∧
      k.name = key.name ∧ t ≤ now ∧ now ≤ t + CACHE_TTL_STRANGE_RCODE_USEC := by
  obtain ⟨-, v, hv, hlive, -, -, hread⟩ := lookup_cases h
  obtain ⟨k, hget, hname, -⟩ := getFollowCname_source hv
  rcases hread with ⟨i, hi, hk⟩ | ⟨-, -, hrcode, -⟩ | ⟨-, hrcode, -⟩
  · obtain ⟨hserv, answer, t, hput, huntil⟩ := rcode_origin hget hi hk
    have ht := hput.le hclock
    have hnow := hlive i hi
    rw [huntil] at hnow
    rw [wrapped_eq (by decide) (Nat.le_trans ht hnow)] at hnow
    exact ⟨hserv, k, answer, t, hput, hname, ht, hnow⟩
  · exact absurd (.inl hrcode) hcode
  · exact absurd (.inr hrcode) hcode

end

/-- **The cache is sound**, for every sequence of operations on a cache of any maximum. The items
are counted, and with a maximum of at least two stay below it. A lookup with a clock that does
not go back hands out a record only if a reply put since the last flush carried it, under this name
and this type or CNAME, in its answer section; from that reply on not more than 2 h and no TTL of
it are over, and the TTL handed out is no more than what is left of them. A result without records
is NXDOMAIN for the name or no data for the key, put within the TTL and MINIMUM of a SOA the
reply had, or SERVFAIL for the name in the last 10 s. -/
theorem dnsCache_sound (cacheMax : Nat) (ops : List Op) :
    (Cache.after cacheMax ops).nItems = (Cache.after cacheMax ops).byKey.weight List.length ∧
    (2 ≤ cacheMax → (Cache.after cacheMax ops).nItems < cacheMax) ∧
    ∀ key now hit, (ops.filterMap Op.clock ++ [now]).Pairwise (· ≤ ·) →
      (Cache.after cacheMax ops).lookup key now = some hit →
      (∀ rr ∈ hit.answer, ∃ k rcode answer t, LivePut ops k rcode answer t ∧
        ∃ src ∈ answer, src.sect = .answer ∧ src.name = key.name ∧
          (src.rtype = key.rtype ∨ src.rtype = TYPE_CNAME) ∧ rr = { src with ttl := rr.ttl } ∧
          t ≤ now ∧ now + rr.ttl * USEC_PER_SEC ≤ t + CACHE_TTL_MAX_USEC ∧
          ∀ r ∈ answer, now + rr.ttl * USEC_PER_SEC ≤ t + r.ttl * USEC_PER_SEC) ∧
      (hit.answer = [] → hit.rcode = RCODE_NXDOMAIN ∨ hit.rcode = RCODE_SUCCESS →
        ∃ k answer t, LivePut ops k hit.rcode answer t ∧ k.name = key.name ∧
          (hit.rcode = RCODE_SUCCESS → k = key) ∧ answer.any (answers k) = false ∧
          ∃ soa ∈ answer, ∃ minimum, soa.rtype = TYPE_SOA ∧ soa.data = .soa minimum ∧
            nameEndswith key.name soa.name = true ∧ t ≤ now ∧
            now ≤ t + soa.ttl * USEC_PER_SEC ∧ now ≤ t + minimum * USEC_PER_SEC ∧
            now ≤ t + CACHE_TTL_MAX_USEC) ∧
      (¬(hit.rcode = RCODE_NXDOMAIN ∨ hit.rcode = RCODE_SUCCESS) →
        hit.rcode = RCODE_SERVFAIL ∧ ∃ k answer t, LivePut ops k RCODE_SERVFAIL answer t ∧
          k.name = key.name ∧ t ≤ now ∧ now ≤ t + CACHE_TTL_STRANGE_RCODE_USEC) := by
  have hok := ok_after cacheMax ops
  refine ⟨hok.counted.count, hok.room, fun key now hit hclock h => ⟨fun rr hrr => ?_, ?_, ?_⟩⟩
  · exact lookup_record hclock h hrr
  · intro hnil hcode
    obtain ⟨i, k, answer, t, hnow, hput, hname, hkey, hany, soa, hsoa, minimum, hrtype, hdata, hends,
      huntil⟩ := lookup_negative h hnil hcode
    have ht := hput.le hclock
    obtain ⟨httl, hmin, hmax⟩ := soaItem_until hsoa hdata ht (huntil ▸ hnow)
    exact ⟨k, answer, t, hput, hname, hkey, hany, soa, hsoa, minimum, hrtype, hdata, hname ▸ hends,
      ht, httl, hmin, hmax⟩
  · exact fun hcode => lookup_servfail h hclock hcode

/-- Three replies: an address, NXDOMAIN for another name, and a new address for the first. After
10 s the new address has 28 s left and is from a reply, and the other name is refused because of a
SOA. -/
theorem dnsCache_sound_three_replies : let key : Key := ⟨[0x61], TYPE_A⟩
    let other : Key := ⟨[0x62], TYPE_A⟩
    let old : Rr := ⟨[0x61], TYPE_A, 1, 60, .a 0x0a000001, .answer⟩
    let new : Rr := ⟨[0x61], TYPE_A, 1, 30, .a 0x0a000002, .answer⟩
    let ops := [Op.put key RCODE_SUCCESS [old] 0,
      .put other RCODE_NXDOMAIN [⟨[0x62], TYPE_SOA, 1, 60, .soa 30, .authority⟩] (5 * USEC_PER_SEC),
      .put key RCODE_SUCCESS [new] (8 * USEC_PER_SEC)]
    (Cache.after 4096 ops).lookup key (10 * USEC_PER_SEC) = some ⟨0, [{ new with ttl := 28 }]⟩ ∧
      (∃ k rcode answer t, LivePut ops k rcode answer t ∧ ∃ src ∈ answer, src.data = new.data) ∧
      (Cache.after 4096 ops).lookup other (10 * USEC_PER_SEC) = some ⟨RCODE_NXDOMAIN, []⟩ ∧
      (∃ k answer t, LivePut ops k RCODE_NXDOMAIN answer t ∧ ∃ soa ∈ answer, soa.rtype = TYPE_SOA) ∧
      (Cache.after 4096 ops).nItems < 4096 := by
  intro key other old new ops
  obtain ⟨-, hroom, hsound⟩ := dnsCache_sound 4096 ops
  have hkey : (Cache.after 4096 ops).lookup key (10 * USEC_PER_SEC) =
      some ⟨0, [{ new with ttl := 28 }]⟩ := by decide +kernel
  have hother : (Cache.after 4096 ops).lookup other (10 * USEC_PER_SEC) =
      some ⟨RCODE_NXDOMAIN, []⟩ := by decide +kernel
  obtain ⟨k, rcode, answer, t, hput, src, hsrc, -, -, -, heq, -⟩ :=
    (hsound key _ _ (by decide) hkey).1 _ (mem_singleton.mpr rfl)
  obtain ⟨k', answer', t', hput', -, -, -, soa, hsoa, -, hrtype, -⟩ :=
    (hsound other _ _ (by decide) hother).2.1 rfl (.inl rfl)
  exact ⟨hkey, ⟨k, rcode, answer, t, hput, src, hsrc, (congrArg Rr.data heq).symm⟩, hother,
    ⟨k', answer', t', hput', soa, hsoa, hrtype⟩, hroom (by decide)⟩

end NopeekOS.Net.Dns
