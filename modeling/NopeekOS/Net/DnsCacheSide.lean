import NopeekOS.Net.DnsCacheRun

/-!
# Side data in the DNS cache

A reply may carry records of other keys than the one that was asked for. `put` stops at such a
record when its key holds primary items (cache.rs:181), but by then `dns_cache_remove_previous`
has taken the key of every record of the answer section out (cache.rs:162). So the test only ever
sees what this very reply put, and the primary items another lookup learnt are gone.
-/

namespace NopeekOS.Net.Dns

open Cache List

/-- A lookup of `k` at `now` has an answer, and `i` is among the items it answers from. -/
def Cache.Serves (c : Cache) (k : Key) (now : Nat) (i : Item) : Prop :=
  (c.lookup k now).isSome = true ∧ ∃ v, c.byKey.get k = some v ∧ i ∈ v

variable {c : Cache} {key k : Key} {answer : List Rr} {now : Nat} {i : Item}

theorem Cache.Serves.ne_any (h : c.Serves k now i) : k.rtype ≠ TYPE_ANY := by
  intro hany
  have hsome := h.1
  rw [lookup, if_pos hany] at hsome
  cases hsome

/-- Behind a reply that carried a key on the side, all the key holds is side data. -/
theorem Cache.side_put (rcode t : Nat) (hmax : c.cacheMax ≠ 0) (hk : k ≠ key)
    (hany : k.rtype ≠ TYPE_ANY) (hcarried : ∃ rr ∈ answer, rr.cacheable = true ∧ rr.key = k)
    (hside : ∀ rr ∈ answer, rr.key = k → answers key rr = false) :
    All (fun j i => j = k → i.primary = false) (c.put key rcode answer t) := by
  refine All.put (fun rr hrr _ _ hj => hside rr hrr hj) (fun _ j item hneg hj => ?_) hmax
    fun j v hv i _ hj => ?_
  · -- The negative item goes under the key that was asked for, or under ANY.
    subst hj
    have hkind := negativeItem_kind hneg
    split at hkind
    · exact hkind.elim
    · exact absurd hkind.2.1 hk
    · exact absurd (congrArg Key.rtype hkind.2.1) hany
    · exact absurd hkind.2.2.1 hk
  · obtain ⟨rr, hrr, hcache, rfl⟩ := hcarried
    subst hj
    rw [get_removePrevious c key (mem_map_of_mem (mem_filter.mpr ⟨hrr, hcache⟩))] at hv
    cases hv

/-- **Primary items do not survive side data.** A lookup of `k` answers from the primary item `i`.
A reply for another key carries records of `k` in its answer section, none of which answers that
other key. Whatever else the reply holds, `k` is still answered from `i` behind it only if the
cache is switched off. -/
theorem primary_survives_iff (c : Cache) (key k : Key) (rcode t now : Nat) (answer : List Rr)
    (i : Item) (hserves : c.Serves k now i) (hprimary : i.primary = true) (hk : k ≠ key)
    (hcarried : ∃ rr ∈ answer, rr.sect = .answer ∧ rr.key = k)
    (hside : ∀ rr ∈ answer, rr.key = k → answers key rr = false) :
    (c.put key rcode answer t).Serves k now i ↔ c.cacheMax = 0 := by
  constructor
  · rintro ⟨-, v, hv, hi⟩
    by_contra hmax
    have hcache : ∃ rr ∈ answer, rr.cacheable = true ∧ rr.key = k := by
      simpa only [Rr.cacheable, decide_eq_true_eq] using hcarried
    have hfalse := side_put rcode t hmax hk hserves.ne_any hcache hside k v hv i hi rfl
    rw [hprimary] at hfalse
    cases hfalse
  · intro hmax
    rw [put, if_pos hmax]
    exact hserves

/-- The address 10.0.0.1 of `b`, learnt by a lookup of `b`. A reply for `a` that carries the
address 6.6.6.6 of `b` replaces it. -/
theorem primary_replaced_by_side : let a : Rr := ⟨[0x61], TYPE_A, 1, 60, .a 0x0a000002, .answer⟩
    let b : Rr := ⟨[0x62], TYPE_A, 1, 60, .a 0x0a000001, .answer⟩
    let forged : Rr := { b with data := .a 0x06060606 }
    let learnt := Cache.after 4096 [.put b.key RCODE_SUCCESS [b] 0]
    (learnt.lookup b.key 0 = some ⟨0, [b]⟩ ∧ learnt.Serves b.key 0 ⟨.positive b, 60000000, true⟩) ∧
      (learnt.put a.key RCODE_SUCCESS [a, forged] 0).lookup b.key 0 = some ⟨0, [forged]⟩ := by
  intro a b forged learnt
  have hget : learnt.byKey.get b.key = some [⟨.positive b, 60000000, true⟩] := by decide +kernel
  refine ⟨⟨by decide +kernel, by decide +kernel, _, hget, mem_singleton.mpr rfl⟩, ?_⟩
  decide +kernel

/-- The same reply put into the cache of that lookup. -/
theorem primary_survives_iff_forged : let a : Rr := ⟨[0x61], TYPE_A, 1, 60, .a 0x0a000002, .answer⟩
    let b : Rr := ⟨[0x62], TYPE_A, 1, 60, .a 0x0a000001, .answer⟩
    let learnt := Cache.after 4096 [.put b.key RCODE_SUCCESS [b] 0]
    ¬ (learnt.put a.key RCODE_SUCCESS [a, { b with data := .a 0x06060606 }] 0).Serves b.key 0
      ⟨.positive b, 60000000, true⟩ := by
  intro a b learnt hserves
  have hget : learnt.byKey.get b.key = some [⟨.positive b, 60000000, true⟩] := by decide +kernel
  have hmax := (primary_survives_iff learnt a.key b.key RCODE_SUCCESS 0 0
    [a, { b with data := .a 0x06060606 }] ⟨.positive b, 60000000, true⟩
    ⟨by decide +kernel, _, hget, mem_singleton.mpr rfl⟩ rfl (by decide) (by decide)
    (by decide)).mp hserves
  exact absurd hmax (by decide +kernel)

end NopeekOS.Net.Dns
