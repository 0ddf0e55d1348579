import NopeekOS.Lib.Run
import NopeekOS.Security.Capability

/-!
# Attenuation of the capability vault

`VaultState` is the vault with its clock and, as history, every capability ever
issued with its parent. A step is one call at a tick not before the last one;
`create` draws an id that was never issued.

The invariant `Attenuated` says what one table state guarantees: a *live*
capability (active and not expired) is the root or has a live parent in the
table with at least its rights and at least its lifetime. Because a dead
capability has no live child, overwriting its slot cuts no live chain, and the
claim about revocation follows without tracking who was revoked: whoever
passes `check` has every ancestor live in the table, so no descendant of a
capability that is gone or inactive passes.
-/

namespace NopeekOS.Security

open Lib Function List
open Option (filter_eq_some_iff some)

namespace Capability

/-- Active and not expired: what `check` asks for before it looks at rights. -/
def Live (c : Capability) (now : Nat) : Prop :=
  c.active = true ∧ c.isExpired now = false

instance (c : Capability) (now : Nat) : Decidable (c.Live now) := by
  unfold Live; infer_instance

/-- `c` expires no later than `p` (`none` is never). -/
def ExpiresBy (c p : Capability) : Prop :=
  ∀ exp, p.expiresAt = some exp → ∃ e, c.expiresAt = some e ∧ e ≤ exp

variable {c : Capability} {now : Nat}

theorem isExpired_eq_false :
    c.isExpired now = false ↔ ∀ exp, c.expiresAt = some exp → now < exp := by
  unfold isExpired
  cases c.expiresAt with
  | none => simp
  | some e => simp

/-- An expired capability stays expired. -/
theorem Live.anti {now' : Nat} (h : c.Live now') (hle : now ≤ now') : c.Live now := by
  refine ⟨h.1, isExpired_eq_false.mpr fun exp hexp => ?_⟩
  exact Nat.lt_of_le_of_lt hle (isExpired_eq_false.mp h.2 exp hexp)

/-- A parent outlives its child. -/
theorem ExpiresBy.not_expired {p : Capability} (h : c.ExpiresBy p) (hc : c.isExpired now = false) :
    p.isExpired now = false := by
  refine isExpired_eq_false.mpr fun exp hexp => ?_
  obtain ⟨e, he, hle⟩ := h exp hexp
  exact Nat.lt_of_lt_of_le (isExpired_eq_false.mp hc e he) hle

end Capability

namespace Vault

/-- `c` sits in some slot of the vault. -/
def Holds (v : Vault) (c : Capability) : Prop := ∃ i, v.caps i = some c

/-- No two slots hold the same id. -/
def UniqueIds (v : Vault) : Prop :=
  ∀ i j c d, v.caps i = some c → v.caps j = some d → c.id = d.id → i = j

/-! ## Lookups -/

variable {v : Vault} {i : Fin MAX_CAPABILITIES}

theorem positionIdx_some {p : Fin MAX_CAPABILITIES → Option Capability → Bool}
    (h : v.positionIdx p = some i) : p i (v.caps i) = true :=
  find?_some (p := fun i => p i (v.caps i)) h

theorem position_some {p : Option Capability → Bool}
    (h : v.position p = some i) : p (v.caps i) = true :=
  positionIdx_some h

variable {id : CapId} {c : Capability}

theorem find_some (h : v.find id = some c) : v.Holds c ∧ c.id = id := by
  unfold find at h
  obtain ⟨i, hi, hc⟩ := Option.bind_eq_some_iff.mp h
  have hp := position_some hi
  rw [hc] at hp
  exact ⟨⟨i, hc⟩, by simpa using hp⟩

variable {v' : Vault}

/-- What `check` accepts is what `find` finds, live, with the rights; the table itself
does not change. -/
theorem check_ok {now : Nat} {required : Rights} (h : v.check now id required = .ok (c, v')) :
    v.find id = some c ∧ c.Live now ∧ c.rights.contains required = true ∧ v'.caps = v.caps := by
  unfold check at h
  cases hp : v.position fun c => c.any fun c => c.id == id with
  | none => rw [hp] at h; cases h
  | some slot =>
    rw [hp] at h
    dsimp only at h
    cases hc : v.caps slot with
    | none => rw [hc] at h; cases h
    | some cap =>
      rw [hc] at h
      dsimp only at h
      split_ifs at h with h1 h2 h3
      cases h
      have hfind : v.find id = some c := by
        rw [find, hp]
        exact hc
      exact ⟨hfind, ⟨by simpa using h1, by simpa using h2⟩, by simpa using h3, rfl⟩

theorem revoke_ok {revoker target : CapId} (h : v.revoke revoker target = .ok v') :
    v' = v.revokeRecursive target := by
  unfold revoke at h
  split at h
  · cases h
  · split_ifs at h
    exact (Except.ok.inj h).symm

/-! ## What a revocation does to the table -/

/-- Slot by slot, `v'` is `v` with some capabilities deactivated. -/
def Deactivated (v v' : Vault) : Prop :=
  ∀ i, (v.caps i = none ∧ v'.caps i = none) ∨
    ∃ c, v.caps i = some c ∧ (v'.caps i = some c ∨ v'.caps i = some { c with active := false })

theorem Deactivated.refl (v : Vault) : Deactivated v v := by
  intro i
  cases h : v.caps i with
  | none => exact .inl ⟨rfl, rfl⟩
  | some c => exact .inr ⟨c, rfl, .inl rfl⟩

/-- What is in a slot was there before, the same or active. -/
def Lowered (v v' : Vault) : Prop :=
  ∀ i c, v'.caps i = some c → ∃ d, v.caps i = some d ∧ (c = d ∨ c = { d with active := false })

theorem Deactivated.lowered (h : Deactivated v v') : Lowered v v' := by
  intro i c hc
  rcases h i with ⟨-, hb⟩ | ⟨d, ha, hb⟩
  · rw [hb] at hc
    cases hc
  · exact ⟨d, ha, by rcases hb with hb | hb <;> rw [hb] at hc <;> cases hc <;> simp⟩

theorem Deactivated.trans {v₁ v₂ v₃ : Vault} (h₁ : Deactivated v₁ v₂)
    (h₂ : Deactivated v₂ v₃) : Deactivated v₁ v₃ := by
  intro i
  rcases h₂ i with ⟨hnone, hb⟩ | ⟨d, hd, hb⟩
  · rcases h₁ i with ⟨ha, -⟩ | ⟨c, -, hc⟩
    · exact .inl ⟨ha, hb⟩
    · rw [hnone] at hc
      rcases hc with hc | hc <;> cases hc
  · obtain ⟨c, hc, rfl | rfl⟩ := h₁.lowered i d hd
    · exact .inr ⟨d, hc, hb⟩
    · exact .inr ⟨c, hc, .inr (hb.elim id id)⟩

/-- Rewriting every capability by a function that at most deactivates. -/
theorem deactivated_mapCaps (v : Vault) (p : Capability → Prop) [DecidablePred p] :
    Deactivated v (v.mapCaps fun c => if p c then { c with active := false } else c) := by
  intro i
  cases h : v.caps i with
  | none => exact .inl ⟨rfl, by simp [mapCaps, h]⟩
  | some c =>
    refine .inr ⟨c, rfl, ?_⟩
    by_cases hc : p c
    · exact .inr (by simp [mapCaps, h, hc])
    · exact .inl (by simp [mapCaps, h, hc])

theorem deactivated_revokePass (v : Vault) : Deactivated v v.revokePass :=
  deactivated_mapCaps v fun c => v.isOrphan c = true

theorem deactivated_revokeLoop : ∀ (n : Nat) (v : Vault), Deactivated v (revokeLoop n v)
  | 0, v => .refl v
  | n + 1, v => by
    show Deactivated v (if v.passChanges then revokeLoop n v.revokePass else v.revokePass)
    split_ifs
    · exact (deactivated_revokePass v).trans (deactivated_revokeLoop n v.revokePass)
    · exact deactivated_revokePass v

theorem deactivated_revokeRecursive (v : Vault) (t : CapId) : Deactivated v (v.revokeRecursive t) :=
  (deactivated_mapCaps v fun c => c.id = t).trans (deactivated_revokeLoop _ _)

/-- A capability of the lowered table comes from one of the table, which is
the same one if it is active. -/
theorem Lowered.origin (h : Lowered v v') (hc : v'.Holds c) :
    ∃ d, v.Holds d ∧ d.id = c.id ∧ d.parent = c.parent ∧ (c.active = true → d = c) ∧
      (d.active = false → c.active = false) := by
  obtain ⟨i, hi⟩ := hc
  obtain ⟨d, hd, rfl | rfl⟩ := h i c hi
  · exact ⟨c, ⟨i, hd⟩, rfl, rfl, fun _ => rfl, id⟩
  · exact ⟨d, ⟨i, hd⟩, rfl, rfl, nofun, fun _ => rfl⟩

/-- A capability of the table is still there, the same or deactivated. -/
theorem Deactivated.image (h : Deactivated v v') (hc : v.Holds c) :
    v'.Holds c ∨ v'.Holds { c with active := false } := by
  obtain ⟨i, hi⟩ := hc
  rcases h i with ⟨ha, -⟩ | ⟨d, ha, hb | hb⟩
  · rw [ha] at hi; cases hi
  · rw [ha] at hi
    cases hi
    exact .inl ⟨i, hb⟩
  · rw [ha] at hi
    cases hi
    exact .inr ⟨i, hb⟩

theorem Lowered.uniqueIds (h : Lowered v v') (hu : v.UniqueIds) : v'.UniqueIds := by
  have slot : ∀ i c, v'.caps i = some c → ∃ d, v.caps i = some d ∧ d.id = c.id := by
    intro i c hc
    obtain ⟨d, hd, rfl | rfl⟩ := h i c hc
    · exact ⟨c, hd, rfl⟩
    · exact ⟨d, hd, rfl⟩
  intro i j c d hc hd hid
  obtain ⟨c', hc', hcid⟩ := slot i c hc
  obtain ⟨d', hd', hdid⟩ := slot j d hd
  exact hu i j c' d' hc' hd' (by rw [hcid, hdid, hid])

/-! ## The loop of `revoke_recursive` ends with nothing left to revoke -/

theorem mem_revokedIds : id ∈ v.revokedIds ↔ ∃ c, v.Holds c ∧ c.active = false ∧ c.id = id := by
  unfold revokedIds
  rw [mem_filterMap]
  constructor
  · rintro ⟨i, -, h⟩
    obtain ⟨c, hc, hif⟩ := Option.bind_eq_some_iff.mp h
    by_cases hact : c.active = true
    · simp [hact] at hif
    · rw [Bool.not_eq_true] at hact
      simp [hact] at hif
      exact ⟨c, ⟨i, hc⟩, hact, hif⟩
  · rintro ⟨c, ⟨i, hc⟩, hact, hid⟩
    exact ⟨i, mem_finRange i, by simp [hc, hact, hid]⟩

/-- No active capability has its parent in the table and inactive. -/
def Closed (v : Vault) : Prop :=
  ∀ c d, v.Holds c → v.Holds d → c.active = true → c.parent = some d.id → d.active = true

theorem passChanges_iff : v.passChanges = true ↔ ∃ i c, v.caps i = some c ∧ v.isOrphan c = true := by
  simp [passChanges, Option.any_eq_true]

theorem closed_of_not_passChanges (h : ¬ v.passChanges = true) : v.Closed := by
  rintro c d ⟨i, hi⟩ hd hact hpar
  by_contra hda
  rw [Bool.not_eq_true] at hda
  have hmem : d.id ∈ v.revokedIds := mem_revokedIds.mpr ⟨d, hd, hda, rfl⟩
  have horph : v.isOrphan c = true := by
    simp [isOrphan, hact, hpar, hmem]
  exact h (passChanges_iff.mpr ⟨i, c, hi, horph⟩)

/-- The number of active capabilities: what every pass but the last lowers. -/
def activeCount (v : Vault) : Nat :=
  (Finset.univ.filter fun i => (v.caps i).any (fun c => c.active) = true).card

theorem activeCount_le (v : Vault) : v.activeCount ≤ MAX_CAPABILITIES := by
  have := Finset.card_le_univ
    (Finset.univ.filter fun i => (v.caps i).any (fun c => c.active) = true)
  simpa [activeCount] using this

theorem activeCount_revokePass_lt (h : v.passChanges = true) :
    v.revokePass.activeCount < v.activeCount := by
  obtain ⟨i, c, hc, horph⟩ := passChanges_iff.mp h
  have hact : c.active = true := (Bool.and_eq_true_iff.mp horph).1
  refine Finset.card_lt_card ⟨?_, ?_⟩
  · -- the pass activates nothing
    intro j hj
    simp only [Finset.mem_filter, Finset.mem_univ, true_and] at hj ⊢
    rcases deactivated_revokePass v j with ⟨-, hb⟩ | ⟨d, ha, hb | hb⟩
    · rw [hb] at hj; cases hj
    · rw [hb] at hj; rw [ha]; exact hj
    · rw [hb] at hj; cases hj
  · -- and the orphan in slot `i` is not active any more
    intro hsub
    have hin := hsub (Finset.mem_filter.mpr ⟨Finset.mem_univ i, by simp [hc, hact]⟩)
    have hcaps : v.revokePass.caps i = some { c with active := false } := by
      simp [revokePass, mapCaps, hc, horph]
    have := (Finset.mem_filter.mp hin).2
    rw [hcaps] at this
    cases this

theorem revokePass_of_not_passChanges (h : ¬ v.passChanges = true) : v.revokePass = v := by
  have hno : ∀ i c, v.caps i = some c → ¬ v.isOrphan c = true :=
    fun i c hc horph => h (passChanges_iff.mpr ⟨i, c, hc, horph⟩)
  have hcaps : (fun i => (v.caps i).map fun c =>
      if v.isOrphan c then { c with active := false } else c) = v.caps := by
    funext i
    cases hc : v.caps i with
    | none => rfl
    | some c => simp [hno i c hc]
  show { v with caps := _ } = v
  rw [hcaps]

theorem closed_revokeLoop : ∀ (n : Nat) (v : Vault), v.activeCount < n → (revokeLoop n v).Closed
  | 0, v, h => absurd h (Nat.not_lt_zero _)
  | n + 1, v, h => by
    unfold revokeLoop
    split_ifs with hch
    · have hlt := activeCount_revokePass_lt hch
      exact closed_revokeLoop n v.revokePass (by omega)
    · rw [revokePass_of_not_passChanges hch]
      exact closed_of_not_passChanges hch

/-- After `revoke_recursive` the target is inactive wherever it sits. -/
theorem revokeRecursive_target {t : CapId} (hc : (v.revokeRecursive t).Holds c) (hid : c.id = t) :
    c.active = false := by
  obtain ⟨d, ⟨i, hi⟩, hdid, -, -, hinact⟩ :=
    (deactivated_revokeLoop (MAX_CAPABILITIES + 1) _).lowered.origin hc
  refine hinact ?_
  simp only [mapCaps] at hi
  cases hv : v.caps i with
  | none => rw [hv] at hi; cases hi
  | some e =>
    rw [hv] at hi
    simp only [Option.map_some, some.injEq] at hi
    by_cases he : e.id = t
    · rw [if_pos he] at hi
      rw [← hi]
    · rw [if_neg he] at hi
      rw [hi, hdid] at he
      exact absurd hid he

theorem holds_release :
    (v.release id).Holds c ↔ (v.revokeRecursive id).Holds c ∧ c.active = true := by
  constructor
  · rintro ⟨i, hi⟩
    obtain ⟨h1, h2⟩ := filter_eq_some_iff.mp hi
    exact ⟨⟨i, h1⟩, h2⟩
  · rintro ⟨⟨i, hi⟩, hact⟩
    exact ⟨i, filter_eq_some_iff.mpr ⟨hi, hact⟩⟩

/-- Capabilities are gone or deactivated, but the parent of none that is still active. -/
structure Pruned (v v' : Vault) : Prop where
  lowered : Lowered v v'
  parent : ∀ c p, v'.Holds c → c.active = true → c.parent = some p.id → v.Holds p →
    p.active = true → v'.Holds p

/-- The counters do not matter. -/
theorem Pruned.of_caps_eq (h : v'.caps = v.caps) : Pruned v v' := by
  exact ⟨fun i c hc => ⟨c, h ▸ hc, .inl rfl⟩, fun c p _ _ _ ⟨i, hi⟩ _ => ⟨i, h ▸ hi⟩⟩

theorem pruned_revokeRecursive (v : Vault) (t : CapId) : Pruned v (v.revokeRecursive t) := by
  have hd := deactivated_revokeRecursive v t
  have hclosed : (v.revokeRecursive t).Closed :=
    closed_revokeLoop _ _ (Nat.lt_succ_of_le (activeCount_le _))
  refine ⟨hd.lowered, fun c p hc hact hpar hp _ => (hd.image hp).resolve_right fun hp' => ?_⟩
  cases hclosed c _ hc hp' hact hpar

theorem pruned_release (v : Vault) (id : CapId) : Pruned v (v.release id) := by
  have hrev := pruned_revokeRecursive v id
  refine ⟨fun i c hc => hrev.lowered i c (filter_eq_some_iff.mp hc).1, ?_⟩
  intro c p hc hact hpar hp hpact
  exact holds_release.mpr ⟨hrev.parent c p (holds_release.mp hc).1 hact hpar hp hpact, hpact⟩

end Vault

/-! ## The state machine -/

/-- One call on the vault with the ticks it reads. `create` is also how a holder
delegates: any capability may be the parent. `id` is what the random generator
draws. -/
inductive VaultOp where
  | create (clock : CreateClock) (id parent : CapId) (resource : ResourceKind)
      (rights : Rights) (ttlTicks : Option Nat)
  | revoke (revoker target : CapId)
  | release (id : CapId)
  | check (now : Nat) (id : CapId) (required : Rights)

/-- The vault, the last tick read and the history of issued capabilities with
their parents, newest first. -/
structure VaultState where
  vault : Vault
  rootCap : CapId
  now : Nat
  issued : List (CapId × Option CapId)

namespace VaultState

/-- After `Vault::init` at tick 0. -/
def init (rootId : CapId) : VaultState where
  vault := Vault.init rootId
  rootCap := rootId
  now := 0
  issued := [(rootId, none)]

variable (s : VaultState)

/-- The effect of one call; a failed call changes nothing but the clock. -/
def exec : VaultOp → VaultState
  | .create clock id parent resource rights ttlTicks =>
    match s.vault.create s.rootCap clock id parent resource rights ttlTicks with
    | .ok (id, v) =>
      { s with vault := v, now := clock.child, issued := (id, some parent) :: s.issued }
    | .error _ => { s with now := clock.child }
  | .revoke revoker target =>
    match s.vault.revoke revoker target with
    | .ok v => { s with vault := v }
    | .error _ => s
  | .release id => { s with vault := s.vault.release id }
  | .check now id required =>
    match s.vault.check now id required with
    | .ok (_, v) => { s with vault := v, now }
    | .error _ => { s with now }

/-- The ids issued so far. -/
def ids : List CapId := s.issued.map Prod.fst

/-- The environment's side of a call: the clock does not go back and a drawn
id is fresh. -/
def Legal : VaultOp → Prop
  | .create clock id _ _ _ _ => clock.From s.now ∧ id ∉ s.ids
  | .check now _ _ => s.now ≤ now
  | .revoke _ _ | .release _ => True

/-- One step: a legal call. -/
def Step (op : VaultOp) (s' : VaultState) : Prop :=
  s.Legal op ∧ s' = s.exec op

/-- `c` was created below `t`, at any depth (or is `t`). -/
def Below : CapId → CapId → Prop :=
  Relation.ReflTransGen fun p c => (c, some p) ∈ s.issued

/-- The whole parent chain of `c` up to the root capability is in the table and
live, and every link attenuates. -/
inductive ChainUp (s : VaultState) (now : Nat) : Capability → Prop where
  | root {c : Capability} : s.vault.Holds c → c.id = s.rootCap → c.parent = none →
      c.Live now → ChainUp s now c
  | child {c p : Capability} : s.vault.Holds c → c.Live now → c.parent = some p.id →
      p.rights.contains c.rights = true → c.ExpiresBy p → ChainUp s now p →
      ChainUp s now c

end VaultState

/-- A live capability is the root's or hangs below a live one of the table that
has its rights and its lifetime. -/
def Vault.Attenuated (v : Vault) (now : Nat) : Prop :=
  ∀ c, v.Holds c → c.Live now → ∀ q, c.parent = some q →
    ∃ p, v.Holds p ∧ p.id = q ∧ p.Live now ∧ p.rights.contains c.rights = true ∧ c.ExpiresBy p

/-- A history of issued capabilities: ids are fresh, parents come earlier, and
only the root has no parent. -/
def IssuedOk (root : CapId) : List (CapId × Option CapId) → Prop
  | [] => True
  | (id, p) :: rest =>
    id ∉ rest.map Prod.fst ∧ (p = none → id = root) ∧
      (∀ q, p = some q → q ∈ rest.map Prod.fst) ∧ IssuedOk root rest

/-- The invariant of the state machine. -/
structure VaultInv (s : VaultState) : Prop where
  unique : s.vault.UniqueIds
  attenuated : s.vault.Attenuated s.now
  issuedOk : IssuedOk s.rootCap s.issued
  recorded : ∀ c, s.vault.Holds c → (c.id, c.parent) ∈ s.issued

/-! ## One step keeps the invariant -/

namespace Vault

variable {v : Vault} {now : Nat} {ttl : Option Nat}

/-- Time passes: a child that is still live has a parent that is still live. -/
theorem Attenuated.later {now' : Nat} (h : v.Attenuated now) (hle : now ≤ now') :
    v.Attenuated now' := by
  intro c hc hlive q hq
  obtain ⟨p, hp, hid, hplive, hrights, hexp⟩ := h c hc (hlive.anti hle) q hq
  exact ⟨p, hp, hid, ⟨hplive.1, hexp.not_expired hlive.2⟩, hrights, hexp⟩

/-- Pruning cuts no chain. -/
theorem Attenuated.pruned {v' : Vault} (h : v.Attenuated now) (hv : Pruned v v') :
    v'.Attenuated now := by
  intro c hc hlive q hq
  obtain ⟨d, hdv, -, -, heq, -⟩ := hv.lowered.origin hc
  obtain rfl := heq hlive.1
  obtain ⟨p, hp, rfl, hplive, hrest⟩ := h d hdv hlive q hq
  exact ⟨p, hv.parent d p hc hlive.1 hq hp hplive.1, rfl, hplive, hrest⟩

variable {c : Capability}

/-- What `create` did when it succeeded: the parent was live and covers the
rights, and the new capability went into a slot that was free or held one that
is dead by the end of the call. -/
theorem create_ok {v' : Vault} {root id id' parentId : CapId} {clock : CreateClock}
    {resource : ResourceKind} {rights : Rights} (hclock : ∀ i, clock.slot i ≤ clock.child)
    (h : v.create root clock id parentId resource rights ttl = .ok (id', v')) :
    ∃ parent slot, id' = id ∧ v.find parentId = some parent ∧ parent.Live clock.parent ∧
      parent.rights.contains rights = true ∧
      (∀ d, v.caps slot = some d → ¬ d.Live clock.child) ∧
      v' = v.issue slot ⟨id, resource, rights, some parentId, true,
        childExpiry clock.child ttl parent.expiresAt⟩ := by
  unfold create at h
  cases hf : v.find parentId with
  | none => rw [hf] at h; cases h
  | some parent =>
    rw [hf] at h
    dsimp only at h
    split_ifs at h with h1 h2 h3 h4
    cases hs : v.slotFor root clock with
    | none => rw [hs] at h; cases h
    | some slot =>
      rw [hs] at h
      cases h
      refine ⟨parent, slot, rfl, rfl, ⟨by simpa using h1, by simpa using h2⟩,
        by simpa using h4, ?_, rfl⟩
      intro d hd hlive
      unfold slotFor at hs
      rcases Option.or_eq_some_iff.mp hs with hfree | ⟨-, hdead⟩
      · have := position_some hfree
        rw [hd] at this
        cases this
      · have := positionIdx_some hdead
        have hthen := hlive.anti (hclock slot)
        rw [hd] at this
        simp [hthen.1, hthen.2] at this

/-- The child's expiry as `create` computes it is bounded by the parent's. -/
theorem childExpiry_le {exp : Nat} : ∃ e, childExpiry now ttl (some exp) = some e ∧ e ≤ exp := by
  cases ttl with
  | none => exact ⟨exp, rfl, Nat.le_refl _⟩
  | some t => exact ⟨_, rfl, Nat.min_le_right _ _⟩

variable {slot : Fin MAX_CAPABILITIES}

theorem caps_issue {i : Fin MAX_CAPABILITIES} {d : Capability}
    (h : (v.issue slot c).caps i = some d) : i = slot ∧ d = c ∨ v.caps i = some d := by
  by_cases his : i = slot
  · subst his
    simp only [issue, update_self, some.injEq] at h
    exact .inl ⟨rfl, h.symm⟩
  · simp only [issue, update_of_ne his] at h
    exact .inr h

/-- Issuing below an active parent, into a free slot or over a dead capability,
cuts no chain: a dead capability has no live child, and a child issued below a
parent that expires during the call is dead with it. -/
theorem Attenuated.issue {parent : Capability} (h : v.Attenuated now)
    (hdead : ∀ d, v.caps slot = some d → ¬ d.Live now) (hparent : v.Holds parent)
    (hpact : parent.active = true) (hcpar : c.parent = some parent.id)
    (hrights : parent.rights.contains c.rights = true) (hexp : c.ExpiresBy parent) :
    (v.issue slot c).Attenuated now := by
  -- whatever is live was not in the overwritten slot
  have keep : ∀ d, v.Holds d → d.Live now → (v.issue slot c).Holds d := by
    rintro d ⟨i, hi⟩ hlive
    have his : i ≠ slot := fun heq => hdead d (heq ▸ hi) hlive
    exact ⟨i, by simp [Vault.issue, update_of_ne his, hi]⟩
  rintro d ⟨i, hi⟩ hlive q hq
  rcases caps_issue hi with ⟨-, rfl⟩ | hi
  · rw [hcpar] at hq
    cases hq
    have hplive : parent.Live now := ⟨hpact, hexp.not_expired hlive.2⟩
    exact ⟨parent, keep parent hparent hplive, rfl, hplive, hrights, hexp⟩
  · obtain ⟨p, hp, hid, hpl, hrest⟩ := h d ⟨i, hi⟩ hlive q hq
    exact ⟨p, keep p hp hpl, hid, hpl, hrest⟩

theorem UniqueIds.issue (h : v.UniqueIds) (hfresh : ∀ d, v.Holds d → d.id ≠ c.id) :
    (v.issue slot c).UniqueIds := by
  intro i j d e hd he hid
  rcases caps_issue hd with ⟨rfl, rfl⟩ | hd' <;> rcases caps_issue he with ⟨rfl, rfl⟩ | he'
  · rfl
  · exact absurd hid.symm (hfresh e ⟨j, he'⟩)
  · exact absurd hid (hfresh d ⟨i, hd'⟩)
  · exact h i j d e hd' he' hid

end Vault

open VaultState

variable {now : Nat}

theorem CreateClock.From.zero : CreateClock.From ⟨0, fun _ => 0, 0⟩ 0 :=
  ⟨Nat.le_refl 0, fun _ => Nat.le_refl 0, fun _ _ _ => Nat.le_refl 0, fun _ => Nat.le_refl 0⟩

theorem CreateClock.From.le_child {clock : CreateClock} (h : clock.From now) : now ≤ clock.child :=
  h.1.trans ((h.2.1 0).trans (h.2.2.2 0))

theorem vaultInv_init (rootId : CapId) : VaultInv (init rootId) := by
  have only : ∀ i c, (Vault.init rootId).caps i = some c →
      i = 0 ∧ c = ⟨rootId, .kernel, Rights.ALL, none, true, none⟩ := by
    intro i c hc
    by_cases hi : i = 0
    · subst hi
      simp only [Vault.init, update_self, some.injEq] at hc
      exact ⟨rfl, hc.symm⟩
    · simp [Vault.init, update_of_ne hi, Vault.empty] at hc
  constructor
  · intro i j c d hc hd _
    rw [(only i c hc).1, (only j d hd).1]
  · rintro c ⟨i, hi⟩ - q hq
    rw [(only i c hi).2] at hq
    cases hq
  · refine ⟨not_mem_nil, fun _ => rfl, ?_, trivial⟩
    rintro q ⟨⟩
  · rintro c ⟨i, hi⟩
    rw [(only i c hi).2]
    exact mem_singleton.mpr rfl

variable {s : VaultState}

/-- The clock alone. -/
theorem VaultInv.tick (h : VaultInv s) (hle : s.now ≤ now) : VaultInv { s with now } :=
  ⟨h.unique, h.attenuated.later hle, h.issuedOk, h.recorded⟩

variable {v : Vault}

/-- Revoking and releasing keep the invariant. -/
theorem VaultInv.pruned (h : VaultInv s) (hv : Vault.Pruned s.vault v) :
    VaultInv { s with vault := v } := by
  refine ⟨hv.lowered.uniqueIds h.unique, h.attenuated.pruned hv, h.issuedOk, ?_⟩
  intro c hc
  obtain ⟨d, hdv, hid, hpar, -⟩ := hv.lowered.origin hc
  rw [← hid, ← hpar]
  exact h.recorded d hdv

/-- What a call can do: prune the table, or issue a capability below an active one of the table
into a slot that holds nothing live. -/
inductive Effect (s : VaultState) : VaultState → Prop where
  | prune {now : Nat} {v : Vault} : s.now ≤ now → Vault.Pruned s.vault v →
      Effect s { s with vault := v, now }
  | issue {now : Nat} {slot : Fin MAX_CAPABILITIES} {c p : Capability} : s.now ≤ now →
      c.id ∉ s.ids → s.vault.Holds p → p.active = true → c.parent = some p.id →
      p.rights.contains c.rights = true → c.ExpiresBy p →
      (∀ d, s.vault.caps slot = some d → ¬ d.Live now) →
      Effect s ⟨s.vault.issue slot c, s.rootCap, now, (c.id, some p.id) :: s.issued⟩

variable {id : CapId} {op : VaultOp} {s' : VaultState}

theorem effect_of_step (hstep : Step s op s') : Effect s s' := by
  obtain ⟨hlegal, rfl⟩ := hstep
  have still {now : Nat} {v : Vault} (hle : s.now ≤ now) (hcaps : v.caps = s.vault.caps) :
      Effect s { s with vault := v, now } :=
    .prune hle (.of_caps_eq hcaps)
  cases op with
  | create clock id parentId resource rights ttl =>
    obtain ⟨hclock, hfresh⟩ := hlegal
    simp only [exec]
    cases hok : s.vault.create s.rootCap clock id parentId resource rights ttl with
    | error e => exact still hclock.le_child rfl
    | ok r =>
      obtain ⟨id', v⟩ := r
      obtain ⟨p, slot, rfl, hfind, hlive, hrights, hdead, rfl⟩ :=
        Vault.create_ok hclock.2.2.2 hok
      obtain ⟨hp, rfl⟩ := Vault.find_some hfind
      refine .issue hclock.le_child hfresh hp hlive.1 rfl hrights (fun exp hexp => ?_) hdead
      rw [hexp]
      exact Vault.childExpiry_le
  | revoke revoker target =>
    simp only [exec]
    cases hok : s.vault.revoke revoker target with
    | error e => exact still le_rfl rfl
    | ok v =>
      rw [Vault.revoke_ok hok]
      exact .prune le_rfl (Vault.pruned_revokeRecursive s.vault target)
  | release id => exact .prune le_rfl (Vault.pruned_release s.vault id)
  | check now id required =>
    simp only [exec]
    cases hok : s.vault.check now id required with
    | error e => exact still hlegal rfl
    | ok r => exact still hlegal (Vault.check_ok hok).2.2.2

/-- **One call keeps the invariant.** -/
theorem vaultInv_step (s : VaultState) (op : VaultOp) (s' : VaultState)
    (h : VaultInv s) (hstep : Step s op s') : VaultInv s' := by
  cases effect_of_step hstep with
  | prune hle hv => exact (h.tick hle).pruned hv
  | issue hle hfresh hp hact hpar hrights hexp hdead =>
    have hids (d : Capability) (hd : s.vault.Holds d) : d.id ∈ s.ids :=
      mem_map_of_mem (f := Prod.fst) (h.recorded d hd)
    refine ⟨h.unique.issue fun d hd heq => hfresh (heq ▸ hids d hd),
      (h.attenuated.later hle).issue hdead hp hact hpar hrights hexp,
      ⟨hfresh, nofun, ?_, h.issuedOk⟩, ?_⟩
    · rintro q ⟨⟩
      exact hids _ hp
    · rintro d ⟨i, hi⟩
      rcases Vault.caps_issue hi with ⟨-, rfl⟩ | hi
      · rw [hpar]
        exact mem_cons_self
      · exact mem_cons_of_mem _ (h.recorded d ⟨i, hi⟩)

/-- The invariant holds after every run from `init`. -/
theorem vaultInv_run {rootId : CapId} {ops : List VaultOp} (hrun : Run Step (init rootId) ops s) :
    VaultInv s :=
  hrun.invariant vaultInv_step (vaultInv_init rootId)

/-! ## Parent chains -/

/-- A history names the parent of an id once. -/
theorem IssuedOk.functional {root : CapId} {p q : Option CapId} :
    ∀ {l : List (CapId × Option CapId)}, IssuedOk root l → (id, p) ∈ l → (id, q) ∈ l → p = q
  | (_, _) :: rest, ⟨hfresh, _, _, hrest⟩, hp, hq => by
    rcases mem_cons.mp hp with hp | hp <;> rcases mem_cons.mp hq with hq | hq
    · rw [Prod.mk.injEq] at hp hq
      rw [hp.2, hq.2]
    · rw [Prod.mk.injEq] at hp
      exact absurd (hp.1 ▸ mem_map_of_mem (f := Prod.fst) hq) hfresh
    · rw [Prod.mk.injEq] at hq
      exact absurd (hq.1 ▸ mem_map_of_mem (f := Prod.fst) hp) hfresh
    · exact hrest.functional hp hq

/-- The chain of a live capability, by induction on the part of the history at
or before it: its parent was issued strictly earlier. -/
theorem VaultInv.chainUp_of_mem (h : VaultInv s) (hnow : s.now ≤ now) :
    ∀ (l : List (CapId × Option CapId)), IssuedOk s.rootCap l → l ⊆ s.issued →
      ∀ c, s.vault.Holds c → c.Live now → (c.id, c.parent) ∈ l → ChainUp s now c
  | (id, p) :: rest, ⟨_, hroot, hpar, hrest⟩, hsub, c, hc, hlive, hmem => by
    have hsub' : rest ⊆ s.issued := fun x hx => hsub (mem_cons_of_mem _ hx)
    rcases mem_cons.mp hmem with heq | hmem
    · obtain ⟨hid, hp⟩ := Prod.mk.inj heq
      cases hcp : c.parent with
      | none => exact .root hc (hid.trans (hroot (hp ▸ hcp))) hcp hlive
      | some q =>
        obtain ⟨par, hpar', rfl, hplive, hrights, hexp⟩ :=
          h.attenuated.later hnow c hc hlive q hcp
        refine .child hc hlive hcp hrights hexp ?_
        -- the parent's record is further down
        obtain ⟨⟨a, pp⟩, hin, hfst⟩ := mem_map.mp (hpar par.id (hp ▸ hcp))
        obtain rfl : a = par.id := hfst
        have hpp := h.issuedOk.functional (hsub' hin) (h.recorded par hpar')
        exact h.chainUp_of_mem hnow rest hrest hsub' par hpar' hplive (hpp ▸ hin)
    · exact h.chainUp_of_mem hnow rest hrest hsub' c hc hlive hmem

/-- Whoever is live has its whole chain live. -/
theorem VaultInv.chainUp (h : VaultInv s) (hnow : s.now ≤ now) {c : Capability}
    (hc : s.vault.Holds c) (hlive : c.Live now) : ChainUp s now c :=
  h.chainUp_of_mem hnow s.issued h.issuedOk (List.Subset.refl _) c hc hlive (h.recorded c hc)

variable {t : CapId}

/-- Whoever is live has every capability it was created below live. -/
theorem VaultInv.below_live (h : VaultInv s) (hnow : s.now ≤ now) (hbelow : Below s t id) :
    ∀ c, s.vault.Holds c → c.id = id → c.Live now →
      ∃ d, s.vault.Holds d ∧ d.id = t ∧ d.Live now := by
  induction hbelow with
  | refl => exact fun c hc hid hlive => ⟨c, hc, hid, hlive⟩
  | tail _ hedge ih =>
    intro c hc hid hlive
    have hpar := h.issuedOk.functional (hid ▸ h.recorded c hc) hedge
    obtain ⟨p, hp, hpid, hplive, -⟩ := h.attenuated.later hnow c hc hlive _ hpar
    exact ih p hp hpid hplive

/-! ## What is revoked stays revoked -/

/-- `t` was issued, and the table holds it inactive or not at all. -/
def Gone (t : CapId) (s : VaultState) : Prop :=
  VaultInv s ∧ t ∈ s.ids ∧ ∀ d, s.vault.Holds d → d.id = t → d.active = false

/-- No call brings `t` back: `create` draws another id and nothing reactivates. -/
theorem gone_step (s : VaultState) (op : VaultOp) (s' : VaultState) (h : Gone t s)
    (hstep : Step s op s') : Gone t s' := by
  obtain ⟨hinv, hmem, hgone⟩ := h
  refine ⟨vaultInv_step s op s' hinv hstep, ?_⟩
  cases effect_of_step hstep with
  | prune _ hv =>
    refine ⟨hmem, fun d hd hid => ?_⟩
    obtain ⟨e, he, heid, -, -, hinact⟩ := hv.lowered.origin hd
    exact hinact (hgone e he (heid.trans hid))
  | issue _ hfresh =>
    refine ⟨mem_cons_of_mem _ hmem, ?_⟩
    rintro d ⟨i, hi⟩ hid
    rcases Vault.caps_issue hi with ⟨-, rfl⟩ | hi
    · exact absurd (hid ▸ hmem) hfresh
    · exact hgone d ⟨i, hi⟩ hid

/-- A call that revokes or releases `t` and returns `Ok`. -/
def Revokes (s : VaultState) (t : CapId) : VaultOp → Prop
  | .revoke revoker target => target = t ∧ ∃ v, s.vault.revoke revoker target = .ok v
  | .release id => id = t
  | _ => False

theorem gone_of_revokes (h : VaultInv s) (hmem : t ∈ s.ids)
    (hrev : Revokes s t op) (hstep : Step s op s') : Gone t s' := by
  refine ⟨vaultInv_step s op s' h hstep, ?_⟩
  obtain ⟨-, rfl⟩ := hstep
  cases op with
  | revoke revoker target =>
    obtain ⟨rfl, v, hok⟩ := hrev
    simp only [exec, hok]
    rw [Vault.revoke_ok hok]
    exact ⟨hmem, fun d hd hid => Vault.revokeRecursive_target hd hid⟩
  | release id =>
    obtain rfl : id = t := hrev
    exact ⟨hmem, fun d hd hid => Vault.revokeRecursive_target (Vault.holds_release.mp hd).1 hid⟩
  | create => exact hrev.elim
  | check => exact hrev.elim

/-! ## The vault's guarantee -/

/-- **Attenuation over whole runs.** Whatever `check` accepts has its whole
parent chain live in the table, each link with the rights and the lifetime of
its parent at most; and once `t` was revoked or released, `check` never again
accepts what was created below `t`, before or after. -/
theorem vault_attenuation {rootId : CapId} {ops : List VaultOp} {s : VaultState}
    (hrun : Run Step (init rootId) ops s) :
    (∀ now id required cap v, s.now ≤ now →
      s.vault.check now id required = .ok (cap, v) → ChainUp s now cap) ∧
    (∀ t op s₁ ops' s₂, t ∈ s.ids → Revokes s t op → Step s op s₁ → Run Step s₁ ops' s₂ →
      ∀ now id required cap v, s₂.now ≤ now → Below s₂ t id →
        s₂.vault.check now id required ≠ .ok (cap, v)) := by
  have hinv := vaultInv_run hrun
  constructor
  · intro now id required cap v hnow hok
    obtain ⟨hfind, hlive, -⟩ := Vault.check_ok hok
    exact hinv.chainUp hnow (Vault.find_some hfind).1 hlive
  · intro t op s₁ ops' s₂ hmem hrev hstep hrun' now id required cap v hnow hbelow hok
    obtain ⟨hinv₂, -, hgone⟩ := hrun'.invariant gone_step (gone_of_revokes hinv hmem hrev hstep)
    obtain ⟨hfind, hlive, -⟩ := Vault.check_ok hok
    obtain ⟨hc, hid⟩ := Vault.find_some hfind
    obtain ⟨d, hd, hdt, hdlive⟩ := hinv₂.below_live hnow hbelow cap hc hid hlive
    have := hgone d hd hdt
    rw [hdlive.1] at this
    cases this

/-- The root (1) delegates to 2 and 2 to 3: 3 passes `check` with its chain
live, and after 2 is released 3 never passes again. -/
theorem vault_attenuation_grandchild : let clock : CreateClock := ⟨0, fun _ => 0, 0⟩
    let rights := Rights.READ ||| Rights.DELEGATE
    let s := ((init 1).exec (.create clock 2 1 .execute rights none)).exec
      (.create clock 3 2 .execute rights none)
    (∃ cap v, s.vault.check 0 3 Rights.READ = .ok (cap, v) ∧ ChainUp s 0 cap) ∧
      ∀ now required cap v, (s.exec (.release 2)).vault.check now 3 required ≠ .ok (cap, v) := by
  intro clock rights s
  have hnow₁ : ((init 1).exec (.create clock 2 1 .execute rights none)).now = 0 := by
    decide +kernel
  have hnow : s.now = 0 := by decide +kernel
  have hrun : Run Step (init 1) [.create clock 2 1 .execute rights none,
      .create clock 3 2 .execute rights none] s :=
    .cons ⟨⟨.zero, by decide +kernel⟩, rfl⟩
      (.cons ⟨⟨by rw [hnow₁]; exact .zero, by decide +kernel⟩, rfl⟩ (.nil s))
  obtain ⟨hchain, hgone⟩ := vault_attenuation hrun
  constructor
  · have hok : (s.vault.check 0 3 Rights.READ).isOk = true := by decide +kernel
    cases hc : s.vault.check 0 3 Rights.READ with
    | error e => rw [hc] at hok; cases hok
    | ok r => exact ⟨r.1, r.2, rfl, hchain 0 3 _ r.1 r.2 (by rw [hnow]) hc⟩
  · intro now required cap v
    refine hgone 2 (.release 2) _ [] _ ?_ rfl ⟨trivial, rfl⟩ (.nil _) now 3 required cap v ?_ ?_
    · decide +kernel
    · exact hnow.trans_le (Nat.zero_le now)
    · exact .single (show (3, some 2) ∈ s.issued by decide +kernel)

end NopeekOS.Security
