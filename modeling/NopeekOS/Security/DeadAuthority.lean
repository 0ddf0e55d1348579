import NopeekOS.Security.Attenuation

/-!
# What a dead capability still authorises

A capability that is absent, revoked or expired is *dead*. Three calls take a
capability as the authority they act under: `create` (as the parent), `revoke`
(as the revoker) and `check`. Each looks it up on its own. `create` and `check`
test presence, `active` and the expiry; `revoke` tests presence and the REVOKE
right only.

So a dead capability that is still in the table with the REVOKE right revokes
whatever it names, the root included; every other dead capability is refused
everywhere (`dead_refused_iff`).
-/

namespace NopeekOS.Security

open Lib

namespace Vault

/-- `id` is absent, revoked or expired at `now`. -/
def Dead (v : Vault) (now : Nat) (id : CapId) : Prop :=
  ∀ c, v.find id = some c → ¬ c.Live now

/-- `revoke` succeeds iff the revoker is in the table with the REVOKE right. -/
theorem revoke_isOk_iff {v : Vault} {revoker target : CapId} :
    (∃ v', v.revoke revoker target = .ok v') ↔
      ∃ c, v.find revoker = some c ∧ c.rights.contains Rights.REVOKE = true := by
  unfold revoke
  cases hf : v.find revoker with
  | none => simp
  | some c =>
    cases hr : c.rights.contains Rights.REVOKE with
    | false => simp [hr]
    | true => simp [hr]

end Vault

namespace VaultState

/-- The call acts under the authority of `c`. -/
def AuthorisedBy (c : CapId) : VaultOp → Prop
  | .create _ _ parent _ _ _ => parent = c
  | .revoke revoker _ => revoker = c
  | .check _ id _ => id = c
  | .release _ => False

/-- The call returns an error. -/
def Fails (s : VaultState) : VaultOp → Prop
  | .create clock id parent resource rights ttlTicks =>
    ∃ e, s.vault.create s.rootCap clock id parent resource rights ttlTicks = .error e
  | .revoke revoker target => ∃ e, s.vault.revoke revoker target = .error e
  | .check now id required => ∃ e, s.vault.check now id required = .error e
  | .release _ => False

/-- Every call under the authority of `c`, at ticks from `now` on, returns an error
and leaves the vault as it is. -/
def NoAuthority (s : VaultState) (now : Nat) (c : CapId) : Prop :=
  ∀ op, AuthorisedBy c op → Legal { s with now := now } op →
    s.Fails op ∧ (s.exec op).vault = s.vault

/-- A call that returns an error leaves the vault as it is. -/
theorem Fails.vault_eq {s : VaultState} {op : VaultOp} (h : s.Fails op) :
    (s.exec op).vault = s.vault := by
  cases op with
  | create | revoke | check =>
    obtain ⟨e, he⟩ := h
    simp only [exec, he]
  | release id => exact h.elim

theorem error_of_not_ok {ε α : Type} {x : Except ε α} (h : ∀ r, x ≠ .ok r) : ∃ e, x = .error e := by
  cases x with
  | error e => exact ⟨e, rfl⟩
  | ok r => exact absurd rfl (h r)

/-- **A dead capability authorises nothing iff it is not one that `revoke` still
honours**: in every state of the vault, a capability that is absent, revoked or
expired is refused by every entry point exactly when it is absent or has no REVOKE
right. -/
theorem dead_refused_iff (s : VaultState) (now : Nat) (c : CapId)
    (hdead : s.vault.Dead now c) :
    s.NoAuthority now c ↔
      ∀ cap, s.vault.find c = some cap → cap.rights.contains Rights.REVOKE = false := by
  constructor
  · intro h cap hcap
    obtain ⟨⟨e, he⟩, -⟩ := h (.revoke c c) rfl trivial
    by_contra hrights
    have hrevokes : ∃ v', s.vault.revoke c c = .ok v' :=
      Vault.revoke_isOk_iff.mpr ⟨cap, hcap, by simpa using hrights⟩
    obtain ⟨v', hok⟩ := hrevokes
    rw [he] at hok
    cases hok
  · intro hnone op hauth hlegal
    suffices hfails : s.Fails op from ⟨hfails, hfails.vault_eq⟩
    cases op with
    | create clock id parent resource rights ttlTicks =>
      cases hauth
      refine error_of_not_ok fun r hok => ?_
      obtain ⟨p, -, -, hp, hlive, -⟩ := Vault.create_ok hlegal.1.2.2.2 hok
      exact hdead p hp (hlive.anti hlegal.1.1)
    | revoke revoker target =>
      cases hauth
      refine error_of_not_ok fun v' hok => ?_
      obtain ⟨cap, hcap, hrights⟩ := Vault.revoke_isOk_iff.mp ⟨v', hok⟩
      rw [hnone cap hcap] at hrights
      cases hrights
    | check tick id required =>
      cases hauth
      refine error_of_not_ok fun r hok => ?_
      obtain ⟨hfind, hlive, -⟩ := Vault.check_ok hok
      exact hdead r.1 hfind (hlive.anti hlegal)
    | release id => exact hauth.elim

/-- The root (1) delegates READ to 2 and revokes 2: nothing goes through 2 again. -/
theorem dead_refused_revoked : let clock : CreateClock := ⟨0, fun _ => 0, 0⟩
    let s := ((init 1).exec (.create clock 2 1 .execute Rights.READ none)).exec (.revoke 1 2)
    (s.vault.find 2).isSome = true ∧ s.NoAuthority 0 2 := by
  intro clock s
  have hfind : (s.vault.find 2).all (fun c => !c.active && !c.rights.contains Rights.REVOKE)
      = true := by decide +kernel
  have hcap : ∀ cap, s.vault.find 2 = some cap →
      cap.active = false ∧ cap.rights.contains Rights.REVOKE = false := by
    intro cap hcap
    rw [hcap] at hfind
    simpa using hfind
  refine ⟨by decide +kernel, (dead_refused_iff s 0 2 fun cap h hlive => ?_).mpr fun cap h => ?_⟩
  · have hactive := (hcap cap h).1
    rw [hlive.1] at hactive
    cases hactive
  · exact (hcap cap h).2

/-- The root (1) delegates all its rights to 2 and revokes 2. The dead 2 then
revokes the root. -/
theorem dead_revokes_root : let clock : CreateClock := ⟨0, fun _ => 0, 0⟩
    let s := ((init 1).exec (.create clock 2 1 .execute Rights.ALL none)).exec (.revoke 1 2)
    Run Step (init 1) [.create clock 2 1 .execute Rights.ALL none, .revoke 1 2] s ∧
      s.vault.Dead s.now 2 ∧ ¬ s.NoAuthority s.now 2 ∧
      ∃ v cap, s.vault.revoke 2 1 = .ok v ∧ v.find 1 = some cap ∧ cap.active = false := by
  intro clock s
  have hdead : (s.vault.find 2).any (fun c => !c.active && c.rights.contains Rights.REVOKE)
      = true := by decide +kernel
  have hroot : ((s.vault.revoke 2 1).toOption.bind fun v => v.find 1).any (fun c => !c.active)
      = true := by decide +kernel
  obtain ⟨cap, hcap, hoff⟩ := (Option.any_eq_true _ _).mp hroot
  obtain ⟨v, hv, hfind⟩ := Option.bind_eq_some_iff.mp hcap
  have hok : s.vault.revoke 2 1 = .ok v := by
    rcases hr : s.vault.revoke 2 1 with e | v' <;> rw [hr] at hv <;> cases hv
    rfl
  refine ⟨.cons ⟨⟨.zero, by decide +kernel⟩, rfl⟩ (.cons ⟨trivial, rfl⟩ (.nil s)), ?_, ?_,
    v, cap, hok, hfind, by simpa using hoff⟩
  · intro cap hcap hlive
    rw [hcap] at hdead
    simp [hlive.1] at hdead
  · intro hno
    obtain ⟨⟨e, he⟩, -⟩ := hno (.revoke 2 1) rfl trivial
    rw [hok] at he
    cases he

end VaultState

end NopeekOS.Security
