import NopeekOS.Security.Keyvault
import NopeekOS.Lib.ReadModifyWrite

/-!
# Keyvault calls from several cores

Nothing in `security/keyvault.rs` or in its callers (`wasm/host_core.rs`:2607-2733,
`drivers/wifi.rs`:262-366) holds a lock from the load of the object to its save. Here each load and
each save is one step, and none fails. Calls that overlap lose updates; calls that do not leave the
object as `Vault.call` does, one after another.
-/

namespace NopeekOS.Keyvault

open Lib Lib.Rmw

variable {C : Crypto} (subkey : C.Key)

/-- A call of one core: what it meets, and the key that it finds in `USER_SESSION`. -/
structure Request (C : Crypto) where
  call : Call
  env : Env C
  session : Option C.Key
  read : env.read = true
  write : env.write = .stored

namespace Request

variable (r : Request C)

/-- The vault that a call saves, given the one it loaded. -/
def change (v : VaultFile) : Option VaultFile :=
  match r.call with
  | .setPassphrase old new =>
    if !r.env.unlocked then none else v.setPassphrase r.env subkey old new
  | .userSet name value => do
    let dek ← r.session
    v.set r.env dek TIER_USER name value
  | .userDelete name => if r.session.isNone then none else some (v.delete TIER_USER name)
  | .systemSet name value =>
    if !r.env.unlocked then none
    else do
      let dek ← C.unlockDevice v.sysDevice subkey
      v.set r.env dek TIER_SYSTEM name value
  | .systemDelete name => some (v.delete TIER_SYSTEM name)
  | _ => none

def writes (o : Option Bytes) : Option (Option (Option Bytes)) :=
  (o.bind VaultFile.parse).map fun v => (r.change subkey v).map fun v => some v.serialize

/-- The object behind the call when nothing else runs. -/
def run (o : Option Bytes) : Option Bytes :=
  ((⟨o, r.session⟩ : Vault C).call subkey r.env r.call).2.object

theorem run_eq {o : Option Bytes} {w : Option (Option Bytes)} (h : r.writes subkey o = some w) :
    r.run subkey o = w.getD o := by
  obtain ⟨v, hparse, rfl⟩ := Option.map_eq_some_iff.mp h
  have hload : (⟨o, r.session⟩ : Vault C).load r.env = some v := (if_pos r.read).trans hparse
  have hensure : (⟨o, r.session⟩ : Vault C).ensure subkey r.env = (some v, ⟨o, r.session⟩) := by
    unfold Vault.ensure
    rw [hload]
  unfold run change
  cases r.call with
  | init => simp [Vault.call, hensure]
  | setPassphrase old new =>
    simp only [Vault.call, Vault.setPassphrase, hensure, Option.bind_some]
    cases r.env.unlocked
    · rfl
    · cases v.setPassphrase r.env subkey old new with
      | none => rfl
      | some v =>
        simp only [Vault.save, r.write]
        cases C.unlock (r.env.draw 4) v.usrPass new <;> rfl
  | userSet name value =>
    simp only [Vault.call, Vault.userSet, hload, Option.bind_eq_bind, Option.bind_some]
    cases r.session.bind fun dek => v.set r.env dek TIER_USER name value with
    | none => rfl
    | some v => simp [Vault.save, r.write]
  | userDelete name =>
    simp only [Vault.call, Vault.userDelete, hload]
    cases r.session
    · rfl
    · simp [Vault.save, r.write]
  | systemSet name value =>
    simp only [Vault.call, Vault.systemSet, hensure, Option.bind_eq_bind, Option.bind_some]
    cases r.env.unlocked
    · rfl
    · cases (C.unlockDevice v.sysDevice subkey).bind fun dek =>
        v.set r.env dek TIER_SYSTEM name value with
      | none => rfl
      | some v => simp [Vault.save, r.write]
  | systemDelete name => simp [Vault.call, Vault.systemDelete, hload, Vault.save, r.write]
  | unlockUser pass =>
    simp only [Vault.call, Vault.unlockUser]
    split <;> rfl
  | _ => rfl

end Request

/-- **Calls that do not overlap lose no update**: where no call takes a step while another is
between its load and its save, the object is what the calls leave one after another. -/
theorem object_serial {ι : Type} [DecidableEq ι] [Nonempty ι] (calls : ι → Request C)
    {o : Option Bytes} {s : State ι (Option Bytes)} {ls : List ι}
    (hrun : Run (fun s i s' => Step (fun i => (calls i).writes subkey) s i s' ∧ s.Alone i)
      (.start o) ls s) (hdone : s.Done) :
    ∃ order : List ι, order.Nodup ∧ (∀ i, i ∈ order) ∧
      s.object = order.foldl (fun o i => (calls i).run subkey o) o := by
  obtain ⟨hnodup, hobj⟩ := serial_of_alone (fun _ i _ h => (calls i).run_eq subkey h) hrun hdone
  exact ⟨s.loaded, hnodup, fun i => (hdone i).1, hobj⟩

/-- A cipher that hides nothing. -/
def plain : Crypto where
  Key := Unit
  encrypt _ _ _ p := p ++ List.replicate 16 0
  decrypt _ _ _ ct := some (ct.take (ct.length - 16))
  createDevice _ _ _ := none
  unlockDevice _ _ := none
  create _ _ _ := none
  unlock _ _ _ := none

/-- Two credentials, each deleted by one core. -/
def pair : VaultFile :=
  let slot := List.replicate SLOT_BYTES 0
  let nonce := List.replicate 12 0
  ⟨slot, slot, slot, [⟨TIER_SYSTEM, "a", nonce, []⟩, ⟨TIER_SYSTEM, "b", nonce, []⟩]⟩

def forget (i : Bool) : Request plain where
  call := .systemDelete (if i then "a" else "b")
  env := ⟨true, .stored, .stored, true, id, (), (), List.replicate 12 0⟩
  session := none
  read := rfl
  write := rfl

theorem forget_true : (forget true).writes () (some pair.serialize) =
    some (some (some (pair.delete TIER_SYSTEM "a").serialize)) := by decide +kernel

theorem object_serial_forget : ∃ order : List Bool, order.Nodup ∧ (∀ i, i ∈ order) ∧
    some { pair with entries := [] }.serialize =
      order.foldl (fun o i => (forget i).run () o) (some pair.serialize) := by
  have hb : (forget false).writes () (some (pair.delete TIER_SYSTEM "a").serialize) =
      some (some (some { pair with entries := [] }.serialize)) := by decide +kernel
  obtain ⟨s, hrun, hdone, hobj⟩ := @apart _ (fun i => (forget i).writes ()) _ _ _ forget_true hb
  rw [← hobj]
  exact object_serial () forget hrun hdone

/-- Both cores load before either saves: the credential that the first one deleted is back, as in
no order of the two calls. -/
theorem overlapping_deletes_lose : ∃ s : State Bool (Option Bytes),
    Run (Step fun i => (forget i).writes ()) (.start (some pair.serialize))
      [true, false, true, false] s ∧ s.Done ∧
    ¬ ∃ order : List Bool, order.Nodup ∧ (∀ i, i ∈ order) ∧
      s.object = order.foldl (fun o i => (forget i).run () o) (some pair.serialize) := by
  have hb : (forget false).writes () (some pair.serialize) =
      some (some (some (pair.delete TIER_SYSTEM "b").serialize)) := by decide +kernel
  have hlost : ∀ i j : Bool, [i, j].Nodup → some (pair.delete TIER_SYSTEM "b").serialize ≠
      [i, j].foldl (fun o i => (forget i).run () o) (some pair.serialize) := by decide +kernel
  obtain ⟨s, hrun, hdone, hobj⟩ := @overlap _ (fun i => (forget i).writes ()) _ _ _ forget_true hb
  refine ⟨s, hrun, hdone, fun ⟨order, hnd, hall, h⟩ => ?_⟩
  have hperm : order.Perm [true, false] :=
    (List.perm_ext_iff_of_nodup hnd (by decide)).mpr fun i => by cases i <;> simp [hall]
  obtain ⟨i, j, rfl⟩ := List.length_eq_two.mp hperm.length_eq
  exact hlost i j hnd (hobj ▸ h)

end NopeekOS.Keyvault
