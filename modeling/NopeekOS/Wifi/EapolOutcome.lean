import NopeekOS.Wifi.Eapol

/-!
# What one EAPOL frame can do

`Supplicant.onEapol` has a dozen ways out. `Outcome` lists what they come to: the frame
is dropped and only counters move, it is a message 1 and a key is derived, or it is
authenticated, as a group message under the key in use or as a message 3 under the derived
one. `onEapol_outcome` says every frame ends in one of these; the proofs about runs
read `Outcome` and never unfold the handlers.
-/

namespace NopeekOS.Wifi

open NopeekOS.Lib

namespace Supplicant

variable (crypto : Primitives) (s : Supplicant) (frame : Bytes) {a b c d : BitVec 32}

/-- The same state with other counters. -/
def counted (dropped repeated version long : BitVec 32) : Supplicant :=
  { s with replaysDropped := dropped, replaysRepeated := repeated, badKeyVersion := version,
           tooLong := long }

/-- An EAPOL-Key frame of a length we handle that wants an answer. -/
def wellFormed : Prop :=
  keyDataAt ≤ frame.length ∧ frame.length ≤ micBuf ∧ octet frame 1 = 0x03
    ∧ hasFlag frame kiAck = true

/-- The key version is ours and the replay counter not lower than the last. -/
def current : Prop :=
  keyInfo frame &&& kiTypeMask = 2
    ∧ (s.rxReplaySet = true → s.rxReplay ≤ replayCounter frame)

/-- A group message that verifies under the key in use. -/
def AcceptsGroup : Prop :=
  wellFormed frame ∧ hasFlag frame kiPairwise = false ∧ s.havePtk = true ∧ s.current frame
    ∧ verifyMic crypto s.ptk frame = true

/-- A message 3 that verifies under the key message 1 derived. -/
def AcceptsMsg3 : Prop :=
  wellFormed frame ∧ hasFlag frame kiPairwise = true ∧ hasFlag frame kiMic = true
    ∧ s.haveTptk = true ∧ s.current frame ∧ verifyMic crypto s.tptk frame = true

/-- The key a message 1 derives. -/
def derived : Ptk :=
  .ofBytes (crypto.wpa2Ptk s.pmk s.aa s.sa (field frame nonceAt 32) s.snonce)

/-- An authenticated message 3 before its key data is looked at. -/
def promoted : Supplicant :=
  { s with ptk := s.tptk, havePtk := true, rxReplay := replayCounter frame, rxReplaySet := true }

/-- The group key after a message 3: the one it carries, or without encrypted key data
the one that was there (eapol.rs:335). -/
def Msg3Gtk (id : Byte) (gtk : Bytes) : Prop :=
  hasFlag frame kiEncrypted = true ∧ Wifi.extractGtk crypto s.tptk frame = some (id, gtk)
    ∨ hasFlag frame kiEncrypted = false ∧ id = s.gtkId ∧ gtk = s.gtk

/-- What a frame did to the state, and the step it returned. -/
inductive Outcome : Supplicant → Step → Prop where
  | dropped {a b c d : BitVec 32} {step : Step}
      (hgroup : ¬ s.AcceptsGroup crypto frame) (hmsg3 : ¬ s.AcceptsMsg3 crypto frame)
      (hstep : step = .ignore ∨ step = .fail) : Outcome (s.counted a b c d) step
  | msg1 {out : Bytes}
      (hgroup : ¬ s.AcceptsGroup crypto frame) (hmsg3 : ¬ s.AcceptsMsg3 crypto frame) :
      Outcome { s with tptk := s.derived crypto frame, haveTptk := true } (.reply out)
  | groupBad {a b c d : BitVec 32} (hok : s.AcceptsGroup crypto frame)
      (hgtk : Wifi.extractGtk crypto s.ptk frame = none) :
      Outcome ((s.counted a b c d).rememberReplay frame) .fail
  | groupAgain {a b c d : BitVec 32} {id : Byte} {gtk out : Bytes}
      (hok : s.AcceptsGroup crypto frame)
      (hgtk : Wifi.extractGtk crypto s.ptk frame = some (id, gtk))
      (hin : s.installedGtk = some gtk) :
      Outcome { (s.counted a b c d).rememberReplay frame with gtkId := id, gtk := gtk }
        (.replyOnly out)
  | rekey {a b c d : BitVec 32} {id : Byte} {gtk out : Bytes}
      (hok : s.AcceptsGroup crypto frame)
      (hgtk : Wifi.extractGtk crypto s.ptk frame = some (id, gtk))
      (hnew : s.installedGtk ≠ some gtk) :
      Outcome { (s.counted a b c d).rememberReplay frame with
        gtkId := id, gtk := gtk, gtkRsc := keyRsc frame, installedGtk := some gtk } (.rekey out)
  | msg3Bad {a b c d : BitVec 32} (hok : s.AcceptsMsg3 crypto frame)
      (henc : hasFlag frame kiEncrypted = true)
      (hgtk : Wifi.extractGtk crypto s.tptk frame = none) :
      Outcome ((s.counted a b c d).promoted frame) .fail
  | msg3Again {a b c d : BitVec 32} {id : Byte} {gtk out : Bytes}
      (hok : s.AcceptsMsg3 crypto frame) (hgtk : s.Msg3Gtk crypto frame id gtk)
      (hin : s.installedTk = some s.tptk.tk) :
      Outcome { (s.counted a b c d).promoted frame with gtkId := id, gtk := gtk } (.replyOnly out)
  | done {a b c d : BitVec 32} {id : Byte} {gtk out : Bytes}
      (hok : s.AcceptsMsg3 crypto frame) (hgtk : s.Msg3Gtk crypto frame id gtk)
      (hnew : s.installedTk ≠ some s.tptk.tk) (hold : gtk = [] ∨ s.installedGtk = some gtk) :
      Outcome { (s.counted a b c d).promoted frame with
        gtkId := id, gtk := gtk, installedTk := some s.tptk.tk, renewSnonce := true,
        gtkFresh := false } (.done out)
  | doneGroup {a b c d : BitVec 32} {id : Byte} {gtk out : Bytes}
      (hok : s.AcceptsMsg3 crypto frame) (hgtk : s.Msg3Gtk crypto frame id gtk)
      (hnew : s.installedTk ≠ some s.tptk.tk)
      (hfresh : gtk ≠ [] ∧ s.installedGtk ≠ some gtk) :
      Outcome { (s.counted a b c d).promoted frame with
        gtkId := id, gtk := gtk, installedTk := some s.tptk.tk, renewSnonce := true,
        gtkFresh := true, gtkRsc := keyRsc frame, installedGtk := some gtk } (.done out)

/-! ## The checks -/

variable {crypto s frame}

@[simp] theorem counted_ptk (a b c d : BitVec 32) : (s.counted a b c d).ptk = s.ptk := rfl

@[simp] theorem counted_tptk (a b c d : BitVec 32) : (s.counted a b c d).tptk = s.tptk := rfl

@[simp] theorem rememberReplay_ptk : (s.rememberReplay frame).ptk = s.ptk := rfl

@[simp] theorem swapPtk_ptk : s.swapPtk.ptk = s.tptk := rfl

/-- The replay check moves counters only, and passes exactly the frames that are not lower. -/
theorem replayOk_eq : ∃ a b c d ok, s.replayOk frame = (s.counted a b c d, ok)
    ∧ (ok = true ↔ (s.rxReplaySet = true → s.rxReplay ≤ replayCounter frame)) := by
  unfold replayOk
  split
  · next hset => exact ⟨_, _, _, _, true, rfl, by simp at hset; simp [hset]⟩
  next hset =>
  have hset : s.rxReplaySet = true := by simpa using hset
  split
  · next hlt => exact ⟨_, _, _, _, false, rfl, by simp [hset]; omega⟩
  next hlt =>
  split
  · next heq => exact ⟨_, _, _, _, true, rfl, by simp; omega⟩
  · next hne => exact ⟨_, _, _, _, true, rfl, by simp; omega⟩

/-- Both checks before the MIC: they move counters only, and pass what is current. -/
theorem checks_eq (s : Supplicant) (frame : Bytes) :
    (∃ a b c d, s.keyVersionOk frame = (s.counted a b c d, false) ∧ ¬ s.current frame)
    ∨ s.keyVersionOk frame = (s, true) ∧ ∃ a b c d ok,
      s.replayOk frame = (s.counted a b c d, ok) ∧ (ok = true ↔ s.current frame) := by
  by_cases hver : keyInfo frame &&& kiTypeMask = 2
  · obtain ⟨a, b, c, d, ok, hreplay, hok⟩ := @replayOk_eq s frame
    exact .inr ⟨if_pos hver, a, b, c, d, ok, hreplay, hok.trans (and_iff_right hver).symm⟩
  · exact .inl ⟨_, _, _, _, if_neg hver, fun h => hver h.1⟩

/-! ## The handlers -/

theorem onGroup_outcome (hwf : wellFormed frame) (hpair : hasFlag frame kiPairwise = false)
    (hptk : s.havePtk = true) :
    Outcome crypto s frame (s.onGroup crypto frame).1 (s.onGroup crypto frame).2 := by
  have hmsg3 : ¬ s.AcceptsMsg3 crypto frame := fun h => by simp [h.2.1] at hpair
  unfold onGroup
  obtain ⟨a, b, c, d, hkv, hno⟩ | ⟨hkv, a, b, c, d, ok, hreplay, hok⟩ := s.checks_eq frame
  · simp only [hkv, Bool.not_false, if_true]
    exact .dropped (fun h => hno h.2.2.2.1) hmsg3 (.inl rfl)
  simp only [hkv, hreplay]
  cases ok with
  | false => exact .dropped (fun h => Bool.noConfusion (hok.mpr h.2.2.2.1)) hmsg3 (.inl rfl)
  | true =>
    cases hmic : verifyMic crypto s.ptk frame with
    | false =>
      simp only [counted_ptk, hmic, Bool.not_false, Bool.not_true, if_true, Bool.false_eq_true,
        if_false]
      exact .dropped (fun h => by simp [h.2.2.2.2] at hmic) hmsg3 (.inr rfl)
    | true =>
      have haccept : s.AcceptsGroup crypto frame := ⟨hwf, hpair, hptk, hok.mp rfl, hmic⟩
      simp only [counted_ptk, hmic, Bool.not_true, Bool.false_eq_true, if_false]
      cases hgtk : Wifi.extractGtk crypto s.ptk frame with
      | none =>
        simp only [extractGtk, rememberReplay_ptk, counted_ptk, hgtk, Bool.not_false, if_true]
        exact .groupBad haccept hgtk
      | some g =>
        obtain ⟨id, gtk⟩ := g
        simp only [extractGtk, rememberReplay_ptk, counted_ptk, hgtk, Bool.not_true,
          Bool.false_eq_true, if_false]
        split
        · next hin =>
          have hin' : (s.installedGtk == some gtk) = true := hin
          exact .groupAgain haccept hgtk (beq_iff_eq.mp hin')
        · next hnew =>
          have hnew' : ¬ (s.installedGtk == some gtk) = true := hnew
          exact .rekey haccept hgtk fun h => hnew' (beq_iff_eq.mpr h)

/-- The end of message 3, from the state `x` its key data left. -/
theorem install_outcome {id : Byte} {gtk : Bytes} {x : Supplicant}
    (hok : s.AcceptsMsg3 crypto frame) (hgtk : s.Msg3Gtk crypto frame id gtk)
    (hx : x = { (s.counted a b c d).promoted frame with gtkId := id, gtk := gtk }) :
    Outcome crypto s frame (x.install crypto frame).1 (x.install crypto frame).2 := by
  unfold install gtkIsInstalled
  have hin : x.installedTk = s.installedTk ∧ x.ptk = s.tptk := hx ▸ ⟨rfl, rfl⟩
  have hnow : x.gtk = gtk ∧ x.installedGtk = s.installedGtk := hx ▸ ⟨rfl, rfl⟩
  simp only [hin, hnow]
  split
  · next htk => exact hx ▸ .msg3Again hok hgtk htk
  next htk =>
  split
  · next hfresh =>
    rw [hfresh]
    simp only [Bool.and_eq_true, decide_eq_true_eq, List.length_pos_iff, Bool.not_eq_true',
      beq_eq_false_iff_ne] at hfresh
    exact hx ▸ .doneGroup hok hgtk htk hfresh
  · next hold =>
    rw [Bool.not_eq_true] at hold
    rw [hold]
    simp only [Bool.and_eq_false_iff, decide_eq_false_iff_not, List.length_pos_iff, not_not,
      Bool.not_eq_false', beq_iff_eq] at hold
    subst hx
    exact .done (a := a) (b := b) (c := c) (d := d) hok hgtk htk hold

theorem onMsg3_outcome (hwf : wellFormed frame) (hpair : hasFlag frame kiPairwise = true)
    (hmicFlag : hasFlag frame kiMic = true) (htptk : s.haveTptk = true) :
    Outcome crypto s frame (s.onMsg3 crypto frame).1 (s.onMsg3 crypto frame).2 := by
  have hgroup : ¬ s.AcceptsGroup crypto frame := fun h => by simp [h.2.1] at hpair
  unfold onMsg3
  obtain ⟨a, b, c, d, hkv, hno⟩ | ⟨hkv, a, b, c, d, ok, hreplay, hok⟩ := s.checks_eq frame
  · simp only [hkv, Bool.not_false, if_true]
    exact .dropped hgroup (fun h => hno h.2.2.2.2.1) (.inl rfl)
  simp only [hkv, hreplay]
  cases ok with
  | false => exact .dropped hgroup (fun h => Bool.noConfusion (hok.mpr h.2.2.2.2.1)) (.inl rfl)
  | true =>
    cases hmic : verifyMic crypto s.tptk frame with
    | false =>
      -- swapped in for the check and swapped back
      simp only [swapPtk_ptk, counted_tptk, hmic, Bool.not_false, Bool.not_true, if_true,
        Bool.false_eq_true, if_false]
      exact .dropped hgroup (fun h => by simp [h.2.2.2.2.2] at hmic) (.inr rfl)
    | true =>
      have haccept : s.AcceptsMsg3 crypto frame :=
        ⟨hwf, hpair, hmicFlag, htptk, hok.mp rfl, hmic⟩
      have hmic' : verifyMic crypto (s.counted a b c d).swapPtk.ptk frame = true := hmic
      simp only [hmic', Bool.not_true, Bool.false_eq_true, if_false]
      cases henc : hasFlag frame kiEncrypted with
      | false => exact install_outcome haccept (.inr ⟨henc, rfl, rfl⟩) rfl
      | true =>
        simp only [if_true, extractGtk]
        cases hgtk : Wifi.extractGtk crypto s.tptk frame with
        | none =>
          have hgtk' : Wifi.extractGtk crypto (s.counted a b c d).swapPtk.ptk frame = none := hgtk
          simp only [rememberReplay, hgtk', Bool.not_false, if_true]
          exact .msg3Bad haccept henc hgtk
        | some g =>
          have hgtk' : Wifi.extractGtk crypto (s.counted a b c d).swapPtk.ptk frame = some g := hgtk
          simp only [rememberReplay, hgtk', Bool.not_true, Bool.false_eq_true, if_false]
          exact install_outcome haccept (.inl ⟨henc, hgtk⟩) rfl

/-- A frame of another kind is dropped. -/
theorem Outcome.malformed (h : ¬ wellFormed frame) :
    Outcome crypto s frame (s.counted a b c d) .ignore :=
  .dropped (fun hg => h hg.1) (fun hm => h hm.1) (.inl rfl)

/-- **Every frame ends in one of the outcomes.** -/
theorem onEapol_outcome :
    Outcome crypto s frame (s.onEapol crypto frame).1 (s.onEapol crypto frame).2 := by
  unfold onEapol
  by_cases hkind : frame.length < keyDataAt ∨ octet frame 1 ≠ 0x03
  · rw [if_pos hkind]
    exact .malformed fun hwf => hkind.elim (fun h => by have := hwf.1; omega) fun h => h hwf.2.2.1
  rw [if_neg hkind]
  push Not at hkind
  by_cases hlong : frame.length > micBuf
  · rw [if_pos hlong]
    exact .malformed fun hwf => by have := hwf.2.1; omega
  rw [if_neg hlong]
  cases hack : hasFlag frame kiAck with
  | false => exact .malformed fun hwf => by simp [hwf.2.2.2] at hack
  | true =>
    have hwf : wellFormed frame := ⟨by omega, by omega, hkind.2, hack⟩
    cases hpair : hasFlag frame kiPairwise with
    | false =>
      cases hptk : s.havePtk with
      | false =>
        exact .dropped (fun h => by simp [h.2.2.1] at hptk) (fun h => by simp [h.2.1] at hpair)
          (.inl rfl)
      | true => exact onGroup_outcome hwf hpair hptk
    | true =>
      have hgroup : ¬ s.AcceptsGroup crypto frame := fun h => by simp [h.2.1] at hpair
      cases hmic : hasFlag frame kiMic with
      | false => exact .msg1 hgroup fun h => by simp [h.2.2.1] at hmic
      | true =>
        cases htptk : s.haveTptk with
        | false => exact .dropped hgroup (fun h => by simp [h.2.2.2.1] at htptk) (.inr rfl)
        | true => exact onMsg3_outcome hwf hpair hmic htptk

end Supplicant

end NopeekOS.Wifi
