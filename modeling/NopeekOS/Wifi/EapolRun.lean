import NopeekOS.Lib.Run
import NopeekOS.Wifi.EapolOutcome

/-!
# Which keys a supplicant hands out

A run of the supplicant on one association: the frames arrive in any order and any
number of times, forged ones among them, and the caller sets a new SNonce whenever one
is due (wasm/src/lib.rs:764). `Conn` keeps what happened as a log of entries.

Two assumptions are the access point's side. `AccessPoint` is what it ever produced, each
frame with the pairwise key it was made under and all replay counters increasing; a
frame whose MIC verifies under a key we hold was produced under that key
(`Admissible`). `DistinctKeys` is the key derivation: different SNonces give
different temporal keys.

**`keys_handed_out`** is the result. A temporal key is handed out once, and a frame that
is not authenticated changes no key, in every run. A group key is handed out as it
should be exactly when it is not the left-over of a repeated message 3: such a message
stores its group key without handing it out (eapol.rs:335, 339), and a later message 3
without encrypted key data hands that one out with its own receive counter.
-/

namespace NopeekOS.Wifi

open NopeekOS.Lib List
open List (replicate)

/-! ## Runs -/

/-- One frame that went through: the state it met, and what came of it. -/
structure Entry where
  before : Supplicant
  frame : Bytes
  step : Step
  after : Supplicant
deriving DecidableEq

/-- A frame that arrives, and 32 random octets the caller would have. -/
structure Delivery where
  frame : Bytes
  random : Bytes

/-- The supplicant with its history: the SNonces it used, and the frames it took. -/
structure Conn where
  sup : Supplicant
  snonces : List Bytes
  log : List Entry

/-- What the access point produced: frames with the pairwise key they were made under. -/
structure AccessPoint where
  produced : List (Bytes × Ptk)
  increasing : produced.Pairwise fun a b => replayCounter a.1 < replayCounter b.1

namespace Conn

/-- The connection a `Supplicant::new` starts. -/
def start (pmk aa sa snonce rsnIe : Bytes) : Conn where
  sup := .new pmk aa sa snonce rsnIe
  snonces := [snonce]
  log := []

/-- A new SNonce where one is due (wasm/src/lib.rs:776). -/
def renew (c : Conn) (random : Bytes) : Conn :=
  if c.sup.needsSnonce then
    { c with sup := c.sup.setSnonce random, snonces := c.snonces ++ [random] }
  else c

/-- Hand the frame in (wasm/src/lib.rs:785). -/
def take (crypto : Primitives) (c : Conn) (frame : Bytes) : Conn :=
  { c with
    sup := (c.sup.onEapol crypto frame).1
    log := c.log
      ++ [⟨c.sup, frame, (c.sup.onEapol crypto frame).2, (c.sup.onEapol crypto frame).1⟩] }

/-- One delivery (wasm/src/lib.rs:764). -/
def receive (crypto : Primitives) (c : Conn) (d : Delivery) : Conn :=
  (c.renew d.random).take crypto d.frame

/-- What a delivery must meet: a due SNonce was never used, and a frame that verifies under
a key we hold was produced by the access point under that key. -/
structure Admissible (crypto : Primitives) (ap : AccessPoint) (c : Conn) (d : Delivery) : Prop where
  fresh : c.sup.needsSnonce = true → d.random ∉ c.snonces
  inUse : c.sup.havePtk = true → verifyMic crypto c.sup.ptk d.frame = true →
    (d.frame, c.sup.ptk) ∈ ap.produced
  derived : c.sup.haveTptk = true → verifyMic crypto c.sup.tptk d.frame = true →
    (d.frame, c.sup.tptk) ∈ ap.produced

def Received (crypto : Primitives) (ap : AccessPoint) (c : Conn) (d : Delivery) (c' : Conn) :
    Prop :=
  Admissible crypto ap c d ∧ c' = c.receive crypto d

end Conn

/-- The temporal key for an ANonce and an SNonce. -/
def tkOf (crypto : Primitives) (pmk aa sa anonce snonce : Bytes) : Bytes :=
  (Ptk.ofBytes (crypto.wpa2Ptk pmk aa sa anonce snonce)).tk

/-- Different SNonces among these give different temporal keys. -/
def DistinctKeys (crypto : Primitives) (pmk aa sa : Bytes) (snonces : List Bytes) : Prop :=
  ∀ S ∈ snonces, ∀ S' ∈ snonces, S ≠ S' → ∀ A A' : Bytes,
    tkOf crypto pmk aa sa A S ≠ tkOf crypto pmk aa sa A' S'

/-! ## What is handed out -/

namespace Entry

/-- The temporal key handed out for installation. -/
def handedTk (e : Entry) : Option Bytes :=
  match e.step with
  | .done _ => some e.after.ptk.tk
  | _ => none

/-- The group key handed out for installation. -/
def handedGtk (e : Entry) : Option Bytes :=
  match e.step with
  | .rekey _ => some e.after.gtk
  | .done _ => if e.after.gtkFresh then some e.after.gtk else none
  | _ => none

/-- The frame's MIC verified and it was taken. -/
def Authentic (crypto : Primitives) (e : Entry) : Prop :=
  e.before.AcceptsGroup crypto e.frame ∨ e.before.AcceptsMsg3 crypto e.frame

/-- The group key the frame carries, under the key that authenticated it. A message 3
without encrypted key data carries none. -/
def carried (crypto : Primitives) (e : Entry) : Option Bytes :=
  if hasFlag e.frame kiPairwise && !hasFlag e.frame kiEncrypted then none
  else (extractGtk crypto e.after.ptk e.frame).map Prod.snd

/-- The entry came from the supplicant. -/
def Ok (crypto : Primitives) (e : Entry) : Prop :=
  Supplicant.Outcome crypto e.before e.frame e.after e.step

end Entry

/-- The last entry of a log that handed out a group key. -/
def lastHanded (log : List Entry) : Option Entry :=
  (log.filter fun e => e.handedGtk.isSome).getLast?

/-- A group key handed out differs from the last one, comes from a newer frame, is carried by
that frame, and goes with that frame's receive counter. -/
def GroupKeyOk (crypto : Primitives) (log : List Entry) (e : Entry) : Prop :=
  ∀ gtk, e.handedGtk = some gtk → (∀ e₀, lastHanded log = some e₀ →
      e₀.handedGtk ≠ some gtk ∧ replayCounter e₀.frame < replayCounter e.frame)
    ∧ e.carried crypto = some gtk ∧ e.after.gtkRsc = keyRsc e.frame

/-- A message 3 completes a handshake without carrying a group key, while one that was never
handed out is left in the state. -/
def Supplicant.LeftOver (crypto : Primitives) (s : Supplicant) (frame : Bytes) : Prop :=
  s.AcceptsMsg3 crypto frame ∧ hasFlag frame kiEncrypted = false
    ∧ s.installedTk ≠ some s.tptk.tk ∧ s.gtk ≠ [] ∧ s.installedGtk ≠ some s.gtk

/-- What an entry leaves alone when its frame is not authenticated. -/
def Entry.KeysKept (e : Entry) : Prop :=
  e.after.ptk = e.before.ptk ∧ e.after.havePtk = e.before.havePtk
    ∧ e.after.installedTk = e.before.installedTk ∧ e.after.installedGtk = e.before.installedGtk
    ∧ e.after.gtk = e.before.gtk ∧ e.after.gtkId = e.before.gtkId
    ∧ e.after.gtkRsc = e.before.gtkRsc ∧ e.handedTk = none ∧ e.handedGtk = none

/-! ## One entry -/

section Entries

variable {crypto : Primitives} {e : Entry}

theorem Supplicant.AcceptsMsg3.not_group {s : Supplicant} {frame : Bytes}
    (h : s.AcceptsMsg3 crypto frame) : ¬ s.AcceptsGroup crypto frame := fun hg => by
  have := h.2.1
  rw [hg.2.1] at this
  exact Bool.noConfusion this

section

variable {before after : Supplicant} {frame : Bytes} {step : Step}

theorem Entry.carried_some {id : Byte} {gtk : Bytes}
    (hkind : hasFlag frame kiPairwise = false ∨ hasFlag frame kiEncrypted = true)
    (hex : extractGtk crypto after.ptk frame = some (id, gtk)) :
    Entry.carried crypto ⟨before, frame, step, after⟩ = some gtk := by
  rcases hkind with h | h <;> simp [Entry.carried, h, hex]

theorem Entry.carried_bare (hpair : hasFlag frame kiPairwise = true)
    (henc : hasFlag frame kiEncrypted = false) :
    Entry.carried crypto ⟨before, frame, step, after⟩ = none := by
  simp [Entry.carried, hpair, henc]

end

section

variable (h : e.Ok crypto)

include h

/-- A frame that is not authenticated changes no key and no counter. -/
theorem Entry.Ok.kept (hno : ¬ e.Authentic crypto) : e.KeysKept ∧
    e.after.rxReplay = e.before.rxReplay ∧ e.after.rxReplaySet = e.before.rxReplaySet := by
  cases e
  dsimp only [Entry.Ok] at h
  cases h with
  | dropped _ _ hstep =>
    refine ⟨?_, rfl, rfl⟩
    rcases hstep with rfl | rfl <;> exact ⟨rfl, rfl, rfl, rfl, rfl, rfl, rfl, rfl, rfl⟩
  | msg1 => exact ⟨⟨rfl, rfl, rfl, rfl, rfl, rfl, rfl, rfl, rfl⟩, rfl, rfl⟩
  | groupBad hok | groupAgain hok | rekey hok => exact absurd (.inl hok) hno
  | msg3Bad hok | msg3Again hok | done hok | doneGroup hok => exact absurd (.inr hok) hno

/-- What hands out a key is authentic. -/
theorem Entry.Ok.authentic (hhanded : e.handedTk.isSome = true ∨ e.handedGtk.isSome = true) :
    e.Authentic crypto := by
  by_contra hno
  have hkept := (h.kept hno).1
  rw [hkept.2.2.2.2.2.2.2.1, hkept.2.2.2.2.2.2.2.2] at hhanded
  simp at hhanded

/-- An authentic frame is not older than the last one taken, and becomes the last one; the key
that authenticated it is the key in use after it. -/
theorem Entry.Ok.accepted (hauth : e.Authentic crypto) :
    (e.before.rxReplaySet = true → e.before.rxReplay ≤ replayCounter e.frame)
    ∧ e.after.rxReplay = replayCounter e.frame ∧ e.after.rxReplaySet = true
    ∧ verifyMic crypto e.after.ptk e.frame = true
    ∧ (e.before.havePtk = true ∧ e.after.ptk = e.before.ptk
      ∨ e.before.haveTptk = true ∧ e.after.ptk = e.before.tptk) := by
  cases e
  dsimp only [Entry.Ok] at h
  cases h with
  | dropped hgroup hmsg3 | msg1 hgroup hmsg3 => exact (hauth.elim hgroup hmsg3).elim
  | groupBad hok | groupAgain hok | rekey hok =>
    obtain ⟨-, -, hhave, hcur, hmic⟩ := hok
    exact ⟨hcur.2, rfl, rfl, hmic, .inl ⟨hhave, rfl⟩⟩
  | msg3Bad hok | msg3Again hok | done hok | doneGroup hok =>
    obtain ⟨-, -, -, hhave, hcur, hmic⟩ := hok
    exact ⟨hcur.2, rfl, rfl, hmic, .inr ⟨hhave, rfl⟩⟩

/-- A group key handed out was not the installed one. It comes from the frame, or the frame
carries none, and its receive counter from the frame that hands it out. -/
theorem Entry.Ok.handedGtk {gtk : Bytes} (hgtk : e.handedGtk = some gtk) :
    e.before.installedGtk ≠ some gtk ∧ e.after.gtkRsc = keyRsc e.frame
    ∧ (e.carried crypto = some gtk ∨ e.carried crypto = none) := by
  cases e
  dsimp only [Entry.Ok] at h
  cases h with
  | dropped _ _ hstep => rcases hstep with rfl | rfl <;> exact nomatch hgtk
  | msg1 | groupBad | groupAgain | msg3Bad | msg3Again | done => exact nomatch hgtk
  | rekey hok hex hnew =>
    refine ⟨Option.some.inj hgtk ▸ hnew, rfl, .inl ?_⟩
    rw [← hgtk]
    exact Entry.carried_some (.inl hok.2.1) hex
  | doneGroup hok hmsg3 _ hfresh =>
    refine ⟨Option.some.inj hgtk ▸ hfresh.2, rfl, ?_⟩
    rcases hmsg3 with ⟨henc, hex⟩ | ⟨henc, -, -⟩
    · rw [← hgtk]
      exact .inl (Entry.carried_some (.inr henc) hex)
    · exact .inr (Entry.carried_bare hok.2.1 henc)

/-- The installed group key is the one last handed out. -/
theorem Entry.Ok.installedGtk : e.after.installedGtk = (e.handedGtk <|> e.before.installedGtk) := by
  cases e
  dsimp only [Entry.Ok] at h
  cases h with
  | dropped _ _ hstep => rcases hstep with rfl | rfl <;> rfl
  | msg1 | groupBad | groupAgain | msg3Bad | msg3Again | done | rekey | doneGroup => rfl

/-- A left-over is handed out exactly by a message 3 that carries no group key. -/
theorem Entry.Ok.leftOver_iff : e.before.LeftOver crypto e.frame
      ↔ e.handedGtk.isSome = true ∧ e.carried crypto = none := by
  cases e
  dsimp only [Entry.Ok] at h
  cases h with
  | dropped _ hmsg3 hstep =>
    refine ⟨fun h => absurd h.1 hmsg3, fun h => ?_⟩
    rcases hstep with rfl | rfl <;> exact nomatch h.1
  | msg1 _ hmsg3 => exact ⟨fun h => absurd h.1 hmsg3, fun h => nomatch h.1⟩
  | groupBad hok | groupAgain hok => exact ⟨fun h => absurd hok h.1.not_group, fun h => nomatch h.1⟩
  | rekey hok hex =>
    exact ⟨fun h => absurd hok h.1.not_group,
      fun h => nomatch h.2.symm.trans (Entry.carried_some (.inl hok.2.1) hex)⟩
  | msg3Bad hok henc =>
    exact ⟨fun h => absurd (henc.symm.trans h.2.1) Bool.noConfusion, fun h => nomatch h.1⟩
  | msg3Again hok hgtk hin => exact ⟨fun h => absurd hin h.2.2.1, fun h => nomatch h.1⟩
  | done hok hgtk hnew hold =>
    refine ⟨fun h => ?_, fun h => nomatch h.1⟩
    obtain ⟨-, henc, -, hne, hin⟩ := h
    rcases hgtk with ⟨henc', -⟩ | ⟨-, -, rfl⟩
    · exact absurd (henc'.symm.trans henc) Bool.noConfusion
    · exact absurd hold (by tauto)
  | doneGroup hok hgtk hnew hfresh =>
    rcases hgtk with ⟨henc, hex⟩ | ⟨henc, -, rfl⟩
    · exact ⟨fun h => absurd (henc.symm.trans h.2.1) Bool.noConfusion,
        fun h => nomatch h.2.symm.trans (Entry.carried_some (.inr henc) hex)⟩
    · exact ⟨fun _ => ⟨rfl, Entry.carried_bare hok.2.1 henc⟩, fun _ => ⟨hok, henc, hnew, hfresh⟩⟩

/-- The keys of a handshake move only so: a message 1 derives one from its ANonce, and
handing out a temporal key takes the derived one, which was not the last handed out. -/
theorem Entry.Ok.temporal : (e.after.tptk = e.before.tptk ∧ e.after.haveTptk = e.before.haveTptk
        ∨ (∃ A, e.after.tptk.tk
            = tkOf crypto e.before.pmk e.before.aa e.before.sa A e.before.snonce)
          ∧ e.handedTk = none)
    ∧ (e.handedTk = none ∧ e.after.installedTk = e.before.installedTk
          ∧ e.after.renewSnonce = e.before.renewSnonce
        ∨ e.handedTk = some e.before.tptk.tk ∧ e.before.haveTptk = true
          ∧ e.before.installedTk ≠ some e.before.tptk.tk
          ∧ e.after.installedTk = some e.before.tptk.tk ∧ e.after.renewSnonce = true) := by
  cases e
  dsimp only [Entry.Ok] at h
  cases h with
  | dropped _ _ hstep =>
    rcases hstep with rfl | rfl <;> exact ⟨.inl ⟨rfl, rfl⟩, .inl ⟨rfl, rfl, rfl⟩⟩
  | msg1 => exact ⟨.inr ⟨⟨_, rfl⟩, rfl⟩, .inl ⟨rfl, rfl, rfl⟩⟩
  | groupBad | groupAgain | rekey | msg3Bad | msg3Again =>
    exact ⟨.inl ⟨rfl, rfl⟩, .inl ⟨rfl, rfl, rfl⟩⟩
  | done hok _ hnew | doneGroup hok _ hnew =>
    exact ⟨.inl ⟨rfl, rfl⟩, .inr ⟨rfl, hok.2.2.2.1, hnew, rfl, rfl⟩⟩

/-- What no frame changes. -/
theorem Entry.Ok.site : e.after.pmk = e.before.pmk ∧ e.after.aa = e.before.aa
    ∧ e.after.sa = e.before.sa ∧ e.after.snonce = e.before.snonce := by
  cases e
  dsimp only [Entry.Ok] at h
  cases h <;> exact ⟨rfl, rfl, rfl, rfl⟩

end

end Entries

/-! ## Runs -/

section Runs

variable {crypto : Primitives} {ap : AccessPoint} {pmk aa sa : Bytes} {c : Conn}

/-- The access point uses a replay counter once. -/
theorem AccessPoint.eq_of_counter (ap : AccessPoint) {a b : Bytes × Ptk} (ha : a ∈ ap.produced)
    (hb : b ∈ ap.produced) (h : replayCounter a.1 = replayCounter b.1) : a = b := by
  have hdiff : (ap.produced.map fun p => replayCounter p.1).Nodup :=
    pairwise_map.mpr (ap.increasing.imp fun hlt => Nat.ne_of_lt hlt)
  exact inj_on_of_nodup_map hdiff ha hb h

/-- What holds of every position of a log, with the entries before it. -/
def Throughout (P : List Entry → Entry → Prop) (log : List Entry) : Prop :=
  ∀ pre e post, log = pre ++ e :: post → P pre e

theorem Throughout.concat {P : List Entry → Entry → Prop} {log : List Entry} {e : Entry}
    (h : Throughout P log) (he : P log e) : Throughout P (log ++ [e]) := by
  intro pre e' post heq
  rcases eq_nil_or_concat post with rfl | ⟨post, x, rfl⟩
  · obtain ⟨rfl, hx⟩ := append_inj' heq rfl
    rw [← singleton_inj.mp hx]
    exact he
  · rw [concat_eq_append, ← cons_append, ← append_assoc] at heq
    exact h pre e' post (append_inj' heq rfl).1

/-- What holds of the state and the log after every delivery. -/
structure Inv (crypto : Primitives) (ap : AccessPoint) (pmk aa sa : Bytes) (c : Conn) : Prop where
  site : c.sup.pmk = pmk ∧ c.sup.aa = aa ∧ c.sup.sa = sa
  current : c.sup.snonce ∈ c.snonces
  /-- The derived key is of the current SNonce, or was handed out last. -/
  derived : c.sup.haveTptk = true →
    (c.sup.renewSnonce = false ∧ ∃ A, c.sup.tptk.tk = tkOf crypto pmk aa sa A c.sup.snonce)
      ∨ c.sup.installedTk = some c.sup.tptk.tk
  ok : ∀ e ∈ c.log, e.Ok crypto
  /-- A temporal key handed out is of an SNonce that is not used again. -/
  handed : ∀ e ∈ c.log, ∀ tk, e.handedTk = some tk → e.before.snonce ∈ c.snonces
      ∧ (c.sup.renewSnonce = false → e.before.snonce ≠ c.sup.snonce)
      ∧ ∃ A, tk = tkOf crypto pmk aa sa A e.before.snonce
  once : c.log.Pairwise fun e e' => ∀ tk, e.handedTk = some tk → ∀ tk', e'.handedTk = some tk' →
    e.before.snonce ≠ e'.before.snonce
  /-- An authentic frame was produced under the key that took it, and none was newer than
  the last one. -/
  authentic : ∀ e ∈ c.log, e.Authentic crypto →
    (e.frame, e.after.ptk) ∈ ap.produced ∧ c.sup.rxReplaySet = true
      ∧ replayCounter e.frame ≤ c.sup.rxReplay
  lastGtk : c.sup.installedGtk = (lastHanded c.log).bind Entry.handedGtk
  groups : Throughout
    (fun pre e => GroupKeyOk crypto pre e ↔ ¬ e.before.LeftOver crypto e.frame) c.log

theorem inv_start (snonce rsnIe : Bytes) :
    Inv crypto ap pmk aa sa (Conn.start pmk aa sa snonce rsnIe) where
  site := ⟨rfl, rfl, rfl⟩
  current := mem_singleton.mpr rfl
  derived := nofun
  ok := fun e h => nomatch h
  handed := fun e h => nomatch h
  once := List.Pairwise.nil
  authentic := fun e h => nomatch h
  lastGtk := rfl
  groups := fun pre e post h => by simp [Conn.start] at h

/-- A new SNonce, never used before, where one is due. -/
theorem Inv.renew (h : Inv crypto ap pmk aa sa c) {random : Bytes}
    (hfresh : c.sup.needsSnonce = true → random ∉ c.snonces) :
    Inv crypto ap pmk aa sa (c.renew random) ∧ (c.renew random).sup.renewSnonce = false := by
  unfold Conn.renew
  cases hneeds : c.sup.needsSnonce with
  | false => exact ⟨h, hneeds⟩
  | true =>
    have hnew := hfresh hneeds
    have hrenew : c.sup.renewSnonce = true := hneeds
    refine ⟨?_, rfl⟩
    exact { h with
      current := mem_append_right _ (mem_singleton.mpr rfl)
      derived := fun hhave => by
        rcases h.derived hhave with ⟨hno, -⟩ | hin
        · exact absurd (hno.symm.trans hrenew) Bool.noConfusion
        · exact .inr hin
      handed := fun e he tk htk => by
        obtain ⟨hmem, -, hof⟩ := h.handed e he tk htk
        refine ⟨mem_append_left _ hmem, fun _ heq => hnew ?_, hof⟩
        have heq' : e.before.snonce = random := heq
        rwa [← heq'] }

/-- The entry a frame makes. -/
theorem Conn.take_entry (crypto : Primitives) (c : Conn) (frame : Bytes) :
    ∃ e : Entry, e.Ok crypto ∧ e.before = c.sup
    ∧ e.frame = frame ∧ c.take crypto frame = ⟨e.after, c.snonces, c.log ++ [e]⟩ :=
  ⟨⟨c.sup, frame, (c.sup.onEapol crypto frame).2, (c.sup.onEapol crypto frame).1⟩,
    Supplicant.onEapol_outcome, rfl, rfl, rfl⟩

theorem lastHanded_concat (log : List Entry) (e : Entry) :
    lastHanded (log ++ [e]) = if e.handedGtk.isSome then some e else lastHanded log := by
  unfold lastHanded
  rw [filter_append]
  cases h : e.handedGtk.isSome with
  | false => simp [h]
  | true => simp [h]

section

variable (h : Inv crypto ap pmk aa sa c)

include h

/-- A group key handed out at the end of a log is as it should be, a left-over apart. -/
theorem Inv.group {e : Entry} (he : e.Ok crypto) (hbefore : e.before = c.sup)
    (hprod : e.Authentic crypto → (e.frame, e.after.ptk) ∈ ap.produced) :
    GroupKeyOk crypto c.log e ↔ ¬ e.before.LeftOver crypto e.frame := by
  rw [he.leftOver_iff]
  constructor
  · rintro hok ⟨hsome, hnone⟩
    obtain ⟨gtk, hgtk⟩ := Option.isSome_iff_exists.mp hsome
    have := (hok gtk hgtk).2.1
    rw [hnone] at this
    exact nomatch this
  · intro hno gtk hgtk
    obtain ⟨hnew, hrsc, hcarried⟩ := he.handedGtk hgtk
    have hcarried : e.carried crypto = some gtk :=
      hcarried.resolve_right fun hnone => hno ⟨by simp [hgtk], hnone⟩
    refine ⟨fun e₀ hlast => ?_, hcarried, hrsc⟩
    -- the last one handed out is the installed one, which this one is not
    obtain ⟨hmem, hsome⟩ := mem_filter.mp (mem_of_getLast? hlast)
    have hdiff : e₀.handedGtk ≠ some gtk := by
      intro heq
      refine hnew ?_
      rw [hbefore, h.lastGtk, hlast]
      exact heq
    refine ⟨hdiff, ?_⟩
    have he₀ := h.ok e₀ hmem
    obtain ⟨hprod₀, hset, hle⟩ := h.authentic e₀ hmem (he₀.authentic (.inr hsome))
    have hauth : e.Authentic crypto := he.authentic (.inr (by simp [hgtk]))
    have hge : c.sup.rxReplay ≤ replayCounter e.frame := by
      rw [← hbefore]
      exact (he.accepted hauth).1 (by rw [hbefore]; exact hset)
    refine Nat.lt_of_le_of_ne (Nat.le_trans hle hge) fun heq => ?_
    -- one counter is one frame under one key, and that carries one group key
    have hsame : (e₀.frame, e₀.after.ptk) = (e.frame, e.after.ptk) :=
      ap.eq_of_counter hprod₀ (hprod hauth) heq
    have hcarried₀ : e₀.carried crypto = some gtk := by
      rw [← hcarried]
      unfold Entry.carried
      rw [(Prod.mk.inj hsame).1, (Prod.mk.inj hsame).2]
    obtain ⟨gtk₀, hgtk₀⟩ := Option.isSome_iff_exists.mp hsome
    rcases (he₀.handedGtk hgtk₀).2.2 with h₀ | h₀
    · exact hdiff (by rw [hgtk₀, ← h₀, hcarried₀])
    · rw [hcarried₀] at h₀
      exact nomatch h₀

/-- One frame keeps the invariant. -/
theorem Inv.take (hrenew : c.sup.renewSnonce = false) {frame : Bytes}
    (hinUse : c.sup.havePtk = true → verifyMic crypto c.sup.ptk frame = true →
      (frame, c.sup.ptk) ∈ ap.produced)
    (hderived : c.sup.haveTptk = true → verifyMic crypto c.sup.tptk frame = true →
      (frame, c.sup.tptk) ∈ ap.produced) :
    Inv crypto ap pmk aa sa (c.take crypto frame) := by
  obtain ⟨e, he, hbefore, rfl, htake⟩ := Conn.take_entry crypto c frame
  have hprod : e.Authentic crypto → (e.frame, e.after.ptk) ∈ ap.produced := by
    intro hauth
    obtain ⟨-, -, -, hmic, ⟨hhave, hptk⟩ | ⟨hhave, hptk⟩⟩ := he.accepted hauth
    · rw [hptk, hbefore] at hmic ⊢
      exact hinUse (hbefore ▸ hhave) hmic
    · rw [hptk, hbefore] at hmic ⊢
      exact hderived (hbefore ▸ hhave) hmic
  obtain ⟨hpmk, haa, hsa, hsnonce⟩ := he.site
  have hsite : e.before.pmk = pmk ∧ e.before.aa = aa ∧ e.before.sa = sa := hbefore ▸ h.site
  obtain ⟨htptk, hhand⟩ := he.temporal
  -- a temporal key handed out now is of the current SNonce
  have hnow : ∀ tk, e.handedTk = some tk → e.after.renewSnonce = true
      ∧ ∃ A, tk = tkOf crypto pmk aa sa A c.sup.snonce := by
    intro tk htk
    rcases hhand with ⟨hnone, -⟩ | ⟨hsome, hhave, hnew, -, hrenew'⟩
    · exact absurd (hnone.symm.trans htk) nofun
    refine ⟨hrenew', ?_⟩
    rw [hbefore] at hhave hnew hsome
    obtain ⟨-, A, hA⟩ := (h.derived hhave).resolve_right hnew
    exact ⟨A, by rw [← hA]; exact Option.some.inj (htk.symm.trans hsome)⟩
  rw [htake]
  exact {
    site := ⟨hpmk.trans hsite.1, haa.trans hsite.2.1, hsa.trans hsite.2.2⟩
    current := by
      rw [hsnonce, hbefore]
      exact h.current
    derived := by
      intro hhave
      rw [hsnonce]
      rcases htptk with ⟨hsame, hhave'⟩ | ⟨⟨A, hA⟩, hnone⟩
      · rw [hsame]
        rcases hhand with ⟨-, hinst, hren⟩ | ⟨-, -, -, hinst, -⟩
        · rw [hinst, hren, hbefore]
          exact h.derived (by rw [← hbefore, ← hhave']; exact hhave)
        · exact .inr hinst
      · rcases hhand with ⟨-, -, hren⟩ | ⟨hsome, -⟩
        · refine .inl ⟨by rw [hren, hbefore]; exact hrenew, A, ?_⟩
          rw [hA, hsite.1, hsite.2.1, hsite.2.2]
        · exact absurd (hnone.symm.trans hsome) nofun
    ok := forall_mem_append.mpr ⟨h.ok, forall_mem_singleton.mpr he⟩
    handed := by
      refine forall_mem_append.mpr ⟨fun e' he' tk htk => ?_, forall_mem_singleton.mpr ?_⟩
      · obtain ⟨hmem, hne, hof⟩ := h.handed e' he' tk htk
        refine ⟨hmem, fun _ => ?_, hof⟩
        rw [hsnonce, hbefore]
        exact hne hrenew
      · intro tk htk
        obtain ⟨hren, hof⟩ := hnow tk htk
        rw [hbefore]
        exact ⟨h.current, fun hno => absurd (hno.symm.trans hren) Bool.noConfusion, hof⟩
    once := by
      refine pairwise_append.mpr ⟨h.once, pairwise_singleton _ _, ?_⟩
      intro e' he' x hx tk htk tk' htk'
      obtain rfl := mem_singleton.mp hx
      rw [hbefore]
      exact (h.handed e' he' tk htk).2.1 hrenew
    authentic := by
      refine forall_mem_append.mpr ⟨fun e' he' hauth => ?_, forall_mem_singleton.mpr ?_⟩
      · obtain ⟨hin, hset, hle⟩ := h.authentic e' he' hauth
        refine ⟨hin, ?_⟩
        by_cases hnow' : e.Authentic crypto
        · obtain ⟨hge, heq, hset', -⟩ := he.accepted hnow'
          rw [hbefore] at hge
          exact ⟨hset', by rw [heq]; exact Nat.le_trans hle (hge hset)⟩
        · obtain ⟨-, heq, hset'⟩ := he.kept hnow'
          rw [heq, hset', hbefore]
          exact ⟨hset, hle⟩
      · intro hauth
        obtain ⟨-, heq, hset, -⟩ := he.accepted hauth
        exact ⟨hprod hauth, hset, Nat.le_of_eq heq.symm⟩
    lastGtk := by
      rw [lastHanded_concat, he.installedGtk, hbefore, h.lastGtk]
      cases hgtk : e.handedGtk with
      | none => simp
      | some gtk => simp [hgtk]
    groups := h.groups.concat (h.group he hbefore hprod) }

theorem Inv.receive {d : Delivery} {c' : Conn} (hstep : c.Received crypto ap d c') :
    Inv crypto ap pmk aa sa c' := by
  obtain ⟨hadm, rfl⟩ := hstep
  obtain ⟨hinv, hrenew⟩ := h.renew hadm.fresh
  have hkeys : (c.renew d.random).sup.ptk = c.sup.ptk
      ∧ (c.renew d.random).sup.havePtk = c.sup.havePtk
      ∧ (c.renew d.random).sup.tptk = c.sup.tptk
      ∧ (c.renew d.random).sup.haveTptk = c.sup.haveTptk := by
    unfold Conn.renew
    split <;> exact ⟨rfl, rfl, rfl, rfl⟩
  refine hinv.take hrenew ?_ ?_
  · rw [hkeys.1, hkeys.2.1]
    exact hadm.inUse
  · rw [hkeys.2.2.1, hkeys.2.2.2]
    exact hadm.derived

/-- Temporal keys of different SNonces differ, so none is handed out twice. -/
theorem Inv.handedTk_nodup (hkdf : DistinctKeys crypto pmk aa sa c.snonces) :
    (c.log.filterMap Entry.handedTk).Nodup := by
  unfold List.Nodup
  rw [pairwise_filterMap]
  refine h.once.imp_of_mem ?_
  intro e e' he he' hne tk htk tk' htk'
  obtain ⟨hmem, -, A, rfl⟩ := h.handed e he tk htk
  obtain ⟨hmem', -, A', rfl⟩ := h.handed e' he' tk' htk'
  exact hkdf _ hmem _ hmem' (hne _ htk _ htk') A A'

end

end Runs

/-! ## Concrete runs -/

instance (crypto : Primitives) (ap : AccessPoint) (c : Conn) (d : Delivery) :
    Decidable (c.Admissible crypto ap d) :=
  decidable_of_iff
    ((c.sup.needsSnonce = true → d.random ∉ c.snonces)
      ∧ (c.sup.havePtk = true → verifyMic crypto c.sup.ptk d.frame = true →
        (d.frame, c.sup.ptk) ∈ ap.produced)
      ∧ (c.sup.haveTptk = true → verifyMic crypto c.sup.tptk d.frame = true →
        (d.frame, c.sup.tptk) ∈ ap.produced))
    ⟨fun h => ⟨h.1, h.2.1, h.2.2⟩, fun h => ⟨h.fresh, h.inUse, h.derived⟩⟩

/-- Every delivery is admissible where it arrives. -/
def Conn.AllAdmissible (crypto : Primitives) (ap : AccessPoint) : Conn → List Delivery → Prop
  | _, [] => True
  | c, d :: ds => c.Admissible crypto ap d ∧ AllAdmissible crypto ap (c.receive crypto d) ds

instance (crypto : Primitives) (ap : AccessPoint) :
    (c : Conn) → (ds : List Delivery) → Decidable (c.AllAdmissible crypto ap ds)
  | _, [] => isTrue trivial
  | c, d :: ds =>
    have := instDecidableAllAdmissible crypto ap (c.receive crypto d) ds
    inferInstanceAs (Decidable (_ ∧ _))

/-- Deliveries that are admissible one after another make a run. -/
theorem Conn.AllAdmissible.run {crypto : Primitives} {ap : AccessPoint} {c : Conn}
    {ds : List Delivery} (h : c.AllAdmissible crypto ap ds) :
    Run (Conn.Received crypto ap) c ds (ds.foldl (Conn.receive crypto) c) := by
  induction ds generalizing c with
  | nil => exact .nil c
  | cons d ds ih => exact .cons ⟨h.1, rfl⟩ (ih h.2)

namespace Demo

/-- Small stand-ins: every key is the start of the SNonce, a MIC is a sum, and a wrapped key
is plain behind its first eight octets. -/
def crypto : Primitives where
  wpa2Ptk := fun _ _ _ _ snonce => snonce.take 16 ++ snonce.take 16 ++ snonce.take 16
  hmacSha1 := fun key msg => replicate 20 (msg.foldl (· + ·) (key.headD 0))
  aesUnwrap := fun _ wrapped => some (wrapped.drop 8)

def snonce (n : Byte) : Bytes := replicate 32 n

def ptk (n : Byte) : Ptk := .ofBytes (crypto.wpa2Ptk [] [] [] [] (snonce n))

/-- A frame as an access point builds it: key information, replay counter, receive counter and
key data, with the MIC under a key. -/
def frame (key : Ptk) (ki : BitVec 16) (counter rsc : Byte) (keyData : Bytes) : Bytes :=
  let head := [2, 3, 0, 0, 2] ++ putBe16 ki ++ [0, 16] ++ replicate 7 0 ++ [counter]
    ++ replicate 48 0 ++ [rsc] ++ replicate 15 0
  let tail := putBe16 (BitVec.ofNat 16 keyData.length) ++ keyData
  head ++ computeMic crypto key (head ++ replicate 16 0 ++ tail) ++ tail

/-- Eight octets of wrapping and a group key of eight octets. -/
def gtkData (n : Byte) : Bytes :=
  replicate 8 0 ++ [0xDD, 14, 0x00, 0x0F, 0xAC, 0x01, 1, 0] ++ replicate 8 n

/-- Message 1: pairwise, with an answer wanted and no MIC. -/
def msg1 : Bytes := frame .zero 0x008A 0 0 []

/-- Message 3 with encrypted key data. -/
def msg3 (key : Ptk) (counter gtk : Byte) : Bytes := frame key 0x13CA counter counter (gtkData gtk)

/-- Message 3 without key data. -/
def msg3Bare (key : Ptk) (counter : Byte) : Bytes := frame key 0x03CA counter counter []

/-- A handshake, its message 3 sent again with a new group key, and a second handshake whose
message 3 carries none. -/
def ap : AccessPoint where
  produced := [(msg3 (ptk 1) 1 7, ptk 1), (msg3 (ptk 1) 2 8, ptk 1), (msg3Bare (ptk 2) 3, ptk 2)]
  increasing := by decide +kernel

def deliveries : List Delivery :=
  [⟨msg1, snonce 2⟩, ⟨msg3 (ptk 1) 1 7, snonce 2⟩, ⟨msg3 (ptk 1) 2 8, snonce 2⟩,
    ⟨msg1, snonce 3⟩, ⟨msg3Bare (ptk 2) 3, snonce 3⟩]

def conn : Conn := .start [] [] [] (snonce 1) []

/-- The connection after the first `n` deliveries. -/
def after (n : Nat) : Conn := (deliveries.take n).foldl (Conn.receive crypto) conn

theorem run_two : Run (Conn.Received crypto ap) conn (deliveries.take 2) (after 2) :=
  Conn.AllAdmissible.run (by decide +kernel)

theorem run_five : Run (Conn.Received crypto ap) conn deliveries (after 5) :=
  Conn.AllAdmissible.run (by decide +kernel)

theorem tkOf_snonce (A : Bytes) (n : Byte) :
    tkOf crypto [] [] [] A (snonce n) = replicate 16 n := rfl

theorem distinctKeys {ns : List Byte} : DistinctKeys crypto [] [] [] (ns.map snonce) := by
  intro S hS S' hS' hne A A' heq
  obtain ⟨n, -, rfl⟩ := mem_map.mp hS
  obtain ⟨n', -, rfl⟩ := mem_map.mp hS'
  rw [tkOf_snonce, tkOf_snonce] at heq
  exact hne (congrArg snonce ((replicate_inj.mp heq).2.resolve_left nofun))

theorem snonces_two : (after 2).snonces = [1].map snonce := by decide +kernel

theorem snonces_five : (after 5).snonces = [1, 2].map snonce := by decide +kernel

/-- The last delivery's entry. -/
def last : Entry :=
  ⟨((after 4).renew (snonce 3)).sup, msg3Bare (ptk 2) 3,
    (((after 4).renew (snonce 3)).sup.onEapol crypto (msg3Bare (ptk 2) 3)).2, (after 5).sup⟩

end Demo

/-- **No key is reinstalled**, a left-over group key apart. In every run over admissible
deliveries, with a derivation that tells the SNonces of the run apart: no temporal key is
handed out twice; a frame that is not authenticated changes no key and hands out none; and
a group key is handed out only when it differs from the last one, from a newer frame that
carries it, with that frame's receive counter, exactly where no left-over is handed out. -/
theorem keys_handed_out (crypto : Primitives) (ap : AccessPoint)
    (pmk aa sa snonce rsnIe : Bytes) {ds : List Delivery} {c : Conn}
    (hrun : Run (Conn.Received crypto ap) (Conn.start pmk aa sa snonce rsnIe) ds c)
    (hkdf : DistinctKeys crypto pmk aa sa c.snonces) :
    (c.log.filterMap Entry.handedTk).Nodup
    ∧ (∀ e ∈ c.log, ¬ e.Authentic crypto → e.KeysKept)
    ∧ ∀ pre e post, c.log = pre ++ e :: post →
      (GroupKeyOk crypto pre e ↔ ¬ e.before.LeftOver crypto e.frame) := by
  have hinv : Inv crypto ap pmk aa sa c :=
    hrun.invariant (fun _ _ _ h hstep => h.receive hstep) (inv_start snonce rsnIe)
  exact ⟨hinv.handedTk_nodup hkdf, fun e he hno => ((hinv.ok e he).kept hno).1, hinv.groups⟩

/-- A handshake: the temporal key and the group key of its message 3 are handed out. -/
theorem keys_handed_out_handshake : (Demo.after 2).log.filterMap Entry.handedTk = [replicate 16 1]
    ∧ ((Demo.after 2).log.filterMap Entry.handedTk).Nodup
    ∧ (∀ e ∈ (Demo.after 2).log, ¬ e.Authentic Demo.crypto → e.KeysKept)
    ∧ ∀ pre e post, (Demo.after 2).log = pre ++ e :: post →
      (GroupKeyOk Demo.crypto pre e ↔ ¬ e.before.LeftOver Demo.crypto e.frame) :=
  ⟨by decide +kernel,
    keys_handed_out Demo.crypto Demo.ap [] [] [] (Demo.snonce 1) [] Demo.run_two
      (by rw [Demo.snonces_two]; exact Demo.distinctKeys)⟩

/-- The left-over: message 3 is repeated with a new group key, which is stored and not handed
out; the next handshake's message 3 carries none and hands the stored one out, with its
own receive counter. -/
theorem left_over_handed_out :
    Run (Conn.Received Demo.crypto Demo.ap) Demo.conn Demo.deliveries (Demo.after 5)
    ∧ DistinctKeys Demo.crypto [] [] [] (Demo.after 5).snonces
    ∧ (Demo.after 5).log = (Demo.after 4).log ++ [Demo.last]
    ∧ Demo.last.handedGtk = some (replicate 8 8)
    ∧ Demo.last.carried Demo.crypto = none
    ∧ Demo.last.after.gtkRsc = keyRsc (Demo.msg3Bare (Demo.ptk 2) 3)
    ∧ ¬ GroupKeyOk Demo.crypto (Demo.after 4).log Demo.last := by
  have hgtk : Demo.last.handedGtk = some (replicate 8 8) := by decide +kernel
  have hnone : Demo.last.carried Demo.crypto = none := by decide +kernel
  refine ⟨Demo.run_five, ?_, by decide +kernel, hgtk, hnone, by decide +kernel, fun h => ?_⟩
  · rw [Demo.snonces_five]
    exact Demo.distinctKeys
  · have hcarried := (h _ hgtk).2.1
    rw [hnone] at hcarried
    exact nomatch hcarried

end NopeekOS.Wifi
