import NopeekOS.Wasm.FileHost
import NopeekOS.Wasm.FsStable

/-!
# What the host calls leave alone

A call moves the world on without touching the paths of `S` (`Moves`) if the names
that its guard lets through stay clear of `S` (`Spares`). The guard of a writer is
asked again at close; in between the name it was opened with is kept with it.
-/

namespace NopeekOS.Wasm

open Fs Lib.FaultState
open Lib hiding Byte
open Storage Storage.Paths Security

variable {A : ObjectAddress} {X : ExtMachine} {S : List Name → Prop} {w₀ w w' : World A X}
  {f : Option OpenFile}

/-- The name passes the guards that every mutation has. -/
structure Passes (module : Name) (name : List Byte) : Prop where
  ext : isExt name = false
  trust : isTrustCriticalPath name = false
  priv : privateAreaAllows name module = true

/-- The names that a call of the module may write stay clear of `S`. -/
def Spares (S : List Name → Prop) (module : Name) : HostCall → Prop
  | .store name _ => Passes module name → ¬ S (spelled name)
  | .fileCreate name => Passes module name → ¬ S (spelled name)
  | .fsDelete name => Passes module name → ¬ S (spelled name)
  | .fsMkdir name => Passes module name → ¬ S (spelled name)
  | .fsRename old new => Passes module old → Passes module new →
      ∀ p, S p → ¬ spelled old <+: p ∧ ¬ spelled new <+: p
  | .fsCopy old new => Passes module old → Passes module new → ∀ p, S p → ¬ spelled new <+: p
  | _ => True

namespace World

/-- An open file that will not touch `S` when it is closed. -/
def FileOk (S : List Name → Prop) (st : ObjectStore A) : Option OpenFile → Prop
  | some (.write name writer _) =>
    Fs.WriterOk st writer ∧ writer.path = trimSlashes name ∧ ¬ S (spelled name)
  | _ => True

/-- A good file system and such open files. -/
structure Good (S : List Name → Prop) (w : World A X) : Prop where
  fs : w.fs.Ok
  files : ∀ f ∈ w.files, FileOk S w.fs.store f

/-- `w` became `w'` and `S` is as before. -/
structure Moves (S : List Name → Prop) (w w' : World A X) : Prop where
  keeps : Fs.Keeps S w.fs w'.fs
  good : Good S w'
  module : w'.module = w.module

/-- The store may grow. -/
theorem FileOk.mono {st st' : ObjectStore A} (h : FileOk S st f)
    (hle : st ≤ st') : FileOk S st' f := by
  match f with
  | none => trivial
  | some (.ext _) => trivial
  | some (.extWrite _) => trivial
  | some (.read _ _) => trivial
  | some (.write name writer cached) => exact ⟨h.1.mono hle, h.2⟩

theorem Moves.refl (h : Good S w) : Moves S w w := ⟨.refl h.fs, h, rfl⟩

theorem Moves.trans (h : Moves S w₀ w) (h' : Moves S w w') : Moves S w₀ w' :=
  ⟨h.keeps.trans h'.keeps, h'.good, h'.module.trans h.module⟩

variable {α : Type} {env : Env} {name : List Byte} {handle : Nat} {cached : Option (Hash × Nat)}
  {writer : Fs.StreamingWriter}

/-- The writer of a slot is good. -/
theorem Good.writing (h : Good S w)
    (hfile : w.files[handle]?.join = some (.write name writer cached)) :
    FileOk S w.fs.store (some (.write name writer cached)) := by
  obtain ⟨f, hf, hjoin⟩ := Option.bind_eq_some_iff.mp hfile
  exact hjoin ▸ h.files f (List.mem_of_getElem? hf)

/-- A new writer has nothing yet. -/
theorem openStreamingWrite_eq {now : Nat}
    (hrun : w.run (openStreamingWrite now name) = (.ok writer, w')) :
    writer = ⟨trimSlashes name, [], [], 0⟩ := by
  have hwp : wp (openStreamingWrite now name) (fun r _ => r = ⟨trimSlashes name, [], [], 0⟩)
      (fun _ _ => True) w.fs :=
    wp_seq (wp_true _) fun _ _ _ =>
      wp_seq (wp_true _) fun _ _ _ => rfl
  rcases hx : openStreamingWrite now name w.fs with ⟨e | r, fs'⟩ <;>
    simp only [run, hx, Prod.mk.injEq, reduceCtorEq, false_and, Except.ok.injEq] at hrun
  have hr := of_wp_ok hwp hx
  rw [← hrun.1, hr]

/-! ## Steps of a call -/

/-- The recursive listing only reads. -/
theorem stable_dfs (module : Name) (fuel : Nat) : ∀ abs rel out : List Byte,
    Fs.Stable S (dfs module fuel abs rel out : FsM A (List Byte)) := by
  induction fuel with
  | zero => exact fun _ _ _ => stable_fault _
  | succ fuel ih =>
    intro abs rel out
    refine stable_bind (stable_list abs) fun r => ?_
    cases r with
    | none => exact stable_pure _
    | some entries =>
      refine stable_foldlM entries out fun out e _ => ?_
      split
      · exact stable_pure _
      · split
        · exact stable_pure _
        · exact ih _ _ _

namespace Moves

theorem ite {c : Prop} [Decidable c] {p q : Reply × World A X} (hp : c → Moves S w₀ p.2)
    (hq : ¬ c → Moves S w₀ q.2) : Moves S w₀ (if c then p else q).2 := by
  split_ifs with hc
  · exact hp hc
  · exact hq hc

variable (h : Moves S w₀ w)

include h

/-- A guard of the source. -/
theorem guard {c : Prop} [Decidable c] {reply : Reply} {q : Reply × World A X}
    (hq : ¬ c → Moves S w₀ q.2) : Moves S w₀ (if c then (reply, w) else q).2 :=
  ite (fun _ => h) hq

/-- A computation that keeps `S` moves the world on. -/
theorem keep {fs : Fs A} (hk : Fs.Keeps S w.fs fs) : Moves S w₀ { w with fs := fs } :=
  ⟨h.keeps.trans hk, ⟨hk.ok, fun f hf => (h.good.files f hf).mono hk.le⟩, h.module⟩

/-- A stable call of the file system. -/
theorem run {x : FsM A α} (hx : Fs.Stable S x) : ∃ r w', w.run x = (r, w') ∧ Moves S w₀ w' :=
  ⟨_, _, rfl, h.keep (hx w.fs h.good.fs)⟩

theorem runUnit {x : FsM A α} (hx : Fs.Keeps S w.fs (x w.fs).2) : Moves S w₀ (w.runUnit x).2 := by
  have hmove := h.keep hx
  rcases hrun : x w.fs with ⟨e | a, fs'⟩ <;> rw [hrun] at hmove <;>
    simp only [World.runUnit, World.run, hrun] <;> exact hmove

/-- The external volumes are elsewhere. -/
theorem ask (r : ExtRequest) : Moves S w₀ (w.ask r).2 :=
  ⟨h.keeps, ⟨h.good.fs, h.good.files⟩, h.module⟩

theorem asked (r : ExtRequest) : ∃ reply w', w.ask r = (reply, w') ∧ Moves S w₀ w' :=
  ⟨_, _, rfl, h.ask r⟩

/-- A slot gets such a file. -/
theorem setFile (i : Nat) (hf : FileOk S w.fs.store f) : Moves S w₀ (w.setFile i f) := by
  refine ⟨h.keeps, ⟨h.good.fs, fun g hg => ?_⟩, h.module⟩
  rcases List.mem_or_eq_of_mem_set hg with hg | rfl
  · exact h.good.files g hg
  · exact hf

/-- A free slot, or a new one behind the others. -/
theorem fileSlot {i : Nat} (hslot : w.fileSlot = some (i, w')) : Moves S w₀ w' := by
  unfold World.fileSlot at hslot
  split at hslot
  · cases hslot
    exact h
  split at hslot
  · cases hslot
  cases hslot
  exact ⟨h.keeps, ⟨h.good.fs, List.forall_mem_append.mpr ⟨h.good.files,
    List.forall_mem_singleton.mpr trivial⟩⟩, h.module⟩

variable (env name)

/-- `write_allowed` lets a name of the store through only past its guards. -/
theorem writeAllowed :
    ∃ r w', w.writeAllowed env name = (r, w') ∧ Moves S w₀ w' ∧ w'.files = w.files ∧
      (r ≠ none → isExt name = false → Passes w.module name) := by
  unfold World.writeAllowed
  split_ifs with hext hallow htrust hpriv hheld hown
  · exact ⟨_, _, rfl, h, rfl, nofun⟩
  · obtain ⟨reply, w₁, hreply, h₁⟩ := h.asked (.writable name)
    rw [hreply]
    have hfiles : w₁.files = w.files := (congrArg (·.2.files) hreply).symm
    cases reply <;> exact ⟨_, _, rfl, h₁, hfiles, fun _ hno => absurd hext (by simp [hno])⟩
  · exact ⟨_, _, rfl, h, rfl, nofun⟩
  · exact ⟨_, _, rfl, h, rfl, nofun⟩
  · exact ⟨_, _, rfl, h, rfl, fun _ hno => ⟨hno, by simpa using htrust, by simpa using hpriv⟩⟩
  · exact ⟨_, _, rfl, h, rfl, fun _ hno => ⟨hno, by simpa using htrust, by simpa using hpriv⟩⟩
  · exact ⟨_, _, rfl, h, rfl, nofun⟩

/-- A request to the external volumes past `write_allowed`. -/
theorem askAllowed (r : ExtRequest) : Moves S w₀ (match w.writeAllowed env name with
      | (none, w) => (Reply.denied, w)
      | (some _, w) => w.ask r).2 := by
  obtain ⟨_ | b, w₁, hallow, h₁, -⟩ := h.writeAllowed env name <;> rw [hallow]
  · exact h₁
  · exact h₁.ask _

/-- What the private area holds is only counted. -/
theorem privateCommitted (w' : World A X) :
    ∃ r w₁, w.run (w'.privateCommitted env name) = (r, w₁) ∧ Moves S w₀ w₁ :=
  h.run (stable_bind (stable_treeBytes _ _) fun _ =>
    stable_bind (stable_treeBytes _ _) fun _ => stable_pure _)

theorem quotaFor (byPrivate : Bool) (len : Nat) :
    ∃ ok w', w.quotaFor env byPrivate name len = (ok, w') ∧ Moves S w₀ w' := by
  unfold World.quotaFor
  split
  · obtain ⟨e | c, w₁, hrun, h₁⟩ := h.privateCommitted env name w <;> rw [hrun] <;>
      exact ⟨_, _, rfl, h₁⟩
  · exact ⟨_, _, rfl, h⟩

/-! ## Calls that only read -/

/-- The file is opened and read whole. -/
theorem fetch (max : Nat) : Moves S w₀ (w.fetch env name max).2 := by
  refine h.guard fun _ => ite (fun _ => h.ask _) fun _ => ?_
  obtain ⟨e | reader, w₁, hopen, h₁⟩ := h.run (stable_openRange env.encoded name env.budget) <;>
    rw [hopen]
  · exact h₁
  · refine h₁.guard fun _ => ?_
    obtain ⟨e | data, w₂, hread, h₂⟩ :=
      h₁.run (stable_readAt reader 0 reader.size env.budget) <;> rw [hread] <;> exact h₂

/-- The slot comes before the file, except outside the store. -/
theorem fileOpen : Moves S w₀ (w.fileOpen env name).2 := by
  refine h.guard fun _ => ite (fun _ => ?_) fun _ => ?_
  · obtain ⟨reply, w₁, hreply, h₁⟩ := h.asked (.open name)
    rw [hreply]
    cases reply with
    | code n =>
      simp only
      cases hslot : w₁.fileSlot with
      | none => exact h₁
      | some r => exact (h₁.fileSlot hslot).setFile r.1 trivial
    | denied | bytes | tooSmall => exact h₁
  · cases hslot : w.fileSlot with
    | none => exact h
    | some r =>
      obtain ⟨e | reader, w₂, hopen, h₂⟩ :=
        (h.fileSlot hslot).run (stable_openRange env.encoded name env.budget) <;>
        simp only [hopen]
      · exact h₂
      · exact h₂.setFile r.1 trivial

/-- A writer cannot be read. -/
theorem fileRead (handle offset max : Nat) : Moves S w₀ (w.fileRead env handle offset max).2 := by
  unfold World.fileRead
  split
  · rename_i name reader _
    refine h.guard fun _ => ?_
    obtain ⟨e | data, w₁, hread, h₁⟩ := h.run (stable_readAt reader offset max env.budget) <;>
      rw [hread] <;> exact h₁
  · exact h.guard fun _ => h.ask _
  · exact h

/-- One directory, or all below it. -/
theorem fsList (recursive : Bool) (max : Nat) : Moves S w₀ (w.fsList env name recursive max).2 := by
  refine ite (fun _ => h.guard fun _ => h.ask _) fun _ =>
    h.guard fun _ => h.guard fun _ => ite (fun _ => ?_) fun _ => ?_
  · obtain ⟨e | out, w₁, hdfs, h₁⟩ :=
      h.run (stable_dfs w.module env.fuel (trimSlashes name) [] []) <;> rw [hdfs] <;> exact h₁
  · obtain ⟨e | entries, w₁, hlist, h₁⟩ := h.run (stable_list (trimSlashes name)) <;>
      rw [hlist] <;> exact h₁

/-- A path that is not there is an answer, too. -/
theorem fsStat : Moves S w₀ (w.fsStat env name).2 := by
  refine h.guard fun _ => ite (fun _ => h.guard fun _ => h.ask _) fun _ =>
    h.guard fun _ => ?_
  obtain ⟨e | (_ | s), w₁, hstat, h₁⟩ := h.run (stable_stat name) <;> rw [hstat] <;> exact h₁

/-! ## Calls that write -/

/-- Closing publishes the file, if `write_allowed` still lets the name through. -/
theorem fileClose (handle : Nat) : Moves S w₀ (w.fileClose env handle).2 := by
  refine h.trans ?_
  replace h : Moves S w w := .refl h.good
  unfold World.fileClose
  cases hfile : w.files[handle]?.join with
  | none => exact h
  | some file =>
    have h₁ := h.setFile handle (f := none) trivial
    cases file with
    | ext name => exact h₁
    | read name reader => exact h₁
    | extWrite name =>
      obtain ⟨_ | b, w₂, hallow, h₂, -⟩ := h₁.writeAllowed env name <;> simp only [hallow]
      · exact h₂.ask _
      · exact h₂.ask _
    | write name writer cached =>
      obtain ⟨hwriter, hpath, hname⟩ := h.good.writing hfile
      obtain ⟨_ | b, w₂, hallow, h₂, -⟩ := h₁.writeAllowed env name <;> simp only [hallow]
      · exact h₂
      · refine h₂.runUnit (keeps_finish h₂.good.fs (hwriter.mono h₂.keeps.le) ?_)
        rw [hpath, spelled_trimSlashes]
        exact hname

/-- The count is kept in the slot, for the same file. -/
theorem committedFor (hfile : w.files[handle]?.join = some (.write name writer cached)) :
    ∃ r w', w.committedFor env handle name writer cached = (r, w') ∧ Moves S w₀ w' ∧
      ∃ cached', w'.files[handle]?.join = some (.write name writer cached') := by
  have hfresh : ∃ r w', committedFor.fresh env handle name writer w = (r, w') ∧ Moves S w₀ w' ∧
      ∃ cached', w'.files[handle]?.join = some (.write name writer cached') := by
    unfold committedFor.fresh
    obtain ⟨e | bytes, w₁, hrun, h₁⟩ := h.privateCommitted env name w <;> rw [hrun]
    all_goals
      have hfiles : w₁.files = w.files := (congrArg (·.2.files) hrun).symm
    · exact ⟨_, _, rfl, h₁, cached, by rw [hfiles]; exact hfile⟩
    · have hfile₁ := h₁.good.writing (by rw [hfiles]; exact hfile)
      refine ⟨_, _, rfl, h₁.setFile handle hfile₁, some (w₁.fs.root, bytes), ?_⟩
      obtain ⟨f, hf, -⟩ := Option.bind_eq_some_iff.mp hfile
      have hlt := (List.getElem?_eq_some_iff.mp hf).1
      simp only [World.setFile, hfiles, List.getElem?_set_self hlt, Option.join_some]
  unfold World.committedFor
  split
  · split
    · exact ⟨_, _, rfl, h, _, hfile⟩
    · exact hfresh
  · exact hfresh

/-- Appending to the writer of a slot, which does not fail. -/
theorem append (hfile : w.files[handle]?.join = some (.write name writer cached))
    (data : List Byte) : Moves S w₀ (match w.run (writer.write data), w.files[handle]?.join with
      | (.ok writer, w), some (.write name _ cached) =>
        (Reply.code data.length, w.setFile handle (some (.write name writer cached)))
      | (_, w), _ => (.denied, w)).2 := by
  obtain ⟨hwriter, hpath, hname⟩ := h.good.writing hfile
  have hwp := wp_write (S := S) h.good.fs hwriter data
  rw [hfile, World.run]
  rcases hx : writer.write data w.fs with ⟨e | r, fs'⟩
  · exact (of_wp_error hwp hx).elim
  · have hwrote := of_wp_ok hwp hx
    have h₁ := h.keep hwrote.keeps
    exact h₁.setFile handle ⟨hwrote.ok, hwrote.path.trans hpath, hname⟩

/-- The bytes go to the writer; the tree gets them at the close. -/
theorem fileWrite (handle : Nat) (data : List Byte) :
    Moves S w₀ (w.fileWrite env handle data).2 := by
  unfold World.fileWrite
  cases hfile : w.files[handle]?.join with
  | none => exact h
  | some file =>
    cases file with
    | ext name => exact h
    | read name reader => exact h
    | extWrite name => exact h.askAllowed env name _
    | write name writer cached =>
      obtain ⟨_ | b, w₁, hallow, h₁, hfiles, -⟩ := h.writeAllowed env name <;> simp only [hallow]
      · exact h₁
      · rw [← hfiles] at hfile
        refine h₁.guard fun _ => ?_
        cases b with
        | false => exact h₁.append name hfile data
        | true =>
          obtain ⟨_ | committed, w₂, hcomm, h₂, cached', hfile₂⟩ :=
            h₁.committedFor env name hfile <;> simp only [if_true, hcomm]
          · exact h₂
          · exact h₂.guard fun _ => h₂.append name hfile₂ data

/-- Nothing is published. -/
theorem fileAbort (handle : Nat) : Moves S w₀ (w.fileAbort handle).2 := by
  have h₁ := h.setFile handle (f := none) trivial
  unfold World.fileAbort
  split
  · exact h
  · exact h₁.ask _
  · exact h₁

/-- Past the guards, `delete` touches the path itself. -/
theorem fsDelete (hspare : Passes w.module name → ¬ S (spelled name)) :
    Moves S w₀ (w.fsDelete env name).2 := by
  refine h.guard fun _ => ite (fun _ => h.askAllowed env name _) fun hext =>
    h.guard fun htrust => h.guard fun hpriv => ?_
  have hname := hspare ⟨by simpa using hext, by simpa using htrust, by simpa using hpriv⟩
  exact h.runUnit (stable_delete hname _ h.good.fs)

/-- So does `mkdir`. -/
theorem fsMkdir (hspare : Passes w.module name → ¬ S (spelled name)) :
    Moves S w₀ (w.fsMkdir env name).2 := by
  refine h.guard fun _ => ite (fun _ => h.askAllowed env name _) fun hext =>
    h.guard fun htrust => h.guard fun hpriv => ?_
  have hname := hspare ⟨by simpa using hext, by simpa using htrust, by simpa using hpriv⟩
  exact h.runUnit (stable_mkdir hname _ h.good.fs)

variable {old new : List Byte}

/-- The guards are asked for both names. -/
theorem fsRename (hspare : Passes w.module old → Passes w.module new →
      ∀ p, S p → ¬ spelled old <+: p ∧ ¬ spelled new <+: p) :
    Moves S w₀ (w.fsRename env old new).2 := by
  refine h.guard fun _ => ite (fun _ => ?_) fun hext =>
    h.guard fun htrust => h.guard fun hpriv => ?_
  · obtain ⟨_ | b, w₁, hallow, h₁, -⟩ := h.writeAllowed env old <;> rw [hallow]
    · exact h₁
    · exact h₁.askAllowed env new _
  · simp only [Bool.not_eq_true, Bool.or_eq_false_iff] at hext htrust
    simp only [Bool.or_eq_true, Bool.not_eq_true', not_or, Bool.not_eq_false] at hpriv
    exact h.runUnit (stable_rename
      (hspare ⟨hext.1, htrust.1, hpriv.1⟩ ⟨hext.2, htrust.2, hpriv.2⟩) _ h.good.fs)

/-- Here too, but only the new name is written. -/
theorem fsCopy
    (hspare : Passes w.module old → Passes w.module new → ∀ p, S p → ¬ spelled new <+: p) :
    Moves S w₀ (w.fsCopy env old new).2 := by
  refine h.guard fun _ => h.guard fun hext => h.guard fun htrust => h.guard fun hpriv => ?_
  simp only [Bool.not_eq_true, Bool.or_eq_false_iff] at hext htrust
  simp only [Bool.or_eq_true, Bool.not_eq_true', not_or, Bool.not_eq_false] at hpriv
  exact h.runUnit (stable_copy
    (hspare ⟨hext.1, htrust.1, hpriv.1⟩ ⟨hext.2, htrust.2, hpriv.2⟩) _ h.good.fs)

variable (hS : ∀ p q, S p → p <+: q → S q)

include hS

/-- The directories above the name are made first. -/
theorem store (data : List Byte) (hspare : Passes w.module name → ¬ S (spelled name)) :
    Moves S w₀ (w.store env name data).2 := by
  unfold World.store
  obtain ⟨_ | byPrivate, w₁, hallow, h₁, -, hpass⟩ := h.writeAllowed env name <;> rw [hallow]
  · exact h₁
  · refine ite (fun _ => h₁.ask _) fun hext => h₁.guard fun _ => ?_
    have hname := hspare (hpass nofun (by simpa using hext))
    obtain ⟨_ | _, w₂, hquota, h₂⟩ := h₁.quotaFor env name byPrivate data.length <;> rw [hquota]
    · exact h₂
    · exact h₂.runUnit (stable_upsert hS hname _ h₂.good.fs)

/-- So they are here, before the first byte comes. -/
theorem fileCreate (hspare : Passes w.module name → ¬ S (spelled name)) :
    Moves S w₀ (w.fileCreate env name).2 := by
  unfold World.fileCreate
  obtain ⟨_ | byPrivate, w₁, hallow, h₁, -, hpass⟩ := h.writeAllowed env name <;>
    simp only [hallow]
  · exact h₁
  · cases hslot : w₁.fileSlot with
    | none => exact h₁
    | some r =>
      obtain ⟨i, w₂⟩ := r
      have h₂ := h₁.fileSlot hslot
      refine ite (fun _ => ?_) fun hext => h₂.guard fun _ => ?_
      · obtain ⟨reply, w₃, hreply, h₃⟩ := h₂.asked (.create name)
        rw [hreply]
        cases reply with
        | code n => exact h₃.setFile i trivial
        | denied | bytes | tooSmall => exact h₃
      · have hname := hspare (hpass nofun (by simpa using hext))
        have hstable : Fs.Stable S (openStreamingWrite env.now name : FsM A _) :=
          stable_openStreamingWrite hS hname
        obtain ⟨e | writer, w₃, hopen, h₃⟩ := h₂.run hstable <;> rw [hopen]
        · exact h₃
        · refine h₃.setFile i ?_
          obtain rfl := openStreamingWrite_eq hopen
          exact ⟨⟨[], rfl, rfl⟩, rfl, hname⟩

/-- **A call whose names spare `S` leaves `S` alone.** -/
theorem call {c : HostCall} (hspare : Spares S w.module c) : Moves S w₀ (w.call env c).2 := by
  cases c with
  | fetch name max => exact h.fetch env name max
  | store name data => exact h.store env name hS data hspare
  | fileOpen name => exact h.fileOpen env name
  | fileRead handle offset max => exact h.fileRead env handle offset max
  | fileCreate name => exact h.fileCreate env name hS hspare
  | fileWrite handle data => exact h.fileWrite env handle data
  | fileClose handle => exact h.fileClose env handle
  | fileAbort handle => exact h.fileAbort handle
  | fsList name recursive max => exact h.fsList env name recursive max
  | fsStat name => exact h.fsStat env name
  | fsDelete name => exact h.fsDelete env name hspare
  | fsMkdir name => exact h.fsMkdir env name hspare
  | fsRename old new => exact h.fsRename env hspare
  | fsCopy old new => exact h.fsCopy env hspare

end Moves

/-- The world after a sequence of calls, each in its own environment. -/
def calls (w : World A X) : List (Env × HostCall) → World A X
  | [] => w
  | c :: cs => (w.call c.1 c.2).2.calls cs

theorem calls_append (w : World A X) (cs cs' : List (Env × HostCall)) :
    w.calls (cs ++ cs') = (w.calls cs).calls cs' := by
  induction cs generalizing w with
  | nil => rfl
  | cons c cs ih => exact ih _

/-- The same along a sequence of calls. -/
theorem Moves.calls (hS : ∀ p q, S p → p <+: q → S q) (h : Moves S w₀ w)
    {cs : List (Env × HostCall)} (hspare : ∀ c ∈ cs, Spares S w₀.module c.2) :
    Moves S w₀ (w.calls cs) := by
  induction cs generalizing w with
  | nil => exact h
  | cons c cs ih =>
    obtain ⟨hc, hspare⟩ := List.forall_mem_cons.mp hspare
    exact ih (h.call c.1 hS (h.module ▸ hc)) hspare

end World

end NopeekOS.Wasm
