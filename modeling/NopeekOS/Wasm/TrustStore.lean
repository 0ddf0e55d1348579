import NopeekOS.Storage.NameSpace
import NopeekOS.Wasm.FileHostStable

/-!
# The module and trust stores

`is_trust_critical_path` closes directories with all that is below them, and three
objects by name. What is at and below these paths is left alone by every sequence
of file calls in which no name is an ancestor of a closed path that is moved or
put in place, and no name lies below one of the three objects (`Clear`). Without
the first, renaming `sys` takes the module store away.
-/

namespace NopeekOS.Wasm

open Function
open Lib (ProperPrefix ContentStore)
open Storage Storage.Paths Security

variable {A : ObjectAddress} {X : ExtMachine}

/-- The paths that `is_trust_critical_path` is about. -/
def closedPaths : List (List Name) := closedDirs ++ closedFiles

/-- At or below a closed path. -/
def Protected (p : List Name) : Prop := ∃ a ∈ closedPaths, a <+: p

/-- What is below a protected path is protected. -/
theorem Protected.below {p q : List Name} (h : Protected p) (hpq : p <+: q) : Protected q :=
  let ⟨a, ha, hap⟩ := h
  ⟨a, ha, hap.trans hpq⟩

/-- Not below an object that is closed by its name only. -/
def NameClear (name : List Byte) : Prop := ∀ a ∈ closedFiles, ¬ ProperPrefix a (spelled name)

/-- Not an ancestor of a closed path. -/
def NotAbove (name : List Byte) : Prop := ∀ a ∈ closedPaths, ¬ ProperPrefix (spelled name) a

/-- The condition on the names of a call. -/
def HostCall.Clear : HostCall → Prop
  | .store name _ => NameClear name
  | .fileCreate name => NameClear name
  | .fsDelete name => NameClear name
  | .fsMkdir name => NameClear name
  | .fsRename old new => NameClear old ∧ NotAbove old ∧ NameClear new ∧ NotAbove new
  | .fsCopy _ new => NameClear new ∧ NotAbove new
  | _ => True

/-- The closed paths are not empty, and no slash is in a segment. -/
theorem closedPaths_valid : ∀ a ∈ closedPaths, a ≠ [] ∧ ∀ s ∈ a, SLASH ∉ s := by
  decide

theorem properPrefix_of_ne {l l' : List Name} (h : l <+: l') (hne : l ≠ l') :
    ProperPrefix l l' := by
  obtain ⟨rest, rfl⟩ := h
  exact ⟨rest, fun hnil => hne (by simp [hnil]), rfl⟩

section

variable {name : List Byte} (htrust : isTrustCriticalPath name = false) (hclear : NameClear name)

include htrust hclear

/-- A name that passes the guard and is clear is not closed. -/
theorem not_protected_spelled : ¬ Protected (spelled name) := by
  rintro ⟨a, ha, hpre⟩
  simp only [isTrustCriticalPath, Bool.or_eq_false_iff, List.any_eq_false, Bool.not_eq_true]
    at htrust
  have hvalid := closedPaths_valid a ha
  rcases List.mem_append.mp ha with hdir | hfile
  · have hunder := htrust.1 a hdir
    have : under (joinPath a) (trimSlashes name) = true := by
      rw [under_iff, splitOn_joinPath hvalid.1 hvalid.2]
      exact hpre
    rw [this] at hunder
    cases hunder
  · refine hclear a hfile (properPrefix_of_ne hpre fun heq => ?_)
    have hname := htrust.2 a hfile
    rw [(eq_joinPath_iff hvalid.1 hvalid.2).mpr heq.symm] at hname
    simp at hname

/-- Nothing closed is at, above or below such a name. -/
theorem not_prefix_protected (habove : NotAbove name) {p : List Name} (hp : Protected p) :
    ¬ spelled name <+: p := by
  intro hpre
  obtain ⟨a, ha, hap⟩ := hp
  rcases List.prefix_or_prefix_of_prefix hpre hap with h | h
  · by_cases heq : spelled name = a
    · exact not_protected_spelled htrust hclear ⟨a, ha, heq ▸ List.prefix_rfl⟩
    · exact habove a ha (properPrefix_of_ne h heq)
  · exact not_protected_spelled htrust hclear ⟨a, ha, h⟩

end

/-- A clear call spares the closed paths. -/
theorem HostCall.Clear.spares {c : HostCall} (h : c.Clear) (module : Name) :
    Spares Protected module c := by
  cases c with
  | store | fileCreate | fsDelete | fsMkdir =>
    exact fun hpass => not_protected_spelled hpass.trust h
  | fsRename old new =>
    exact fun hold hnew p hp => ⟨not_prefix_protected hold.trust h.1 h.2.1 hp,
      not_prefix_protected hnew.trust h.2.2.1 h.2.2.2 hp⟩
  | fsCopy old new => exact fun _ hnew p hp => not_prefix_protected hnew.trust h.1 h.2 hp
  | fetch | fileOpen | fileRead | fileWrite | fileClose | fileAbort | fsList | fsStat => trivial

/-- No external volumes. -/
def noVolumes : ExtMachine := ⟨Unit, fun _ _ => (.denied, ())⟩

/-- A module that may do everything. -/
def allRights : Env where
  holds _ := true
  grants := []
  now := 0
  room _ := true
  quota := 0
  budget := 2 ^ 32
  fuel := 64
  encoded _ := 0

/-- A module's world at its start. -/
def World.atStart (module : Name) (fs : Fs numbered) : World numbered noVolumes :=
  ⟨module, 0, [], fs, ()⟩

/-- `sys` and in it the module store, and nothing else. -/
def moduleStore : Fs numbered :=
  ((do
    Fs.mkdir 0 (joinPath [SYS])
    Fs.mkdir 0 (joinPath [SYS, WASM]) : FsM numbered Unit) ⟨ContentStore.empty, numbered.null⟩).2

theorem moduleStore_ok : moduleStore.Ok := by
  have hmkdir (path : List Byte) : Fs.Stable (fun _ => False) (Fs.mkdir 0 path : FsM numbered Unit) :=
    Fs.stable_mkdir id
  exact (Fs.stable_bind (hmkdir _) (fun _ => hmkdir _) ⟨ContentStore.empty, numbered.null⟩
    (rootOk_null _)).ok

/-- **The module and trust stores are left alone** by every sequence of clear
calls, whatever rights the module has at each of them. -/
theorem trust_store_kept (w : World A X) (hfs : w.fs.Ok) (hfiles : w.files = [])
    (cs : List (Env × HostCall)) (hclear : ∀ c ∈ cs, c.2.Clear) (p : List Name)
    (hp : Protected p) : (w.calls cs).fs.view p = w.fs.view p := by
  have hgood : World.Good Protected w := ⟨hfs, by simp [hfiles]⟩
  have hmoves := (World.Moves.refl hgood).calls (fun _ _ => Protected.below) fun c hc =>
    (hclear c hc).spares w.module
  exact hmoves.keeps.view p hp

/-- A name of one segment is below nothing. -/
theorem NameClear.of_segment {name : List Byte} {s : Name} (h : spelled name = [s]) :
    NameClear name := by
  rintro a ha ⟨rest, -, hrest⟩
  have hlong : ∀ a ∈ closedFiles, 1 < a.length := by decide
  have hlen := congrArg List.length hrest
  rw [h, List.length_append, List.length_singleton] at hlen
  have := hlong a ha
  omega

/-- With the module store in place, a directory is made beside `sys` and renamed. -/
theorem trust_store_kept_beside : ∃ fs : Fs numbered, fs.Ok ∧ ((World.atStart [109] fs).calls
      [(allRights, .fsMkdir [97]), (allRights, .fsRename [97] [98])]).fs.view [SYS, WASM]
      = some .dir := by
  have habove (s : Name) (hs : ∀ a ∈ closedPaths, a.head? ≠ some s) {name : List Byte}
      (hname : spelled name = [s]) : NotAbove name := by
    rintro a ha ⟨rest, -, rfl⟩
    exact hs _ ha (by rw [hname]; rfl)
  have ha : spelled [97] = [[97]] := by decide
  have hb : spelled [98] = [[98]] := by decide
  refine ⟨moduleStore, moduleStore_ok, (trust_store_kept _ moduleStore_ok rfl _ ?_ _
    ⟨_, by decide, List.prefix_rfl⟩).trans (by decide +kernel)⟩
  simp only [List.forall_mem_cons, List.not_mem_nil, false_imp_iff, implies_true, and_true]
  exact ⟨.of_segment ha, .of_segment ha, habove _ (by decide) ha, .of_segment hb,
    habove _ (by decide) hb⟩

/-- A module with write rights renames `sys`, and the module store is gone from its place. -/
theorem rename_sys_moves_module_store : ∃ fs : Fs numbered, fs.Ok ∧
    Protected [SYS, WASM] ∧ fs.view [SYS, WASM] = some .dir ∧
    ((World.atStart [109] fs).call allRights (.fsRename (joinPath [SYS]) [120])).1 = .code 0 ∧
    ((World.atStart [109] fs).call allRights (.fsRename (joinPath [SYS]) [120])).2.fs.view
      [SYS, WASM] = none :=
  ⟨moduleStore, moduleStore_ok, ⟨[SYS, WASM], by decide, List.prefix_rfl⟩, by decide +kernel,
    by decide +kernel, by decide +kernel⟩

/-- **File calls only add objects.** Between any two points of a sequence of calls the store only
grows, files that are open at the first point or not; so every root that was good there, the one
that was current among them, reads at the second point as it did. -/
theorem old_roots_kept (w : World A X) (hfs : w.fs.Ok) (hfiles : w.files = [])
    (cs cs' : List (Env × HostCall)) :
    (w.calls cs).fs.Ok ∧ (w.calls cs).fs.store ≤ (w.calls (cs ++ cs')).fs.store ∧
      ∀ root, RootOk (w.calls cs).fs.store root →
        (w.calls (cs ++ cs')).fs.store.view root = (w.calls cs).fs.store.view root := by
  have hspare (module : Name) : ∀ cs : List (Env × HostCall), ∀ c ∈ cs,
      Spares (fun _ => False) module c.2 := by
    intro _ c _
    cases c.2 <;> simp [Spares]
  have hgood : World.Good (fun _ => False) w := ⟨hfs, by simp [hfiles]⟩
  have hfirst := (World.Moves.refl hgood).calls (fun _ _ => False.elim) (hspare _ cs)
  have hthen := (World.Moves.refl hfirst.good).calls (fun _ _ => False.elim) (hspare _ cs')
  rw [World.calls_append]
  exact ⟨hfirst.keeps.ok, hthen.keeps.le, fun _ hroot => funext (hroot.view_mono hthen.keeps.le)⟩

/-- `sys` is renamed while a file is open for writing: the module store is gone, and the root
before still has it. -/
theorem old_roots_kept_rename : ∃ fs : Fs numbered, fs.Ok ∧
    let w := (World.atStart [109] fs).calls [(allRights, .fileCreate [97])]
    let w' := (World.atStart [109] fs).calls ([(allRights, .fileCreate [97])] ++
      [(allRights, .fsRename (joinPath [SYS]) [120])])
    w.files.any Option.isSome ∧ w'.fs.view [SYS, WASM] = none ∧ w.fs.store ≤ w'.fs.store ∧
      w'.fs.store.view w.fs.root [SYS, WASM] = some .dir := by
  obtain ⟨hok, hle, hviews⟩ := old_roots_kept (World.atStart [109] moduleStore) moduleStore_ok rfl
    [(allRights, .fileCreate [97])] [(allRights, .fsRename (joinPath [SYS]) [120])]
  refine ⟨moduleStore, moduleStore_ok, rfl, by decide +kernel, hle, ?_⟩
  rw [hviews _ hok]
  decide +kernel

end NopeekOS.Wasm
