import NopeekOS.Wasm.Fs

/-!
# What the file system functions leave alone

`Stable S x`: run on a good root, `x` only adds objects, leaves a good root, and
every path of `S` names what it named before. `S` is a set of paths closed under
going down. Stability composes, so each function of `fs.rs` and `mod.rs` is stable
as soon as the names it is given stay clear of `S`.
-/

namespace NopeekOS.Wasm

open Lib.FaultState List
open Lib hiding Byte
open Storage Storage.Paths

variable {A : ObjectAddress} {α β : Type} {E : PathError → Fs A → Prop} {data : List Byte}

namespace Fs

/-- The name space. -/
def view (fs : Fs A) : Space := fs.store.view fs.root

/-- A file system with a good root. -/
def Ok (fs : Fs A) : Prop := RootOk fs.store fs.root

/-- `fs'` has all objects of `fs`, a good root, and the same at the paths of `S`. -/
structure Keeps (S : List Name → Prop) (fs fs' : Fs A) : Prop where
  le : fs.store ≤ fs'.store
  ok : fs'.Ok
  view : ∀ p, S p → fs'.view p = fs.view p

variable {S : List Name → Prop} {fs fs' fs'' : Fs A}

theorem Keeps.refl (h : fs.Ok) : Keeps S fs fs := ⟨ContentStore.le_refl _, h, fun _ _ => rfl⟩

theorem Keeps.trans (h : Keeps S fs fs') (h' : Keeps S fs' fs'') : Keeps S fs fs'' :=
  ⟨ContentStore.le_trans h.le h'.le, h'.ok, fun p hp => (h'.view p hp).trans (h.view p hp)⟩

/-- Only objects were added. -/
theorem Keeps.of_le (h : fs.Ok) {st : ObjectStore A} (hle : fs.store ≤ st) :
    Keeps S fs { fs with store := st } :=
  ⟨hle, RootOk.mono hle h, fun p _ => RootOk.view_mono hle h p⟩

/-- Run on a good root, `x` keeps what `S` names. -/
def Stable (S : List Name → Prop) (x : FsM A α) : Prop := ∀ fs, fs.Ok → Keeps S fs (x fs).2

/-! ## Composition -/

theorem stable_pure (a : α) : Stable S (pure a : FsM A α) := fun _ h => .refl h

theorem stable_fault (e : PathError) : Stable S (fault e : FsM A α) :=
  fun _ h => .refl h

theorem stable_gets (f : Fs A → α) : Stable S (gets f : FsM A α) := fun _ h => .refl h

variable (r : Except PathError α)

theorem stable_ofExcept : Stable S (ofExcept r : FsM A α) := by
  intro fs h
  cases r <;> exact .refl h

variable {x : FsM A α} {f : α → FsM A β}

/-- Sequencing with the result that `x` gave. -/
theorem stable_bind_of (hx : Stable S x)
    (hf : ∀ fs a fs', fs.Ok → x fs = (.ok a, fs') → Keeps S fs' (f a fs').2) :
    Stable S (x >>= f) := by
  intro fs h
  have hx := hx fs h
  rcases hrun : x fs with ⟨e | a, fs'⟩ <;> rw [hrun] at hx
  · rw [bind_run_error hrun]
    exact hx
  · rw [bind_run hrun]
    exact hx.trans (hf fs a fs' h hrun)

/-- Sequencing. -/
theorem stable_bind (hx : Stable S x) (hf : ∀ a, Stable S (f a)) : Stable S (x >>= f) :=
  stable_bind_of hx fun fs a fs' h hrun => hf a fs' (by
    have := (hx fs h).ok
    rwa [hrun] at this)

/-- Turning a `NotFound` into an answer. -/
theorem stable_found (hx : Stable S x) : Stable S (found x) := by
  intro fs h
  have hx := hx fs h
  unfold found
  rcases hx' : x fs with ⟨e | a, fs'⟩ <;> rw [hx'] at hx
  · cases e <;> exact hx
  · exact hx

/-! ## Reading -/

/-- A computation that leaves the store as it is. -/
def ReadOnly (x : PathM A α) : Prop := ∀ st, (x st).2 = st

theorem readOnly_bind {x : PathM A α} {f : α → PathM A β} (hx : ReadOnly x)
    (hf : ∀ a, ReadOnly (f a)) : ReadOnly (x >>= f) := by
  intro st
  have hx := hx st
  rcases hrun : x st with ⟨e | a, st'⟩ <;> rw [hrun] at hx
  · rw [bind_run_error hrun]
    exact hx
  · rw [bind_run hrun, hf a st']
    exact hx

theorem readOnly_pure (a : α) : ReadOnly (pure a : PathM A α) := fun _ => rfl

theorem readOnly_fault (e : PathError) : ReadOnly (fault e : PathM A α) := fun _ => rfl

theorem readOnly_ofExcept : ReadOnly (ofExcept r : PathM A α) := fun _ => by cases r <;> rfl

/-- An object is read by its hash. -/
theorem readOnly_fetchTree (h : Hash) : ReadOnly (fetchTree h : PathM A (List TreeEntry)) := by
  intro st
  obtain ⟨e, hrun⟩ := fetchTree_spec h st
  rw [hrun]

theorem readOnly_walkFrom : ∀ (segs : List Name) (hash : Hash) (seg : Name),
    ReadOnly (walkFrom hash seg segs : PathM A WalkOk)
  | segs, hash, seg => by
    unfold walkFrom
    refine readOnly_bind (readOnly_fetchTree hash) fun entries => ?_
    cases findEntry entries seg with
    | none => exact readOnly_fault _
    | some entry =>
      cases segs with
      | nil => exact readOnly_pure _
      | cons seg' segs =>
        simp only
        split
        · exact readOnly_fault _
        · exact readOnly_walkFrom segs _ _

/-- `walk` only reads. -/
theorem readOnly_walk (root : Hash) (path : List Byte) :
    ReadOnly (walk root path : PathM A WalkOk) := by
  refine readOnly_bind (readOnly_ofExcept _) fun segs => ?_
  cases segs with
  | nil => exact readOnly_bind (readOnly_fetchTree root) fun _ => readOnly_pure _
  | cons seg segs => exact readOnly_walkFrom segs root seg

theorem readOnly_listFrom : ∀ (segs : List Name) (hash : Hash),
    ReadOnly (listFrom hash segs : PathM A (List TreeEntry))
  | [], hash => readOnly_fetchTree hash
  | seg :: segs, hash => by
    unfold listFrom
    refine readOnly_bind (readOnly_fetchTree hash) fun entries => ?_
    cases findEntry entries seg with
    | none => exact readOnly_fault _
    | some entry =>
      simp only
      split
      · exact readOnly_fault _
      · exact readOnly_listFrom segs _

/-- So does `list`. -/
theorem readOnly_list (root : Hash) (path : List Byte) :
    ReadOnly (Paths.list root path : PathM A (List TreeEntry)) :=
  readOnly_bind (readOnly_ofExcept _) fun segs => readOnly_listFrom segs root

/-- What only reads keeps everything. -/
theorem ReadOnly.stable {x : Hash → PathM A α} (hx : ∀ root, ReadOnly (x root)) :
    Stable S (onRoot x) := by
  refine fun fs h => .of_le h ?_
  rw [hx]
  exact ContentStore.le_refl _

variable (path : List Byte)

theorem stable_stat : Stable S (stat path : FsM A (Option WalkOk)) :=
  stable_found (ReadOnly.stable fun root => readOnly_walk root path)

theorem stable_list : Stable S (list path : FsM A (Option (List TreeEntry))) :=
  stable_found (ReadOnly.stable fun root => readOnly_list root path)

theorem stable_validate : Stable S (validate path : FsM A Unit) := by
  unfold validate
  split
  · exact stable_fault _
  · exact stable_pure _

theorem stable_existsInner : Stable S (existsInner path : FsM A Bool) := by
  intro fs h
  have hstat := stable_stat (S := S) path fs h
  unfold existsInner
  rcases hrun : stat path fs with ⟨e | (_ | w), fs'⟩ <;> rw [hrun] at hstat <;> exact hstat

variable {path : List Byte}

/-! ## Mutations -/

/-- A call of the path layer that stays clear of `S`. -/
def Avoids (S : List Name → Prop) : PathCall → Prop
  | .store _ path _ => ∀ segs, PathCall.Names path segs → ¬ S segs
  | .mkdir _ path => ∀ segs, PathCall.Names path segs → ¬ S segs
  | .delete path => ∀ segs, PathCall.Names path segs → ¬ S segs
  | .rename old new => ∀ os ns, PathCall.Names old os → PathCall.Names new ns →
      ∀ p, S p → ¬ os <+: p ∧ ¬ ns <+: p
  | .copy _ _ new => ∀ ns, PathCall.Names new ns → ∀ p, S p → ¬ ns <+: p

variable {c : PathCall}

/-- Such a call changes nothing in `S`. -/
theorem Avoids.view (havoid : Avoids S c) {v v' : Space} (h : c.Applies v v') {p : List Name}
    (hp : S p) : v' p = v p := by
  have hupdate {path : List Byte} {segs : List Name} {node : Option PathNode}
      (havoid : ∀ segs, PathCall.Names path segs → ¬ S segs) (hsegs : PathCall.Names path segs) :
      Function.update v segs node p = v p := by
    have hne : p ≠ segs := fun heq => havoid segs hsegs (heq ▸ hp)
    rw [Function.update_of_ne hne]
  cases c with
  | store now path data | mkdir now path | delete path =>
    obtain ⟨segs, hsegs, rfl⟩ := h
    exact hupdate havoid hsegs
  | rename old new =>
    obtain ⟨os, ns, hos, hns, rfl⟩ := h
    obtain ⟨hop, hnp⟩ := havoid os ns hos hns p hp
    split
    · rfl
    · rw [graft_beside _ _ hnp, graft_beside _ _ hop]
  | copy now old new =>
    obtain ⟨os, ns, -, hns, rfl⟩ := h
    rw [graft_beside _ _ (havoid ns hns p hp)]

/-- A success publishes the new root, a failure keeps the old one. -/
theorem wp_commit {x : Hash → PathM A Hash} {Q : Unit → Fs A → Prop}
    (h : wp (x fs.root) (fun root' st' => Q () ⟨st', root'⟩)
      (fun e st' => E e ⟨st', fs.root⟩) fs.store) : wp (commit x) Q E fs := by
  unfold wp at h ⊢
  unfold commit
  rcases hrun : x fs.root fs.store with ⟨e | root', st'⟩ <;> rw [hrun] at h <;> exact h

/-- `x` keeps `S` if both its outcomes do. -/
theorem keeps_of_wp (h : wp x (fun _ fs' => Keeps S fs fs') (fun _ fs' => Keeps S fs fs') fs) :
    Keeps S fs (x fs).2 := by
  unfold wp at h
  rcases hrun : x fs with ⟨e | a, fs'⟩ <;> rw [hrun] at h <;> exact h

/-- Committing such a call. -/
theorem stable_commit (havoid : Avoids S c) :
    Stable S (commit fun root => c.exec root : FsM A Unit) := by
  intro fs h
  refine keeps_of_wp (wp_commit (wp_mono (PathCall.wp_exec h c) ?_ ?_))
  · exact fun root' st' href =>
      ⟨href.le, href.rootOk, fun p hp => havoid.view href.applies hp⟩
  · exact fun e st' hfail => .of_le h hfail.1

/-! ## Names that stay clear of `S` -/

/-- The parent of a name is spelled by the first segments of the name. -/
theorem parsePath_parentOf {name parent : List Byte} {ps : List Name}
    (h : parentOf (trimSlashes name) = some parent) (hp : parsePath parent = .ok ps) :
    ps <+: spelled name := by
  unfold parentOf at h
  split at h
  · rename_i hslash
    injection h with h
    rw [contains_iff_mem] at hslash
    -- The name up to its last slash, and that slash.
    have hne : (trimSlashes name).rdropWhile (· != SLASH) ≠ [] := by
      intro hnil
      have := rdropWhile_eq_nil_iff.mp hnil SLASH hslash
      simp at this
    have hlast : ((trimSlashes name).rdropWhile (· != SLASH)).getLast hne = SLASH := by
      simpa using rdropWhile_last_not _ _ hne
    have hcut : trimSlashes name = parent ++ SLASH :: (trimSlashes name).rtakeWhile (· != SLASH) := by
      have hdrop := dropLast_append_getLast hne
      rw [hlast, h] at hdrop
      have hboth := rdropWhile_append_rtakeWhile (p := (· != SLASH)) (l := trimSlashes name)
      rw [← hdrop] at hboth
      simpa using hboth.symm
    rcases parsePath_ok_iff.mp hp with ⟨-, rfl⟩ | ⟨-, rfl, -⟩
    · exact nil_prefix
    have hhead : parent.dropWhile (· == SLASH) = parent := by
      refine dropWhile_of_prefix (c := trimSlashes name) ⟨_, hcut.symm⟩ ?_
      exact dropWhile_of_prefix ( rdropWhile_prefix _ _) (dropWhile_idempotent _ _)
    -- What is trimmed from the parent's end are slashes.
    have htrim : parent = trimSlashes parent ++ parent.rtakeWhile (· == SLASH) := by
      conv_lhs => rw [← rdropWhile_append_rtakeWhile (p := (· == SLASH)) (l := parent)]
      rw [trimSlashes, hhead]
    have hcont : ∃ rest, trimSlashes name = trimSlashes parent ++ SLASH :: rest := by
      cases htail : parent.rtakeWhile (· == SLASH) with
      | nil =>
        rw [htail, append_nil] at htrim
        exact ⟨_, by rw [← htrim]; exact hcut⟩
      | cons b bs =>
        have hb : b = SLASH := by
          have : b ∈ parent.rtakeWhile (· == SLASH) := by rw [htail]; exact mem_cons_self
          simpa using mem_rtakeWhile_imp this
        rw [htail, hb] at htrim
        refine ⟨bs ++ SLASH :: (trimSlashes name).rtakeWhile (· != SLASH), ?_⟩
        conv_lhs => rw [hcut, htrim]
        simp
    obtain ⟨rest, hrest⟩ := hcont
    rw [spelled, hrest, splitOn_append_cons_self]
    exact prefix_append _ _
  · cases h

variable {now : Nat}

/-- A new directory clear of `S`. -/
theorem stable_mkdir (h : ¬ S (spelled path)) : Stable S (mkdir now path : FsM A Unit) :=
  stable_commit (c := .mkdir now path) fun _ hsegs => names_eq_spelled hsegs ▸ h

/-- A file. -/
theorem stable_write (h : ¬ S (spelled path)) : Stable S (write now path data : FsM A Unit) :=
  stable_commit (c := .store now path data) fun _ hsegs => names_eq_spelled hsegs ▸ h

/-- A path that is there is deleted. -/
theorem stable_delete {name : List Byte} (h : ¬ S (spelled name)) :
    Stable S (delete name : FsM A Unit) := by
  have hdelete : Stable S (deletePath (trimSlashes name) : FsM A Unit) := by
    refine stable_bind (stable_found (stable_commit (c := .delete (trimSlashes name)) ?_))
      fun _ => stable_pure _
    intro segs hsegs
    rw [names_eq_spelled hsegs, spelled_trimSlashes]
    exact h
  refine stable_bind (stable_validate _) fun _ => stable_bind (stable_existsInner _) fun b => ?_
  cases b
  · exact stable_fault _
  · exact hdelete

/-- Only a directory that is not there is made. -/
theorem stable_ensureDir (h : ¬ S (spelled path)) : Stable S (ensureDir now path : FsM A Unit) := by
  refine stable_bind (stable_stat path) fun r => ?_
  cases r with
  | none => exact stable_mkdir h
  | some w =>
    simp only
    split
    · exact stable_pure _
    · exact stable_fault _

section

variable (hS : ∀ p q, S p → p <+: q → S q)

include hS

/-- A path clear of `S` has no prefix in `S`. -/
theorem not_mem_of_prefix {p q : List Name} (hq : ¬ S q) (hp : p <+: q) : ¬ S p :=
  fun h => hq (hS p q h hp)

variable {now : Nat}

/-- The directories on the way to a path clear of `S`. -/
theorem stable_ensureDirsFrom : ∀ (segs acc : List Name),
    (∀ s ∈ acc ++ segs, s ≠ [] ∧ SLASH ∉ s) → ¬ S (acc ++ segs) →
    Stable S (ensureDirsFrom now acc segs : FsM A Unit)
  | [], _, _, _ => stable_pure _
  | seg :: segs, acc, hvalid, h => by
    rw [show acc ++ seg :: segs = (acc ++ [seg]) ++ segs by simp] at hvalid h
    have hacc : spelled (joinPath (acc ++ [seg])) = acc ++ [seg] :=
      spelled_joinPath (by simp) fun s hs => hvalid s (mem_append_left segs hs)
    refine stable_bind (stable_ensureDir ?_) fun _ => stable_ensureDirsFrom segs _ hvalid h
    rw [hacc]
    exact not_mem_of_prefix hS h (prefix_append _ _)

theorem stable_ensureDirs {path : List Byte} (h : ∀ segs, parsePath path = .ok segs → ¬ S segs) :
    Stable S (ensureDirs now path : FsM A Unit) := by
  refine stable_bind_of (stable_ofExcept _) fun fs segs fs' hok hrun => ?_
  cases hparse : parsePath path with
  | error e => rw [hparse] at hrun; cases hrun
  | ok segs' =>
    rw [hparse] at hrun
    cases hrun
    have hvalid := (validPath_of_parsePath hparse).1
    refine stable_ensureDirsFrom hS segs [] (fun s hs => ?_) (h segs hparse) fs hok
    refine ⟨fun hnil => ?_, (hvalid s hs).2⟩
    have := (hvalid s hs).1
    rw [hnil] at this
    cases this

variable {name : List Byte} (h : ¬ S (spelled name))

include h

theorem stable_ensureParents : Stable S (ensureParents now (trimSlashes name) : FsM A Unit) := by
  unfold ensureParents
  cases hparent : parentOf (trimSlashes name) with
  | none => exact stable_pure _
  | some parent =>
    exact stable_ensureDirs hS fun segs hsegs =>
      not_mem_of_prefix hS h (parsePath_parentOf hparent hsegs)

/-- The file and the directories above it. -/
theorem stable_upsert : Stable S (upsert now name data : FsM A Unit) := by
  refine stable_bind (stable_validate _) fun _ => stable_bind (stable_ensureParents hS h) fun _ => ?_
  exact stable_write (by rwa [spelled_trimSlashes])

/-- Only the directories; the file is not there yet. -/
theorem stable_openStreamingWrite :
    Stable S (openStreamingWrite now name : FsM A StreamingWriter) :=
  stable_bind (stable_validate _) fun _ =>
    stable_bind (stable_ensureParents hS h) fun _ => stable_pure _

end

variable {old new : List Byte}

/-- The checks of `rename` and `copy` in front of what they do. -/
theorem stable_checked {x : FsM A Unit} (hx : Stable S x) : Stable S (do
    validate old
    validate new
    if !(← existsInner old) then fault .notFound
    if ← existsInner new then fault .alreadyExists
    x) := by
  refine stable_bind (stable_validate _) fun _ => stable_bind (stable_validate _) fun _ =>
    stable_bind (stable_existsInner _) fun b => ?_
  cases b
  · exact stable_fault _
  · refine stable_bind (stable_existsInner _) fun b => ?_
    cases b
    · exact hx
    · exact stable_fault _

/-- Two names that stay clear of `S`, and above which nothing of `S` is. -/
theorem stable_rename (h : ∀ p, S p → ¬ spelled old <+: p ∧ ¬ spelled new <+: p) :
    Stable S (rename old new : FsM A Unit) := by
  refine stable_checked (stable_commit (c := .rename (trimSlashes old) (trimSlashes new)) ?_)
  intro os ns hos hns
  rw [names_eq_spelled hos, names_eq_spelled hns, spelled_trimSlashes, spelled_trimSlashes]
  exact h

/-- The source may be in `S`. -/
theorem stable_copy (h : ∀ p, S p → ¬ spelled new <+: p) :
    Stable S (copy now old new : FsM A Unit) := by
  refine stable_checked (stable_commit (c := .copy now (trimSlashes old) (trimSlashes new)) ?_)
  intro ns hns
  rw [names_eq_spelled hns, spelled_trimSlashes]
  exact h

/-! ## Readers -/

theorem stable_foldlM {β : Type} {f : β → α → FsM A β} : ∀ (l : List α) (b : β),
    (∀ b, ∀ a ∈ l, Fs.Stable S (f b a)) → Fs.Stable S (l.foldlM f b) := by
  intro l
  induction l with
  | nil => exact fun b _ => stable_pure _
  | cons a l ih =>
    intro b h
    rw [foldlM_cons]
    exact stable_bind (h b a mem_cons_self) fun b' =>
      ih b' fun b x hx => h b x (mem_cons_of_mem a hx)

variable (fuel : Nat)

theorem stable_walkRecursive : ∀ (path : List Byte) (out : List Nat),
    Stable S (walkRecursive fuel path out : FsM A (List Nat × Bool)) := by
  induction fuel with
  | zero => exact fun _ _ => stable_pure _
  | succ fuel ih =>
    intro path out fs h
    have hlist := stable_list (S := S) path fs h
    rcases hrun : list path fs with ⟨e | (_ | entries), fs'⟩ <;> rw [hrun] at hlist <;>
      simp only [walkRecursive, hrun]
    · exact hlist
    · exact hlist
    · refine hlist.trans (stable_foldlM entries _ (fun r e _ => ?_) fs' hlist.ok)
      generalize (if path.isEmpty then e.name else path ++ SLASH :: e.name) = full
      split
      · exact stable_pure _
      · split
        · exact stable_pure _
        · exact ih _ _

/-- The bytes of a tree are only counted. -/
theorem stable_treeBytes (name : List Byte) : Stable S (treeBytes fuel name : FsM A Nat) := by
  intro fs h
  have hstat := stable_stat (S := S) (trimSlashes name) fs h
  rcases hrun : stat (trimSlashes name) fs with ⟨e | (_ | w), fs'⟩ <;> rw [hrun] at hstat <;>
    simp only [treeBytes, hrun]
  · exact hstat
  · exact hstat
  · by_cases hk : w.kind = .file
    · simp only [hk, if_true]
      exact hstat
    simp only [hk, if_false]
    refine hstat.trans (stable_bind (stable_walkRecursive fuel (trimSlashes name) [])
      (fun r => stable_pure _) fs' hstat.ok)

theorem stable_openRange (encoded : EncodedSize) (name : List Byte) (budget : Nat) :
    Stable S (openRange encoded name budget : FsM A RangeReader) := by
  refine stable_bind (stable_validate _) fun _ => stable_bind (stable_stat _) fun r => ?_
  cases r with
  | none => exact stable_fault _
  | some w =>
    simp only
    split
    · exact stable_fault _
    refine stable_bind (stable_gets _) fun o => ?_
    cases o with
    | none => exact stable_fault _
    | some o =>
      simp only
      split
      · exact stable_fault _
      cases o
      · exact stable_pure _
      · exact stable_fault _
      · exact stable_pure _

theorem stable_readAt (reader : RangeReader) (offset len budget : Nat) :
    Stable S (reader.readAt offset len budget : FsM A (List Byte)) := by
  unfold RangeReader.readAt
  split
  · exact stable_pure _
  · cases reader with
    | whole bytes => exact stable_pure _
    | chunked total chunks => exact fun fs h => .refl h

/-! ## Writers -/

/-- The chunks flushed so far are there and add up. -/
def WriterOk (st : ObjectStore A) (w : StreamingWriter) : Prop :=
  ∃ pieces, w.chunkHashes.mapM st.blob = some pieces ∧ pieces.flatten.length = w.written

variable {w : StreamingWriter}

/-- The store may grow. -/
theorem WriterOk.mono {st st' : ObjectStore A} (h : WriterOk st w) (hle : st ≤ st') :
    WriterOk st' w :=
  let ⟨pieces, hmap, hlen⟩ := h
  ⟨pieces, blobs_mono hle hmap, hlen⟩

/-- The object is there afterwards, and the root is the same. -/
theorem wp_putIfAbsent {o : Object} {Q : Hash → Fs A → Prop}
    (h : ∀ st, fs.store ≤ st → st.get (A.addr o) = some o → Q (A.addr o) { fs with store := st }) :
    wp (putIfAbsent o) Q E fs := by
  have hput : wp (Paths.putIfAbsent o)
      (fun a st => a = A.addr o ∧ fs.store ≤ st ∧ st.get (A.addr o) = some o)
      (fun _ _ => False) fs.store := Storage.wp_putIfAbsent fun st hle hget => ⟨rfl, hle, hget⟩
  unfold wp at hput ⊢
  rcases hrun : Paths.putIfAbsent o fs.store with ⟨e | a, st⟩ <;> rw [hrun] at hput <;>
    simp only [putIfAbsent, onRoot, hrun]
  · exact hput.elim
  · obtain ⟨rfl, hle, hget⟩ := hput
    exact h st hle hget

/-- What flushing and writing do: the writer stays good, at the same path. -/
structure Wrote (S : List Name → Prop) (fs : Fs A) (w w' : StreamingWriter) (fs' : Fs A) : Prop where
  keeps : Keeps S fs fs'
  ok : WriterOk fs'.store w'
  path : w'.path = w.path

/-- The buffer becomes a chunk. -/
theorem wp_flushChunk (h : fs.Ok) (hw : WriterOk fs.store w) :
    wp w.flushChunk (fun w' fs' => Wrote S fs w w' fs' ∧ w'.buf = [])
      (fun _ _ => False) fs := by
  unfold StreamingWriter.flushChunk
  split
  · rename_i hbuf
    exact ⟨⟨.refl h, hw, rfl⟩, by simpa using hbuf⟩
  refine (wp_bind _ _).mpr (wp_putIfAbsent fun st hle hget => ?_)
  obtain ⟨pieces, hmap, hlen⟩ := hw.mono hle
  have hblob : st.blob (A.addr (.blob w.buf)) = some w.buf := by rw [ObjectStore.blob, hget]
  refine ⟨⟨.of_le h hle, ⟨pieces ++ [w.buf], ?_, ?_⟩, rfl⟩, rfl⟩
  · rw [mapM_append, hmap]
    simp [hblob]
  · simp [hlen]

/-- Every full buffer is flushed. -/
theorem wp_writeFrom : ∀ {fs : Fs A} {w : StreamingWriter} (data : List Byte), fs.Ok →
    WriterOk fs.store w →
    wp (w.writeFrom fuel data) (fun w' fs' => Wrote S fs w w' fs') (fun _ _ => False) fs := by
  induction fuel with
  | zero => exact fun data h hw => ⟨.refl h, hw, rfl⟩
  | succ fuel ih =>
    intro fs w data h hw
    unfold StreamingWriter.writeFrom
    split
    · exact ⟨.refl h, hw, rfl⟩
    -- The buffer grows first; the chunks are as before.
    simp only
    generalize w.buf ++ data.take (min (STREAMING_CHUNK_SIZE - w.buf.length) data.length) = buf
    have hgrown : WriterOk fs.store { w with buf := buf } := hw
    split
    · refine wp_seq (wp_flushChunk (S := S) h hgrown) fun w₁ fs₁ hw₁ => ?_
      refine wp_mono (ih _ hw₁.1.keeps.ok hw₁.1.ok) (fun w' fs' h' => ?_) fun _ _ h => h
      exact ⟨hw₁.1.keeps.trans h'.keeps, h'.ok, h'.path.trans hw₁.1.path⟩
    · exact wp_mono (ih _ h hgrown) (fun w' fs' h' => { h' with }) fun _ _ h => h

theorem wp_write (h : fs.Ok) (hw : WriterOk fs.store w) (data : List Byte) :
    wp (w.write data) (fun w' fs' => Wrote S fs w w' fs') (fun _ _ => False) fs :=
  wp_writeFrom data.length data h hw

/-- Publishing a file clear of `S`. -/
theorem keeps_finish (h : fs.Ok) (hw : WriterOk fs.store w) (hpath : ¬ S (spelled w.path)) :
    Keeps S fs (w.finish now fs).2 := by
  refine keeps_of_wp ?_
  unfold StreamingWriter.finish
  refine wp_seq_mono (wp_flushChunk (S := S) h hw) (fun _ _ h => h.elim) ?_
  rintro w₁ fs₁ ⟨hw₁, -⟩
  obtain ⟨pieces, hmap, hlen⟩ := hw₁.ok
  refine (wp_bind _ _).mpr (wp_putIfAbsent fun st hle hget => wp_commit ?_)
  have hc : st.content (A.addr (.chunked w₁.written w₁.chunkHashes)) = some pieces.flatten := by
    simp only [ObjectStore.content, hget, blobs_mono hle hmap, hlen, if_true]
  have havoid : Avoids S (.store now w₁.path pieces.flatten) := fun segs hsegs => by
    rw [names_eq_spelled hsegs, hw₁.path]
    exact hpath
  have hinstall : wp (installChunkedFile now fs₁.root w₁.path _ _)
      (fun root' st' => PathCall.Refines fs₁.store fs₁.root (.store now w₁.path _) root' st') _ st :=
    PathCall.wp_installChunkedFile hle hw₁.keeps.ok (by rw [hlen]; exact hget) hc
  rw [hlen] at hinstall
  refine wp_mono hinstall ?_ ?_
  · exact fun root' st' href => hw₁.keeps.trans
      ⟨href.le, href.rootOk, fun p hp => havoid.view href.applies hp⟩
  · exact fun e st' hfail => hw₁.keeps.trans (.of_le hw₁.keeps.ok hfail.1)

end Fs

end NopeekOS.Wasm
