import NopeekOS.Lib.KeyMap
import NopeekOS.Storage.Paths

/-!
# The name space of a root

`view st root` is the map from segment lists to directories and file bytes that a
root hash stands for. `TreeOk st n h` says that `h` is the tree of a directory of
depth below `n` all of whose trees are sorted, with valid names, readable files
and right sizes; the depth makes it a definition by recursion.

Both only grow with the store: putting objects changes neither the view of a
good tree nor that it is good.
-/

namespace NopeekOS.Storage

open Lib Paths ObjectStore

/-- What a path names. -/
inductive PathNode where
  | dir
  | file (bytes : List Byte)
  deriving DecidableEq, Repr

namespace ObjectStore

variable {A : ObjectAddress} {st : ObjectStore A} {es : List TreeEntry} {e : TreeEntry}

/-- The entries of a directory. -/
def tree (st : ObjectStore A) (h : Hash) : Option (List TreeEntry) :=
  if h = A.null then some []
  else match st.get h with
    | some (.tree entries) => some entries
    | _ => none

/-- What a path below `h` names. -/
def view (st : ObjectStore A) : Hash → List Name → Option PathNode
  | _, [] => some .dir
  | h, s :: rest =>
    match findEntry ((st.tree h).getD []) s with
    | none => none
    | some e =>
      match e.kind with
      | .dir => view st e.hash rest
      | .file => if rest.isEmpty then (st.content e.hash).map .file else none

/-- What a path below an entry names. -/
def viewEntry (st : ObjectStore A) (e : TreeEntry) (rest : List Name) : Option PathNode :=
  match e.kind with
  | .dir => st.view e.hash rest
  | .file => if rest.isEmpty then (st.content e.hash).map .file else none

/-- What a path below a list of entries names. -/
def viewIn (st : ObjectStore A) (es : List TreeEntry) : List Name → Option PathNode
  | [] => some .dir
  | s :: rest =>
    match findEntry es s with
    | none => none
    | some e => st.viewEntry e rest

theorem view_eq_viewIn {h : Hash}
    (htree : st.tree h = some es) (p : List Name) : st.view h p = st.viewIn es p := by
  cases p with
  | nil => simp [view, viewIn]
  | cons s rest =>
    simp only [view, viewIn, htree, Option.getD_some]
    rfl

/-- A path below a name that is not there names nothing. -/
theorem viewIn_of_none {s : Name}
    (h : findEntry es s = none) (rest : List Name) : st.viewIn es (s :: rest) = none := by
  simp only [viewIn, h]

theorem viewIn_of_some {s : Name} (h : findEntry es s = some e) (rest : List Name) :
    st.viewIn es (s :: rest) = st.viewEntry e rest := by
  simp only [viewIn, h]

theorem viewEntry_dir (h : e.kind = .dir)
    (rest : List Name) : st.viewEntry e rest = st.view e.hash rest := by
  simp only [viewEntry, h]

theorem viewEntry_file (h : e.kind = .file) (rest : List Name) : st.viewEntry e rest =
      if rest.isEmpty then (st.content e.hash).map .file else none := by
  simp only [viewEntry, h]

end ObjectStore

/-! ## Good trees -/

/-- A component that `parse_path` accepts. -/
def ValidSegment (s : Name) : Prop := checkSegment s = .ok () ∧ SLASH ∉ s

variable {A : ObjectAddress} {h : Hash} {n : Nat} {data : List Byte}

/-- A file whose bytes can be read and whose entry has their number, with the flag
of the object that holds them. -/
def FileOk (st : ObjectStore A) (e : TreeEntry) : Prop :=
  (∃ data, st.content e.hash = some data ∧ e.size = data.length) ∧
  ((∃ data, st.get e.hash = some (.blob data)) ∧ e.flags = TreeEntry.FLAG_BLOB ∨
    (∃ size chunks, st.get e.hash = some (.chunked size chunks)) ∧ e.flags = TreeEntry.FLAG_CHUNKED)

/-- A good entry, where `P` holds of the hashes of good directories. -/
structure EntryOk (st : ObjectStore A) (P : Hash → Prop) (e : TreeEntry) : Prop where
  valid : ValidSegment e.name
  file : e.kind = .file → FileOk st e
  dir : e.kind = .dir → P e.hash ∧ ∃ es, st.tree e.hash = some es ∧ e.size = recursiveSize es

/-- Good entries of one directory. -/
structure EntriesOk (st : ObjectStore A) (P : Hash → Prop) (es : List TreeEntry) : Prop where
  sorted : es.Pairwise fun a b => a.name < b.name
  entries : ∀ e ∈ es, EntryOk st P e

/-- A good directory of depth below `n`. -/
def TreeOk (st : ObjectStore A) : Nat → Hash → Prop
  | 0, _ => False
  | n + 1, h => ∃ es, st.tree h = some es ∧ EntriesOk st (TreeOk st n) es

variable {st st' : ObjectStore A} {P Q : Hash → Prop} {e : TreeEntry} {es : List TreeEntry}

section

variable (hle : st ≤ st')

include hle

theorem tree_mono (htree : st.tree h = some es) : st'.tree h = some es := by
  unfold tree at htree ⊢
  split at htree
  · rename_i hnull
    rw [if_pos hnull]
    exact htree
  · rename_i hnull
    rw [if_neg hnull]
    cases hget : st.get h with
    | none => simp [hget] at htree
    | some o => rwa [hle h o hget, ← hget]

theorem blob_mono (hb : st.blob h = some data) : st'.blob h = some data := by
  unfold blob at hb ⊢
  cases hget : st.get h with
  | none => simp [hget] at hb
  | some o => rwa [hle h o hget, ← hget]

theorem blobs_mono : ∀ {chunks : List Hash} {pieces : List (List Byte)},
    chunks.mapM st.blob = some pieces → chunks.mapM st'.blob = some pieces
  | [], _, h => h
  | c :: cs, pieces, h => by
    rw [List.mapM_cons] at h ⊢
    obtain ⟨piece, hpiece, h⟩ := Option.bind_eq_some_iff.mp h
    obtain ⟨rest, hrest, h⟩ := Option.bind_eq_some_iff.mp h
    rw [blob_mono hle hpiece, blobs_mono hrest]
    exact h

theorem content_mono (hc : st.content h = some data) : st'.content h = some data := by
  unfold content at hc ⊢
  cases hget : st.get h with
  | none => simp [hget] at hc
  | some o =>
    rw [hget] at hc
    rw [hle h o hget]
    cases o with
    | blob _ => exact hc
    | tree _ => exact hc
    | chunked size chunks =>
      simp only at hc ⊢
      cases hpieces : chunks.mapM st.blob with
      | none => simp [hpieces] at hc
      | some pieces => rwa [blobs_mono hle hpieces, ← hpieces]

theorem FileOk.mono (h : FileOk st e) : FileOk st' e := by
  obtain ⟨⟨data, hdata, hsize⟩, hshape⟩ := h
  refine ⟨⟨data, content_mono hle hdata, hsize⟩, ?_⟩
  rcases hshape with ⟨⟨b, hb⟩, hflag⟩ | ⟨⟨size, chunks, hc⟩, hflag⟩
  · exact .inl ⟨⟨b, hle _ _ hb⟩, hflag⟩
  · exact .inr ⟨⟨size, chunks, hle _ _ hc⟩, hflag⟩

theorem EntryOk.mono (h : EntryOk st P e) (hPQ : ∀ h, P h → Q h) : EntryOk st' Q e where
  valid := h.valid
  file hk := (h.file hk).mono hle
  dir hk := by
    obtain ⟨hP, es, htree, hsize⟩ := h.dir hk
    exact ⟨hPQ _ hP, es, tree_mono hle htree, hsize⟩

theorem EntriesOk.mono (h : EntriesOk st P es) (hPQ : ∀ h, P h → Q h) : EntriesOk st' Q es :=
  ⟨h.sorted, fun e he => (h.entries e he).mono hle hPQ⟩

/-- A good tree stays good in a larger store. -/
theorem TreeOk.mono : ∀ {n : Nat} {h : Hash}, TreeOk st n h → TreeOk st' n h
  | _ + 1, _, ⟨es, htree, hes⟩ =>
    ⟨es, tree_mono hle htree, hes.mono hle fun _ h => TreeOk.mono h⟩

end

/-- A larger bound on the depth. -/
theorem TreeOk.deepen : ∀ {n m : Nat} {h : Hash}, n ≤ m → TreeOk st n h → TreeOk st m h
  | _ + 1, _ + 1, _, hnm, ⟨es, htree, hes⟩ =>
    ⟨es, htree, hes.mono (ContentStore.le_refl st)
      fun _ h => TreeOk.deepen (Nat.le_of_succ_le_succ hnm) h⟩

/-- The entries of a good tree. -/
theorem TreeOk.tree (hok : TreeOk st n h) :
    ∃ es, st.tree h = some es ∧ EntriesOk st (TreeOk st n) es := by
  cases n with
  | zero => exact hok.elim
  | succ n =>
    obtain ⟨es, htree, hes⟩ := hok
    exact ⟨es, htree, hes.mono (ContentStore.le_refl st) fun _ h => h.deepen (Nat.le_succ n)⟩

/-! ## The view of a good tree -/

theorem findEntry_mem {s : Name} (h : findEntry es s = some e) : e ∈ es ∧ e.name = s :=
  ⟨List.mem_of_find?_eq_some h, by simpa using List.find?_some h⟩

/-- With unique names, looking a name up is membership. -/
theorem findEntry_eq_some_iff {s : Name} (hnodup : (es.map TreeEntry.name).Nodup) :
    findEntry es s = some e ↔ e ∈ es ∧ e.name = s := find?_key_eq_some hnodup

/-- Names are unique in a good directory. -/
theorem EntriesOk.nodup (h : EntriesOk st P es) : (es.map TreeEntry.name).Nodup :=
  List.pairwise_map.mpr (h.sorted.imp fun hlt => ne_of_lt hlt)

theorem EntriesOk.findEntry_eq (h : EntriesOk st P es) (he : e ∈ es) :
    findEntry es e.name = some e :=
  (findEntry_eq_some_iff h.nodup).mpr ⟨he, rfl⟩

section

variable {rest : List Name} (hle : st ≤ st') (hview : ∀ h, P h → st'.view h rest = st.view h rest)

include hle hview

/-- What is below a good entry is the same in a larger store if what is below good
directories is, -/
theorem EntryOk.viewEntry_of_view (he : EntryOk st P e) :
    st'.viewEntry e rest = st.viewEntry e rest := by
  cases hk : e.kind with
  | dir =>
    rw [viewEntry_dir hk, viewEntry_dir hk]
    exact hview _ (he.dir hk).1
  | file =>
    rw [viewEntry_file hk, viewEntry_file hk]
    obtain ⟨⟨data, hdata, -⟩, -⟩ := he.file hk
    rw [hdata, content_mono hle hdata]

/-- and so is what is below good entries. -/
theorem EntriesOk.viewIn_of_view (hes : EntriesOk st P es) (s : Name) :
    st'.viewIn es (s :: rest) = st.viewIn es (s :: rest) := by
  cases hfind : findEntry es s with
  | none => rw [viewIn_of_none hfind, viewIn_of_none hfind]
  | some e =>
    rw [viewIn_of_some hfind, viewIn_of_some hfind]
    exact (hes.entries e (findEntry_mem hfind).1).viewEntry_of_view hle hview

end

/-- The view of a good tree is the same in a larger store. -/
theorem view_mono (hle : st ≤ st') : ∀ (p : List Name) {n : Nat} {h : Hash}, TreeOk st n h →
    st'.view h p = st.view h p
  | [], _, _, _ => by simp [view]
  | s :: rest, n, h, hok => by
    obtain ⟨es, htree, hes⟩ := hok.tree
    rw [view_eq_viewIn htree, view_eq_viewIn (tree_mono hle htree)]
    exact hes.viewIn_of_view hle (fun _ h => view_mono hle rest h) s

theorem viewEntry_mono (hle : st ≤ st') (he : EntryOk st (TreeOk st n) e)
    (rest : List Name) : st'.viewEntry e rest = st.viewEntry e rest :=
  he.viewEntry_of_view hle fun _ h => view_mono hle rest h

theorem viewIn_mono (hle : st ≤ st') (hes : EntriesOk st (TreeOk st n) es) :
    ∀ p, st'.viewIn es p = st.viewIn es p
  | [] => rfl
  | s :: rest => hes.viewIn_of_view hle (fun _ h => view_mono hle rest h) s

/-- A good entry names something. -/
theorem EntryOk.viewEntry_nil (he : EntryOk st P e) :
    (e.kind = .dir ∧ st.viewEntry e [] = some .dir) ∨
      ∃ data, e.kind = .file ∧ st.viewEntry e [] = some (.file data) := by
  cases hk : e.kind with
  | dir =>
    left
    rw [viewEntry_dir hk]
    exact ⟨rfl, by simp [view]⟩
  | file =>
    obtain ⟨⟨data, hdata, -⟩, -⟩ := he.file hk
    refine .inr ⟨data, rfl, ?_⟩
    rw [viewEntry_file hk, hdata]
    rfl

/-- Nothing is below a path that does not name a directory. -/
theorem view_below {st : ObjectStore A} : ∀ (p : List Name) {h : Hash} (s : Name) (rest : List Name),
    st.view h p ≠ some .dir → st.view h (p ++ s :: rest) = none
  | [], _, _, _, hp => absurd (by simp [view]) hp
  | t :: p, h, s, rest, hp => by
    simp only [view, List.cons_append] at hp ⊢
    cases hfind : findEntry ((st.tree h).getD []) t with
    | none => rfl
    | some e =>
      simp only [hfind] at hp
      cases hk : e.kind with
      | dir =>
        simp only [hk] at hp ⊢
        exact view_below p s rest hp
      | file => simp [hk]

end NopeekOS.Storage
