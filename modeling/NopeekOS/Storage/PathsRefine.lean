import NopeekOS.Storage.PathsRebuild

/-!
# The path layer refines a hierarchical name space

A name space is a map from segment lists to directories and files. `Succeeds` and
`apply` say when a call succeeds on it and what it then is. Every call of the path
layer behaves so on the view of its root (`wp_exec`), and this is kept along every
run from the empty root (`Reach`).
-/

namespace NopeekOS.Storage

open Lib Paths FaultState Function ContentStore ObjectStore List

variable {A : ObjectAddress} {st : ObjectStore A} {e : TreeEntry} {es : List TreeEntry} {n : Nat}
  {segs : List Name}

/-- A name space. -/
abbrev Space := List Name → Option PathNode

/-- A call of the path layer. -/
inductive PathCall where
  | store (now : Nat) (path data : List Byte)
  | mkdir (now : Nat) (path : List Byte)
  | delete (path : List Byte)
  | rename (old new : List Byte)
  | copy (now : Nat) (old new : List Byte)

namespace PathCall

/-- The function a call runs. -/
def exec (root : Hash) : PathCall → PathM A Hash
  | .store now path data => Paths.store now root path data
  | .mkdir now path => Paths.mkdir now root path
  | .delete path => Paths.delete root path
  | .rename old new => Paths.rename root old new
  | .copy now old new => Paths.copy now root old new

/-- A path that names something other than the root. -/
def Names (path : List Byte) (segs : List Name) : Prop := parsePath path = .ok segs ∧ segs ≠ []

/-- When a call succeeds. -/
def Succeeds (v : Space) : PathCall → Prop
  | .store _ path _ => ∃ segs, Names path segs ∧ v segs.dropLast = some .dir ∧
      (v segs = none ∨ ∃ bytes, v segs = some (.file bytes))
  | .mkdir _ path => ∃ segs, Names path segs ∧ v segs.dropLast = some .dir ∧ v segs = none
  | .delete path => ∃ segs, Names path segs ∧
      ((∃ bytes, v segs = some (.file bytes)) ∨ v segs = some .dir ∧ ∀ s, v (segs ++ [s]) = none)
  | .rename old new => ∃ os ns, Names old os ∧ Names new ns ∧
      (os = ns ∨ v os ≠ none ∧ ¬ os <+: ns ∧ v ns.dropLast = some .dir ∧ v ns = none)
  | .copy _ old new => ∃ os ns, Names old os ∧ Names new ns ∧
      v os ≠ none ∧ v ns.dropLast = some .dir ∧ v ns = none

/-- The name space after a call that succeeds. -/
def Applies (v : Space) : PathCall → Space → Prop
  | .store _ path data, v' => ∃ segs, Names path segs ∧ v' = update v segs (some (.file data))
  | .mkdir _ path, v' => ∃ segs, Names path segs ∧ v' = update v segs (some .dir)
  | .delete path, v' => ∃ segs, Names path segs ∧ v' = update v segs none
  | .rename old new, v' => ∃ os ns, Names old os ∧ Names new ns ∧ v' = if os = ns then v
        else graft ns (fun p => v (os ++ p)) (graft os (fun _ => none) v)
  | .copy _ old new, v' => ∃ os ns, Names old os ∧ Names new ns ∧
      v' = graft ns (fun p => v (os ++ p)) v

/-- What running a call on a good root comes to. -/
structure Refines (st : ObjectStore A) (root : Hash) (c : PathCall) (root' : Hash)
    (st' : ObjectStore A) : Prop where
  le : st ≤ st'
  rootOk : RootOk st' root'
  succeeds : Succeeds (st.view root) c
  applies : Applies (st.view root) c (st'.view root')

/-- What a call that fails comes to. -/
def Refused (st : ObjectStore A) (root : Hash) (c : PathCall) (_ : PathError)
    (st' : ObjectStore A) : Prop := st ≤ st' ∧ ¬ Succeeds (st.view root) c

end PathCall

/-! ## Grafting a single node -/

/-- A node with nothing below it. -/
def single (node : Option PathNode) : Space
  | [] => node
  | _ :: _ => none

theorem graft_single {v : Space} (node : Option PathNode)
    (hbelow : ∀ s rest, v (segs ++ s :: rest) = none) :
    graft segs (single node) v = update v segs node := by
  funext q
  by_cases hq : segs <+: q
  · obtain ⟨p, rfl⟩ := hq
    rw [graft_below]
    cases p with
    | nil => rw [append_nil, update_self]; rfl
    | cons s rest =>
      rw [update_of_ne (by simp), hbelow]
      rfl
  · have hne : q ≠ segs := fun h => hq (h ▸ prefix_rfl)
    rw [graft_beside _ _ hq, update_of_ne hne]

/-- Below a path that names no directory there is nothing to lose. -/
theorem graft_single_view {root : Hash} (node : Option PathNode)
    (h : st.view root segs ≠ some .dir) :
    graft segs (single node) (st.view root) = update (st.view root) segs node :=
  graft_single node fun s rest => view_below segs s rest h

/-! ## Objects of the calls -/

theorem viewEntry_of_content {data : List Byte} (hk : e.kind = .file)
    (hc : st.content e.hash = some data) : st.viewEntry e = single (some (.file data)) := by
  funext p
  rw [viewEntry_file hk, hc]
  cases p <;> rfl

theorem viewEntry_of_empty (hk : e.kind = .dir) (htree : st.tree e.hash = some []) :
    st.viewEntry e = single (some .dir) := by
  funext p
  rw [viewEntry_dir hk, view_eq_viewIn htree]
  cases p <;> rfl

variable {o : Object} {Q : Hash → ObjectStore A → Prop} {E : PathError → ObjectStore A → Prop}

section

variable (h : ∀ st', st ≤ st' → st'.get (A.addr o) = some o → Q (A.addr o) st')

include h

/-- Putting an object if it is not there. -/
theorem wp_putIfAbsent : wp (putIfAbsent o) Q E st := by
  unfold putIfAbsent
  refine (wp_bind _ _).mpr ?_
  rw [wp_gets]
  cases hget : st.get (A.addr o) with
  | none => exact h _ (st.le_put o) (st.get_put o)
  | some o' =>
    have hsame : o' = o := A.inj (st.addressed hget)
    exact h st (le_refl st) (hsame ▸ hget)

theorem wp_putObject : wp (putObject o) Q E st :=
  h _ (st.le_put o) (st.get_put o)

end

theorem chunksFrom_flatten (size : Nat) (hsize : 0 < size) : ∀ (fuel : Nat) (data : List Byte),
    data.length ≤ fuel → (chunksFrom size fuel data).flatten = data
  | 0, data, h => by
    rw [eq_nil_of_length_eq_zero (Nat.le_zero.mp h)]
    rfl
  | fuel + 1, data, h => by
    unfold chunksFrom
    cases data with
    | nil => rfl
    | cons b data =>
      have hfuel : ((b :: data).drop size).length ≤ fuel := by
        rw [length_drop]
        rw [length_cons] at h ⊢
        omega
      simp only [isEmpty_cons, Bool.false_eq_true, if_false, flatten_cons,
        chunksFrom_flatten size hsize fuel _ hfuel, take_append_drop]

theorem chunks_flatten (data : List Byte) : (chunks data).flatten = data :=
  chunksFrom_flatten _ (by decide) _ data (Nat.le_refl _)

/-- Putting pieces one by one gives the hashes that lead back to them. -/
theorem wp_putPieces : ∀ (pieces : List (List Byte)) {st : ObjectStore A}
    {Q : List Hash → ObjectStore A → Prop} {E : PathError → ObjectStore A → Prop},
    (∀ hashes st', st ≤ st' → hashes.mapM st'.blob = some pieces → Q hashes st') →
    wp (pieces.mapM fun piece => putIfAbsent (.blob piece)) Q E st
  | [], _, _, _, h => h [] _ (le_refl _) rfl
  | piece :: pieces, st, Q, E, h => by
    rw [mapM_cons]
    refine (wp_bind _ _).mpr (wp_putIfAbsent fun st₁ hle₁ hget => ?_)
    refine (wp_bind _ _).mpr (wp_putPieces pieces fun hashes st₂ hle₂ hmap => ?_)
    refine h _ st₂ (le_trans hle₁ hle₂) ?_
    have hblob : st₂.blob (A.addr (.blob piece)) = some piece := by
      rw [blob, hle₂ _ _ hget]
    rw [mapM_cons, hblob, hmap]
    rfl

/-! ## One lemma per call -/

namespace PathCall

variable {path : List Byte} {segs : List Name}

theorem Names.eq {segs' : List Name} (h : Names path segs) (h' : Names path segs') : segs = segs' :=
  Except.ok.inj (h.1.symm.trans h'.1)

section

variable {old new : List Byte} {os ns : List Name}

/-- A path names one thing. -/
theorem Names.exists_iff {P : List Name → Prop} (h : Names path segs) :
    (∃ segs, Names path segs ∧ P segs) ↔ P segs :=
  ⟨fun ⟨_, h', hp⟩ => h.eq h' ▸ hp, fun hp => ⟨segs, h, hp⟩⟩

theorem Names.exists_iff₂ {P : List Name → List Name → Prop} (h : Names old os)
    (h' : Names new ns) : (∃ os ns, Names old os ∧ Names new ns ∧ P os ns) ↔ P os ns :=
  ⟨fun ⟨_, _, h₁, h₂, hp⟩ => h.eq h₁ ▸ h'.eq h₂ ▸ hp, fun hp => ⟨os, ns, h, h', hp⟩⟩

end

theorem Names.dropLast_append (h : Names path segs) :
    ∃ name, segs.getLast? = some name ∧ segs = segs.dropLast ++ [name] :=
  ⟨segs.getLast h.2, getLast?_eq_some_getLast h.2, (dropLast_append_getLast h.2).symm⟩

variable {name : Name}

theorem Names.validName (h : Names path segs) (hname : segs.getLast? = some name) :
    ValidSegment name :=
  (validPath_of_parsePath h.1).1 name (mem_of_getLast? hname)

variable {α : Type} {E : PathError → ObjectStore A → Prop}

/-- A call on a path that parses to something other than the root, or fails. -/
theorem wp_parsed {f : List Name → PathM A α} {Q : α → ObjectStore A → Prop}
    (hbad : (∀ segs, ¬ Names path segs) → ∀ err, E err st)
    (hempty : wp (f []) (fun _ _ => False) (fun _ st' => st' = st) st)
    (hgood : ∀ segs, Names path segs → wp (f segs) Q E st) :
    wp (FaultState.ofExcept (parsePath path) >>= f) Q E st := by
  cases hparse : parsePath path with
  | error err =>
    refine hbad (fun segs h => ?_) err
    rw [h.1] at hparse
    cases hparse
  | ok segs =>
    refine wp_of_run (show FaultState.ofExcept (.ok segs) st = (.ok segs, st) from rfl) ?_
    by_cases hsegs : segs = []
    · subst hsegs
      refine wp_mono hempty (fun _ _ h => h.elim) ?_
      rintro err st' rfl
      refine hbad (fun segs h => h.2 ?_) err
      exact Except.ok.inj (h.1.symm.trans hparse)
    · exact hgood segs ⟨hparse, hsegs⟩

variable {root : Hash} {data : List Byte} {now : Nat} {st₀ : ObjectStore A}

/-- Inserting a file entry at a path. -/
theorem wp_insertFile (hle₀ : st₀ ≤ st) (hroot₀ : RootOk st₀ root) (hsegs : Names path segs)
    (hname : segs.getLast? = some name) (he : e.name = name) (hk : e.kind = .file)
    (hfile : FileOk st e) (hc : st.content e.hash = some data) :
    wp (insertEntryAt root segs e true)
      (Refines st₀ root (.store now path data)) (Refused st₀ root (.store now path data)) st := by
  have hsplit := (dropLast_append_getLast? name hname).symm
  subst he
  have hroot : RootOk st root := hroot₀.mono hle₀
  have hview : st.view root = st₀.view root := funext fun q => hroot₀.view_mono hle₀ q
  have hgood : EntryGood st e :=
    ⟨0, hsegs.validName hname, fun _ => hfile, fun h => absurd (hk.symm.trans h) (by decide)⟩
  have hcan : CanInsert (st.view root) segs .file true ↔
      Succeeds (st₀.view root) (.store now path data) := by
    rw [hview]
    refine Iff.trans ?_ hsegs.exists_iff.symm
    refine and_congr_right fun _ => or_congr_right ?_
    constructor
    · rintro ⟨-, hkind⟩
      obtain ⟨node, hnode, hkind⟩ := Option.map_eq_some_iff.mp hkind
      cases node with
      | dir => cases hkind
      | file bytes => exact ⟨bytes, hnode⟩
    · rintro ⟨bytes, hbytes⟩
      exact ⟨rfl, by rw [hbytes]; rfl⟩
  have hwp := wp_insertEntryAt hroot segs.dropLast hgood true
  rw [← hsplit, hk] at hwp
  refine wp_mono hwp ?_ ?_
  · rintro root' st' ⟨hle, hok, hins, hq⟩
    have hne : st₀.view root segs ≠ some .dir := by
      rw [← hview]
      intro hdir
      rcases hins.2 with h | ⟨-, h⟩
      · rw [hdir] at h
        cases h
      · rw [hdir] at h
        cases h
    refine ⟨le_trans hle₀ hle, hok, hcan.mp hins, segs, hsegs, ?_⟩
    rw [← graft_single_view _ hne, ← viewEntry_of_content hk hc, ← hview]
    exact funext hq
  · rintro _ st' ⟨rfl, hnot⟩
    exact ⟨hle₀, fun h => hnot (hcan.mpr h)⟩

/-- Publishing a manifest whose chunks are there is storing what they add up to. -/
theorem wp_installChunkedFile {manifest : Hash} {hashes : List Hash} (hle₀ : st₀ ≤ st)
    (hroot₀ : RootOk st₀ root) (hget : st.get manifest = some (.chunked data.length hashes))
    (hc : st.content manifest = some data) :
    wp (installChunkedFile now root path manifest data.length)
      (Refines st₀ root (.store now path data)) (Refused st₀ root (.store now path data)) st := by
  refine wp_parsed (fun h _ => ⟨hle₀, fun ⟨segs, hsegs, _⟩ => h segs hsegs⟩) rfl
    fun segs hsegs => ?_
  obtain ⟨name, hname, -⟩ := hsegs.dropLast_append
  simp only [hname]
  exact wp_insertFile hle₀ hroot₀ hsegs hname rfl rfl
    ⟨⟨data, hc, rfl⟩, .inr ⟨⟨_, _, hget⟩, rfl⟩⟩ hc

/-- An entry under another name and time. -/
theorem EntryGood.rename (h : EntryGood st e) (hname : ValidSegment name) (mtime : Nat) :
    EntryGood st { e with name := name, mtime := mtime } :=
  let ⟨n, hn⟩ := h
  ⟨n, hname, hn.file, hn.dir⟩

/-- Two paths that both parse to something other than the root, or fail. -/
theorem wp_parsed₂ {old new : List Byte} {f : List Name → List Name → PathM A α}
    {Q : α → ObjectStore A → Prop}
    (hbad : (∀ os ns, ¬ (Names old os ∧ Names new ns)) → ∀ err, E err st)
    (hempty : ∀ os ns, os = [] ∨ ns = [] → wp (f os ns) (fun _ _ => False) (fun _ st' => st' = st) st)
    (hgood : ∀ os ns, Names old os → Names new ns → wp (f os ns) Q E st) :
    wp (FaultState.ofExcept (parsePath old) >>= fun os =>
      FaultState.ofExcept (parsePath new) >>= fun ns => f os ns) Q E st := by
  refine wp_parsed (fun h err => hbad (fun os _ hn => h os hn.1) err) ?_ fun os hos => ?_
  · cases hnew : parsePath new with
    | error err => exact rfl
    | ok ns => exact hempty [] ns (.inl rfl)
  · refine wp_parsed (fun h err => hbad (fun _ ns hn => h ns hn.2) err) ?_ fun ns hns => ?_
    · exact hempty os [] (.inr rfl)
    · exact hgood os ns hos hns

theorem not_prefix_dropLast {os ns : List Name} (h : ¬ os <+: ns) : ¬ os <+: ns.dropLast :=
  fun h' => h (h'.trans (List.dropLast_prefix ns))

section

variable (hroot : RootOk st root)

include hroot

theorem wp_store (now : Nat) (path data : List Byte) : wp (Paths.store now root path data)
      (Refines st root (.store now path data)) (Refused st root (.store now path data)) st := by
  refine wp_parsed (fun h _ => ⟨le_refl st, fun ⟨segs, hsegs, _⟩ => h segs hsegs⟩) rfl
    fun segs hsegs => ?_
  obtain ⟨name, hname, -⟩ := hsegs.dropLast_append
  simp only [hname]
  split
  · -- Chunks, their manifest, then the file.
    unfold storeChunked
    refine (wp_bind _ _).mpr (wp_putPieces _ fun hashes st₁ hle₁ hmap => ?_)
    refine (wp_bind _ _).mpr (wp_putObject fun st₂ hle₂ hget => ?_)
    have hle := le_trans hle₁ hle₂
    have hc : st₂.content (A.addr (.chunked data.length hashes)) = some data := by
      simp only [content, hget, blobs_mono hle₂ hmap, chunks_flatten, if_true]
    exact wp_installChunkedFile hle hroot hget hc
  · -- One blob.
    refine (wp_bind _ _).mpr (wp_putIfAbsent fun st₁ hle hget => ?_)
    have hc : st₁.content (A.addr (.blob data)) = some data := by
      simp only [content, hget]
    exact wp_insertFile hle hroot hsegs hname rfl rfl
      ⟨⟨data, hc, rfl⟩, .inl ⟨⟨_, hget⟩, rfl⟩⟩ hc

/-- Inserting an entry where there is nothing yet. -/
theorem wp_insertNew (hsegs : Names path segs) (hname : segs.getLast? = some name)
    (he : EntryGood st e) (mtime : Nat) :
    wp (insertEntryAt root segs { e with name := name, mtime := mtime } false)
      (fun root' st' => st ≤ st' ∧ RootOk st' root' ∧
        (st.view root segs.dropLast = some .dir ∧ st.view root segs = none) ∧
        st'.view root' = graft segs (st.viewEntry e) (st.view root))
      (fun _ st' => st' = st ∧
        ¬ (st.view root segs.dropLast = some .dir ∧ st.view root segs = none)) st := by
  have hsplit := (dropLast_append_getLast? name hname).symm
  have hwp := wp_insertEntryAt hroot segs.dropLast
    (EntryGood.rename he (hsegs.validName hname) mtime) false
  simp only at hwp
  rw [← hsplit] at hwp
  refine wp_mono hwp ?_ ?_
  · rintro root' st' ⟨hle, hok, ⟨hdir, hnone | ⟨h, -⟩⟩, hq⟩
    · exact ⟨hle, hok, ⟨hdir, hnone⟩, funext hq⟩
    · cases h
  · rintro _ st' ⟨rfl, hnot⟩
    exact ⟨rfl, fun h => hnot ⟨h.1, .inl h.2⟩⟩

theorem wp_mkdir (now : Nat) (path : List Byte) : wp (Paths.mkdir now root path)
      (Refines st root (.mkdir now path)) (Refused st root (.mkdir now path)) st := by
  refine wp_parsed (fun h _ => ⟨le_refl st, fun hex => hex.elim fun segs hsegs => h segs hsegs.1⟩) rfl
    fun segs hsegs => ?_
  obtain ⟨name, hname, -⟩ := hsegs.dropLast_append
  simp only [hname]
  refine (wp_bind _ _).mpr (wp_putObject fun st₁ hle₁ hget => ?_)
  have htree : st₁.tree (A.addr (.tree [])) = some [] := by
    rw [tree, if_neg (A.addr_ne _), hget]
  have hview : st₁.view root = st.view root := funext fun q => hroot.view_mono hle₁ q
  have hgood : EntryGood st₁ ⟨name, A.addr (.tree []), .dir, 0, now, 0⟩ :=
    ⟨1, hsegs.validName hname, fun h => EntryKind.noConfusion h,
      fun _ => ⟨⟨[], htree, .nil, by simp⟩, [], htree, rfl⟩⟩
  have hwp := wp_insertNew (hroot.mono hle₁) hsegs hname hgood now
  rw [hview, viewEntry_of_empty rfl htree] at hwp
  refine wp_mono hwp ?_ ?_
  · rintro root' st' ⟨hle, hok, hcan, hv⟩
    have hne : st.view root segs ≠ some .dir := by
      rw [hcan.2]
      exact (Option.some_ne_none _).symm
    refine ⟨le_trans hle₁ hle, hok, ⟨segs, hsegs, hcan⟩, segs, hsegs, ?_⟩
    rw [hv, graft_single_view _ hne]
  · rintro _ st' ⟨rfl, hnot⟩
    exact ⟨hle₁, fun h => hnot (hsegs.exists_iff.mp h)⟩

theorem wp_delete (path : List Byte) : wp (Paths.delete root path)
      (Refines st root (.delete path)) (Refused st root (.delete path)) st := by
  refine wp_parsed (fun h _ => ⟨le_refl st, fun ⟨segs, hsegs, _⟩ => h segs hsegs⟩) rfl
    fun segs hsegs => ?_
  obtain ⟨name, -, hsplit⟩ := hsegs.dropLast_append
  have hcan : CanRemove (st.view root) segs true ↔ Succeeds (st.view root) (.delete path) := by
    refine Iff.trans ?_ hsegs.exists_iff.symm
    constructor
    · rintro ⟨hsome, hempty⟩
      obtain ⟨node, hnode⟩ := Option.ne_none_iff_exists'.mp hsome
      cases node with
      | dir => exact .inr ⟨hnode, hempty rfl hnode⟩
      | file bytes => exact .inl ⟨bytes, hnode⟩
    · rintro (⟨bytes, hb⟩ | ⟨hd, hempty⟩)
      · exact ⟨by simp [hb], fun _ hd => by rw [hb] at hd; cases hd⟩
      · exact ⟨by simp [hd], fun _ _ => hempty⟩
  have hwp := wp_removeEntryAt hroot segs.dropLast name true
  rw [← hsplit] at hwp
  rw [if_neg (by simpa using hsegs.2)]
  refine wp_seq_mono hwp ?_ ?_
  · rintro _ st' ⟨rfl, hnot⟩
    exact ⟨le_refl st', fun h => hnot (hcan.mpr h)⟩
  · rintro ⟨x, root'⟩ st' hrem
    refine ⟨hrem.le, hrem.rootOk, hcan.mp hrem.can, segs, hsegs, ?_⟩
    have hbelow : ∀ s rest, st.view root (segs ++ s :: rest) = none := by
      intro s rest
      by_cases hd : st.view root segs = some .dir
      · have hs := hrem.can.2 rfl hd s
        cases rest with
        | nil => exact hs
        | cons t rest =>
          rw [show segs ++ s :: t :: rest = (segs ++ [s]) ++ t :: rest by simp]
          exact view_below _ t rest (by rw [hs]; exact nofun)
      · exact view_below segs s rest hd
    have hnone : (fun _ => none : Space) = single none := by
      funext p
      cases p <;> rfl
    rw [← graft_single none hbelow, ← hnone]
    exact funext hrem.view

theorem wp_rename (old new : List Byte) : wp (Paths.rename root old new)
      (Refines st root (.rename old new)) (Refused st root (.rename old new)) st := by
  refine wp_parsed₂ (fun h _ => ⟨le_refl st, fun ⟨os, ns, hos, hns, _⟩ => h os ns ⟨hos, hns⟩⟩) ?_
    fun os ns hos hns => ?_
  · rintro os ns hempty
    cases hlast : ns.getLast? with
    | none => rfl
    | some name =>
      rcases hempty with rfl | rfl
      · rfl
      · cases hlast
  · obtain ⟨name, hname, -⟩ := hns.dropLast_append
    obtain ⟨oldName, -, hosplit⟩ := hos.dropLast_append
    simp only [hname]
    rw [if_neg (by simpa using hos.2)]
    by_cases heq : os = ns
    · rw [if_pos heq]
      refine ⟨le_refl st, hroot, ⟨os, ns, hos, hns, .inl heq⟩, os, ns, hos, hns, ?_⟩
      rw [if_pos heq]
    · rw [if_neg heq]
      have hcond (h : Succeeds (st.view root) (.rename old new)) :=
        ((hos.exists_iff₂ hns).mp h).resolve_left heq
      have hpre : (decide (os.length < ns.length) && ns.take os.length == os) = true ↔
          os <+: ns := by
        rw [Bool.and_eq_true, decide_eq_true_eq, beq_iff_eq]
        constructor
        · exact fun h => prefix_iff_eq_take.mpr h.2.symm
        · intro h
          refine ⟨lt_of_le_of_ne h.length_le fun hlen => heq (h.eq_of_length hlen), ?_⟩
          exact (prefix_iff_eq_take.mp h).symm
      by_cases hinto : os <+: ns
      · rw [if_pos (hpre.mpr hinto)]
        exact ⟨le_refl st, fun h => (hcond h).2.1 hinto⟩
      rw [if_neg fun h => hinto (hpre.mp h)]
      have hwp := wp_removeEntryAt hroot os.dropLast oldName false
      rw [← hosplit] at hwp
      refine wp_seq_mono hwp ?_ ?_
      · rintro _ st' ⟨rfl, hnot⟩
        exact ⟨le_refl st', fun h => hnot ⟨(hcond h).1, nofun⟩⟩
      · rintro ⟨x, root₁⟩ st₁ hrem
        -- The target is judged in the name space without the source.
        have hview₁ : st₁.view root₁ = graft os (fun _ => none) (st.view root) :=
          funext hrem.view
        have hparent : st₁.view root₁ ns.dropLast = st.view root ns.dropLast := by
          rw [hview₁, graft_beside _ _ (not_prefix_dropLast hinto)]
        have hself : st₁.view root₁ ns = st.view root ns := by
          rw [hview₁, graft_beside _ _ hinto]
        have hins := wp_insertNew hrem.rootOk hns hname (hrem.entry.mono hrem.le) x.mtime
        rw [hparent, hself] at hins
        refine wp_mono hins ?_ ?_
        · rintro root' st' ⟨hle, hok, ⟨hdir, hnone⟩, hv⟩
          refine ⟨le_trans hrem.le hle, hok, ?_, os, ns, hos, hns, ?_⟩
          · exact ⟨os, ns, hos, hns, .inr ⟨hrem.can.1, hinto, hdir, hnone⟩⟩
          · have hentry : st₁.viewEntry x = fun p => st.view root (os ++ p) := funext fun p =>
              (hrem.entry.viewEntry_mono hrem.le p).trans (hrem.entry_view p)
            rw [hv, hentry, hview₁, if_neg heq]
        · rintro _ st' ⟨rfl, hnot⟩
          exact ⟨hrem.le, fun h => hnot (hcond h).2.2⟩

theorem wp_copy (now : Nat) (old new : List Byte) : wp (Paths.copy now root old new)
      (Refines st root (.copy now old new)) (Refused st root (.copy now old new)) st := by
  refine wp_parsed₂ (fun h _ => ⟨le_refl st, fun ⟨os, ns, hos, hns, _⟩ => h os ns ⟨hos, hns⟩⟩) ?_
    fun os ns hos hns => ?_
  · rintro os ns (rfl | rfl)
    · rfl
    · cases os.getLast? <;> rfl
  · obtain ⟨name, hname, -⟩ := hns.dropLast_append
    obtain ⟨oldName, hoName, hosplit⟩ := hos.dropLast_append
    have hcond (h : Succeeds (st.view root) (.copy now old new)) := (hos.exists_iff₂ hns).mp h
    simp only [hname, hoName]
    by_cases heq : os = ns
    · rw [if_pos heq]
      exact ⟨le_refl st, fun h => (hcond h).1 (heq ▸ (hcond h).2.2)⟩
    rw [if_neg heq]
    refine wp_seq_mono (wp_walkForMutation hroot os.dropLast) ?_ ?_
    · rintro _ st' ⟨rfl, hne⟩
      refine ⟨le_refl st', fun h => (hcond h).1 ?_⟩
      rw [hosplit]
      exact view_below _ oldName [] hne
    · rintro trees st' ⟨rfl, -, es, leaf, n, hparent⟩
      rw [hparent.last]
      have hfound := hparent.view_name oldName
      rw [← hosplit] at hfound
      rcases hfound with ⟨hfind, hview⟩ | ⟨x, hfind, hx, hkind, hentry⟩
      · simp only [hfind]
        exact ⟨le_refl st', fun h => (hcond h).1 hview⟩
      · simp only [hfind]
        refine wp_mono (wp_insertNew hroot hns hname ⟨n, hx⟩ now) ?_ ?_
        · rintro root' st'' ⟨hle, hok, ⟨hdir, hnone⟩, hv⟩
          refine ⟨hle, hok, ⟨os, ns, hos, hns, ne_none_of_kind hkind, hdir, hnone⟩, os, ns, hos,
            hns, ?_⟩
          rw [hv, funext hentry]
        · rintro _ st'' ⟨rfl, hfail⟩
          exact ⟨le_refl st'', fun h => hfail (hcond h).2⟩

/-- **Every call behaves on the view of its root as the name space says.** -/
theorem wp_exec (c : PathCall) : wp (c.exec root) (Refines st root c) (Refused st root c) st := by
  cases c with
  | store now path data => exact wp_store hroot now path data
  | mkdir now path => exact wp_mkdir hroot now path
  | delete path => exact wp_delete hroot path
  | rename old new => exact wp_rename hroot old new
  | copy now old new => exact wp_copy hroot now old new

end

end PathCall

end NopeekOS.Storage
