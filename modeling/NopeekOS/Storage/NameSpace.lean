import NopeekOS.Storage.PathsRefine

/-!
# Runs of the path layer

What holds of every root reached from `EMPTY_ROOT` by calls of the path layer: its
name space is finite with valid paths, every directory is sorted by name, and a
directory's size is the sum of the files below it, as far as 64 bits hold it.
-/

namespace NopeekOS.Storage

open Lib Paths FaultState ObjectStore PathCall List

variable {A : ObjectAddress} {st : ObjectStore A} {e : TreeEntry} {es : List TreeEntry} {n : Nat}
  {root : Hash}

/-! ## Directories of a root -/

/-- `es` are the entries of the directory at a path. -/
inductive DirAt (st : ObjectStore A) (root : Hash) : List Name → List TreeEntry → Prop where
  | root {es : List TreeEntry} : st.tree root = some es → DirAt st root [] es
  | down {p : List Name} {es es' : List TreeEntry} {e : TreeEntry} : DirAt st root p es → e ∈ es →
      e.kind = .dir → st.tree e.hash = some es' → DirAt st root (p ++ [e.name]) es'

/-- Every directory of a good root is good, and the view of the root is made of them. -/
theorem DirAt.entriesOk {p : List Name} (hroot : TreeOk st n root) (h : DirAt st root p es) :
    EntriesOk st (TreeOk st n) es ∧ ∀ q, st.view root (p ++ q) = st.viewIn es q := by
  induction h with
  | root htree =>
    obtain ⟨es', htree', hes⟩ := hroot.tree
    rw [htree, Option.some.injEq] at htree'
    subst htree'
    exact ⟨hes, fun q => view_eq_viewIn htree q⟩
  | @down p es es' e hdir he hk htree ih =>
    obtain ⟨hes, hview⟩ := ih
    obtain ⟨hok, -⟩ := (hes.entries e he).dir hk
    obtain ⟨es'', htree', hes'⟩ := hok.tree
    rw [htree, Option.some.injEq] at htree'
    subst htree'
    refine ⟨hes', fun q => ?_⟩
    rw [append_assoc, hview, singleton_append,
      viewIn_of_some (hes.findEntry_eq he), viewEntry_dir hk,
      view_eq_viewIn htree]

/-! ## The files below a directory -/

/-- The files in a directory of depth below `n`, with their bytes. -/
def filesOf (st : ObjectStore A) : Nat → Hash → List (List Name × List Byte)
  | 0, _ => []
  | n + 1, h => ((st.tree h).getD []).flatMap fun e =>
    match e.kind with
    | .file => [([e.name], (st.content e.hash).getD [])]
    | .dir => (filesOf st n e.hash).map fun x => (e.name :: x.1, x.2)

/-- The files at and below an entry. -/
def filesOfEntry (st : ObjectStore A) (n : Nat) (e : TreeEntry) : List (List Name × List Byte) :=
  match e.kind with
  | .file => [([e.name], (st.content e.hash).getD [])]
  | .dir => (filesOf st n e.hash).map fun x => (e.name :: x.1, x.2)

theorem filesOf_succ {h : Hash} (htree : st.tree h = some es) :
    filesOf st (n + 1) h = es.flatMap (filesOfEntry st n) := by
  simp only [filesOf, htree, Option.getD_some]
  rfl

theorem filesOfEntry_head {x : List Name × List Byte} (hx : x ∈ filesOfEntry st n e) :
    ∃ rest, x.1 = e.name :: rest := by
  unfold filesOfEntry at hx
  split at hx
  · exact ⟨[], by rw [mem_singleton.mp hx]⟩
  · obtain ⟨y, -, rfl⟩ := mem_map.mp hx
    exact ⟨y.1, rfl⟩

theorem mem_filesOfEntry (he : EntryOk st (TreeOk st n) e) (ih : TreeOk st n e.hash → ∀ p b,
      (p, b) ∈ filesOf st n e.hash ↔ st.view e.hash p = some (.file b))
    (rest : List Name) (b : List Byte) :
    (e.name :: rest, b) ∈ filesOfEntry st n e ↔ st.viewEntry e rest = some (.file b) := by
  unfold filesOfEntry
  cases hk : e.kind with
  | file =>
    obtain ⟨⟨data, hdata, -⟩, -⟩ := he.file hk
    rw [viewEntry_of_content hk hdata, hdata]
    cases rest with
    | nil => simp [single, eq_comm]
    | cons s rest => simp [single]
  | dir =>
    rw [viewEntry_dir hk, ← ih (he.dir hk).1]
    simp

theorem exists_of_viewIn {s : Name} {rest : List Name} (h : st.viewIn es (s :: rest) ≠ none) :
    ∃ e ∈ es, e.name = s ∧ st.viewIn es (s :: rest) = st.viewEntry e rest := by
  cases hfind : findEntry es s with
  | none => exact absurd (viewIn_of_none hfind rest) h
  | some e =>
    obtain ⟨he, hname⟩ := findEntry_mem hfind
    exact ⟨e, he, hname, viewIn_of_some hfind rest⟩

/-- The enumeration is of the files that the view has. -/
theorem mem_filesOf : ∀ {n : Nat} {h : Hash}, TreeOk st n h → ∀ (p : List Name) (b : List Byte),
    (p, b) ∈ filesOf st n h ↔ st.view h p = some (.file b)
  | n + 1, h, ⟨es, htree, hes⟩, p, b => by
    rw [filesOf_succ htree, view_eq_viewIn htree, mem_flatMap]
    have hentry (e : TreeEntry) (he : e ∈ es) (rest : List Name) :
        (e.name :: rest, b) ∈ filesOfEntry st n e ↔ st.viewEntry e rest = some (.file b) :=
      mem_filesOfEntry (hes.entries e he) (fun hok p b => mem_filesOf hok p b) rest b
    constructor
    · rintro ⟨e, he, hx⟩
      obtain ⟨rest, hrest⟩ := filesOfEntry_head hx
      simp only at hrest
      subst hrest
      rw [viewIn_of_some (hes.findEntry_eq he)]
      exact (hentry e he rest).mp hx
    · intro hview
      cases p with
      | nil => cases hview
      | cons s rest =>
        obtain ⟨e, he, rfl, heq⟩ := exists_of_viewIn (by rw [hview]; exact Option.some_ne_none _)
        exact ⟨e, he, (hentry e he rest).mpr (heq ▸ hview)⟩

/-- No file is listed twice. -/
theorem nodup_filesOf : ∀ {n : Nat} {h : Hash}, TreeOk st n h → (filesOf st n h).Nodup
  | n + 1, h, ⟨es, htree, hes⟩ => by
    rw [filesOf_succ htree, nodup_flatMap]
    refine ⟨fun e he => ?_, hes.sorted.imp ?_⟩
    · unfold filesOfEntry
      cases hk : e.kind with
      | file => simp
      | dir =>
        refine (nodup_filesOf ((hes.entries e he).dir hk).1).map fun x y hxy => ?_
        simp only [Prod.mk.injEq, List.cons.injEq, true_and] at hxy
        exact Prod.ext hxy.1 hxy.2
    · intro a b hab x hxa hxb
      obtain ⟨ra, hra⟩ := filesOfEntry_head hxa
      obtain ⟨rb, hrb⟩ := filesOfEntry_head hxb
      rw [hra, List.cons.injEq] at hrb
      exact absurd hab (by rw [hrb.1]; exact lt_irrefl _)

/-- The number of bytes in a list of files. -/
def totalBytes (files : List (List Name × List Byte)) : Nat :=
  (files.map fun x => x.2.length).sum

/-- Capping the summands does not change a capped sum. -/
theorem min_sum_le_of {α : Type} {s t : α → Nat} {m : Nat} : ∀ {l : List α},
    (∀ x ∈ l, min (s x) m = min (t x) m) → min (l.map s).sum m = min (l.map t).sum m
  | [], _ => rfl
  | a :: l, h => by
    have ha := h a mem_cons_self
    have hl := min_sum_le_of fun x hx => h x (mem_cons_of_mem a hx)
    rw [map_cons, map_cons, sum_cons, sum_cons]
    omega

/-- A directory's size is that of the files below it. -/
theorem recursiveSize_eq_totalBytes : ∀ {n : Nat} {h : Hash}, TreeOk st n h →
    ∀ {es : List TreeEntry}, st.tree h = some es →
      recursiveSize es = min (totalBytes (filesOf st n h)) U64_MAX
  | n + 1, h, ⟨es', htree', hes⟩, es, htree => by
    rw [htree, Option.some.injEq] at htree'
    subst htree'
    rw [recursiveSize_eq_min, filesOf_succ htree]
    have hsum : totalBytes (es.flatMap (filesOfEntry st n))
        = (es.map fun e => totalBytes (filesOfEntry st n e)).sum := by
      unfold totalBytes
      rw [map_flatMap, flatMap_def, sum_flatten, map_map]
      rfl
    rw [hsum]
    refine min_sum_le_of fun e he => ?_
    have hok := hes.entries e he
    unfold filesOfEntry
    cases hk : e.kind with
    | file =>
      obtain ⟨⟨data, hdata, hsize⟩, -⟩ := hok.file hk
      simp [totalBytes, hdata, hsize]
    | dir =>
      obtain ⟨hsub, sub, hsubTree, hsize⟩ := hok.dir hk
      have hbytes : totalBytes ((filesOf st n e.hash).map fun x => (e.name :: x.1, x.2))
          = totalBytes (filesOf st n e.hash) := by
        unfold totalBytes
        rw [map_map]
        rfl
      rw [hsize, recursiveSize_eq_totalBytes hsub hsubTree]
      simp only [hbytes]
      omega

/-! ## The name space is finite, with valid paths -/

theorem finite_view : ∀ {n : Nat} {h : Hash}, TreeOk st n h → {p | st.view h p ≠ none}.Finite
  | n + 1, h, ⟨es, htree, hes⟩ => by
    have hentry : ∀ e ∈ es, {q | st.viewEntry e q ≠ none}.Finite := by
      intro e he
      cases hk : e.kind with
      | dir =>
        have heq : {q | st.viewEntry e q ≠ none} = {q | st.view e.hash q ≠ none} := by
          ext q
          rw [Set.mem_ofPred_eq, Set.mem_ofPred_eq, viewEntry_dir hk]
        rw [heq]
        exact finite_view ((hes.entries e he).dir hk).1
      | file =>
        refine (Set.finite_singleton ([] : List Name)).subset fun q hq => ?_
        rw [Set.mem_ofPred_eq, viewEntry_file hk] at hq
        cases q with
        | nil => rfl
        | cons s q => exact absurd rfl hq
    have hall : (⋃ e ∈ {e | e ∈ es}, (e.name :: ·) '' {q | st.viewEntry e q ≠ none}).Finite :=
      es.finite_toSet.biUnion fun e he => (hentry e he).image _
    refine ((Set.finite_singleton ([] : List Name)).union hall).subset fun p hp => ?_
    cases p with
    | nil => exact .inl rfl
    | cons s rest =>
      rw [Set.mem_ofPred_eq, view_eq_viewIn htree] at hp
      obtain ⟨e, he, rfl, heq⟩ := exists_of_viewIn hp
      rw [heq] at hp
      exact .inr (Set.mem_biUnion (show e ∈ {e | e ∈ es} from he) ⟨rest, hp, rfl⟩)

theorem validSegment_of_view : ∀ {n : Nat} {h : Hash}, TreeOk st n h → ∀ {p : List Name},
    st.view h p ≠ none → ∀ s ∈ p, ValidSegment s
  | n + 1, h, ⟨es, htree, hes⟩, [], _ => by simp
  | n + 1, h, ⟨es, htree, hes⟩, s :: rest, hp => by
    rw [view_eq_viewIn htree] at hp
    obtain ⟨e, he, rfl, heq⟩ := exists_of_viewIn hp
    rw [heq] at hp
    have hok := hes.entries e he
    refine forall_mem_cons.mpr ⟨hok.valid, ?_⟩
    cases hk : e.kind with
    | dir =>
      rw [viewEntry_dir hk] at hp
      exact validSegment_of_view (hok.dir hk).1 hp
    | file =>
      rw [viewEntry_file hk] at hp
      cases rest with
      | nil => simp
      | cons t rest => exact absurd rfl hp

/-- What the name space of a root is like. -/
structure NameSpaceOk (st : ObjectStore A) (root : Hash) : Prop where
  finite : {p | st.view root p ≠ none}.Finite
  valid : ∀ p, st.view root p ≠ none → ValidPath p
  sorted : ∀ p es, DirAt st root p es →
    (es.Pairwise fun a b => a.name < b.name) ∧ ∀ e ∈ es, ValidSegment e.name
  size : ∀ p es, DirAt st root p es → ∀ e ∈ es, e.kind = .dir →
    ∃ files : List (List Name × List Byte), files.Nodup ∧
      (∀ q b, (q, b) ∈ files ↔ st.view root (p ++ e.name :: q) = some (.file b)) ∧
      e.size = min (totalBytes files) U64_MAX

/-- The name `ext` is kept free. -/
def NoExt (v : Space) : Prop := ∀ p, v (EXT_ROOT :: p) = none

theorem RootOk.nameSpaceOk (h : RootOk st root) (hext : NoExt (st.view root)) :
    NameSpaceOk st root := by
  obtain ⟨n, hn⟩ := h
  refine ⟨finite_view hn, fun p hp => ⟨validSegment_of_view hn hp, ?_⟩, ?_, ?_⟩
  · cases p with
    | nil => simp
    | cons s rest =>
      intro hs
      rw [head?_cons, Option.some.injEq] at hs
      exact hp (hs ▸ hext rest)
  · intro p es hdir
    obtain ⟨hes, -⟩ := hdir.entriesOk hn
    exact ⟨hes.sorted, fun e he => (hes.entries e he).valid⟩
  · intro p es hdir e he hk
    obtain ⟨hes, hview⟩ := hdir.entriesOk hn
    obtain ⟨hsub, sub, hsubTree, hsize⟩ := (hes.entries e he).dir hk
    refine ⟨filesOf st n e.hash, nodup_filesOf hsub, fun q b => ?_,
      hsize.trans (recursiveSize_eq_totalBytes hsub hsubTree)⟩
    rw [mem_filesOf hsub, hview, viewIn_of_some (hes.findEntry_eq he),
      viewEntry_dir hk]

/-! ## Runs -/

theorem PathCall.Names.head_ne {path : List Byte} {segs : List Name} (h : Names path segs)
    (p : List Name) : ¬ segs <+: EXT_ROOT :: p := by
  intro hp
  obtain ⟨s, ss, rfl⟩ := exists_cons_of_ne_nil h.2
  exact (validPath_of_parsePath h.1).2 (by rw [(cons_prefix_cons.mp hp).1]; rfl)

/-- No call makes a top-level `ext`. -/
theorem PathCall.Applies.noExt {v v' : Space} {c : PathCall} (h : c.Applies v v')
    (hv : NoExt v) : NoExt v' := by
  intro p
  have hupdate {path : List Byte} {segs : List Name} {node : Option PathNode}
      (hsegs : Names path segs) : Function.update v segs node (EXT_ROOT :: p) = none := by
    have hne : EXT_ROOT :: p ≠ segs := fun h => hsegs.head_ne p (h ▸ prefix_rfl)
    rw [Function.update_of_ne hne]
    exact hv p
  cases c with
  | store now path data | mkdir now path | delete path =>
    obtain ⟨segs, hsegs, rfl⟩ := h
    exact hupdate hsegs
  | rename old new =>
    obtain ⟨os, ns, hos, hns, rfl⟩ := h
    split
    · exact hv p
    · rw [graft_beside _ _ (hns.head_ne p), graft_beside _ _ (hos.head_ne p)]
      exact hv p
  | copy now old new =>
    obtain ⟨os, ns, hos, hns, rfl⟩ := h
    rw [graft_beside _ _ (hns.head_ne p)]
    exact hv p

/-- Roots reached from `EMPTY_ROOT`. A call that fails leaves the root, and maybe
objects that no root leads to. -/
inductive Reach : ObjectStore A → Hash → Prop where
  | empty : Reach ContentStore.empty A.null
  | ok {st st' : ObjectStore A} {root root' : Hash} {c : PathCall} : Reach st root →
      c.exec root st = (.ok root', st') → Reach st' root'
  | failed {st st' : ObjectStore A} {root : Hash} {c : PathCall} {err : PathError} :
      Reach st root → c.exec root st = (.error err, st') → Reach st' root

/-- Every root reached is good. -/
theorem Reach.rootOk (h : Reach st root) : RootOk st root ∧ NoExt (st.view root) := by
  induction h with
  | empty =>
    refine ⟨rootOk_null _, fun p => ?_⟩
    have htree : tree (A := A) ContentStore.empty A.null = some [] := if_pos rfl
    rw [view_eq_viewIn htree]
    rfl
  | @ok st st' root root' c _ hrun ih =>
    have href := of_wp_ok (wp_exec ih.1 c) hrun
    exact ⟨href.rootOk, href.applies.noExt ih.2⟩
  | @failed st st' root c err _ hrun ih =>
    obtain ⟨hle, -⟩ := of_wp_error (wp_exec ih.1 c) hrun
    refine ⟨ih.1.mono hle, fun p => ?_⟩
    rw [ih.1.view_mono hle]
    exact ih.2 p

/-- **The path layer refines a hierarchical name space.** On every root reached
from the empty one, a call succeeds exactly when the name space says so; the new
root's name space is the one it says; and both are well formed. -/
theorem refines_nameSpace {root : Hash} (h : Reach st root) (c : PathCall) : NameSpaceOk st root ∧
    ((∃ root' st', c.exec root st = (.ok root', st')) ↔ c.Succeeds (st.view root)) ∧
    ∀ root' st', c.exec root st = (.ok root', st') →
      c.Applies (st.view root) (st'.view root') ∧ NameSpaceOk st' root' := by
  obtain ⟨hroot, hext⟩ := h.rootOk
  have hwp := wp_exec hroot c
  refine ⟨hroot.nameSpaceOk hext, ⟨?_, ?_⟩, ?_⟩
  · rintro ⟨root', st', hrun⟩
    exact (of_wp_ok hwp hrun).succeeds
  · intro hsucc
    rcases hrun : c.exec root st with ⟨err | root', st'⟩
    · exact absurd hsucc (of_wp_error hwp hrun).2
    · exact ⟨root', st', rfl⟩
  · intro root' st' hrun
    have href := of_wp_ok hwp hrun
    exact ⟨href.applies, href.rootOk.nameSpaceOk (href.applies.noExt hext)⟩

/-! ## An addressing -/

deriving instance Encodable for EntryKind, TreeEntry, Object

/-- Numbering the objects from 1 is an addressing. -/
def numbered : ObjectAddress where
  addr o := Encodable.encode o + 1
  inj := Nat.succ_injective.comp Encodable.encode_injective
  null := 0
  addr_ne _ := Nat.succ_ne_zero _

/-- With the directory `a` there, making `a/b` succeeds, and `a` stays. -/
theorem refines_nameSpace_mkdir : ∃ (st : ObjectStore numbered) (root : Hash), Reach st root ∧
    ∃ root' st', (mkdir 0 [97, SLASH, 98]).exec root st = (.ok root', st') ∧
      st'.view root' [[97], [98]] = some .dir ∧ st'.view root' [[97]] = some .dir ∧
      NameSpaceOk st' root' := by
  have hreach : Reach (A := numbered) _ _ := .ok (c := .mkdir 0 [97]) .empty rfl
  obtain ⟨-, -, happlies⟩ := refines_nameSpace hreach (.mkdir 0 [97, SLASH, 98])
  exact ⟨_, _, hreach, _, _, rfl, by decide +kernel, by decide +kernel, (happlies _ _ rfl).2⟩

/-- Renaming a path to itself succeeds although the target is there, and also
although there is no such path. -/
theorem rename_self_succeeds : (∃ (st : ObjectStore numbered) (root : Hash), Reach st root ∧
      st.view root [[97]] = some .dir ∧
      (rename [97] [97]).exec root st = (.ok root, st)) ∧
    ∃ (st : ObjectStore numbered) (root : Hash), Reach st root ∧ st.view root [[97]] = none ∧
      (rename [97] [97]).exec root st = (.ok root, st) := by
  have hrename (st : ObjectStore numbered) (root : Hash) :
      (rename [97] [97]).exec root st = (.ok root, st) := rfl
  exact ⟨⟨_, _, .ok (c := .mkdir 0 [97]) .empty rfl, by decide +kernel, hrename _ _⟩,
    _, _, .empty, rfl, hrename _ _⟩

end NopeekOS.Storage
