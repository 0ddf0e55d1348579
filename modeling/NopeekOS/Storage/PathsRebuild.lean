import NopeekOS.Storage.PathsOps

/-!
# Rebuilding a chain of trees (`paths.rs`)

A mutation replaces the entries of one directory and stores every directory above
it again. On the view this is `graft`: what was at and below the named path is
replaced, and nothing else changes.

One `wp` lemma for each function says when it succeeds, in terms of the view
before, and what the view is afterwards. The postcondition of success and that of
failure contradict each other, so together they say exactly when a call succeeds.
-/

namespace NopeekOS.Storage

open Lib Paths FaultState ObjectStore List
open Option (ext map_some some some_or)

variable {A : ObjectAddress} {st : ObjectStore A} {P : Hash → Prop} {e : TreeEntry}
  {es : List TreeEntry} {n : Nat} {cur : Hash × Nat}

/-! ## Rebuilding -/

/-- `es` with the entry `s` pointing at another tree. -/
def redirect (s : Name) (hash size : Nat) (es : List TreeEntry) : List TreeEntry :=
  es.map fun e => if e.name = s then { e with hash := hash, size := size } else e

theorem redirect_names (s : Name) (hash size : Nat) (es : List TreeEntry) :
    (redirect s hash size es).map TreeEntry.name = es.map TreeEntry.name := by
  unfold redirect
  rw [map_map]
  refine map_congr_left fun e _ => ?_
  simp only [Function.comp]
  split <;> rfl

variable {s : Name}

theorem redirect_of_notMem (hash size : Nat) (h : s ∉ es.map TreeEntry.name) :
    redirect s hash size es = es := by
  unfold redirect
  conv_rhs => rw [← map_id es]
  refine map_congr_left fun e he => ?_
  have hname : e.name ≠ s := fun hname => h (hname ▸ mem_map_of_mem he)
  rw [if_neg hname]
  rfl

variable {hash size : Nat}

/-- With unique names the first entry of a name is the only one. -/
theorem setEntry_eq_redirect (hnodup : (es.map TreeEntry.name).Nodup)
    (hmem : s ∈ es.map TreeEntry.name) :
    setEntry s hash size es = some (redirect s hash size es) := by
  induction es with
  | nil => cases hmem
  | cons e es ih =>
    rw [map_cons, nodup_cons] at hnodup
    unfold setEntry
    by_cases hname : e.name = s
    · subst hname
      have htail := redirect_of_notMem hash size hnodup.1
      simp only [beq_self_eq_true, if_true, redirect, map_cons] at htail ⊢
      rw [htail]
    · have htail : s ∈ es.map TreeEntry.name := by
        rcases mem_cons.mp hmem with h | h
        · exact absurd h.symm hname
        · exact h
      simp only [beq_false_of_ne hname, Bool.false_eq_true, if_false, ih hnodup.2 htail,
        map_some, redirect, map_cons, hname]

/-- Names stay, so the same entry is found. -/
theorem findEntry_redirect (t : Name) : findEntry (redirect s hash size es) t =
    (findEntry es t).map fun e => if e.name = s then { e with hash := hash, size := size } else e := by
  unfold findEntry redirect
  rw [find?_map]
  refine congrArg (fun p => (find? p es).map _) (funext fun e => ?_)
  simp only [Function.comp]
  split <;> rfl

theorem findEntry_redirect_of_ne {t : Name} (hne : t ≠ s) :
    findEntry (redirect s hash size es) t = findEntry es t := by
  rw [findEntry_redirect]
  cases hfind : findEntry es t with
  | none => rfl
  | some e =>
    have hname : e.name ≠ s := (findEntry_mem hfind).2.trans_ne hne
    rw [map_some, if_neg hname]

theorem findEntry_redirect_self (h : findEntry es s = some e) :
    findEntry (redirect s hash size es) s = some { e with hash := hash, size := size } := by
  rw [findEntry_redirect, h, map_some, if_pos (findEntry_mem h).2]

theorem redirect_sorted (s : Name) (hash size : Nat) (h : es.Pairwise fun a b => a.name < b.name) :
    (redirect s hash size es).Pairwise fun a b => a.name < b.name := by
  have hnames := pairwise_map.mpr h
  rw [← redirect_names s hash size es] at hnames
  exact pairwise_map.mp hnames

variable {h : Hash} {es' : List TreeEntry}

/-- Redirecting one entry to a good tree of the right size keeps entries good. -/
theorem EntriesOk.redirect (hes : EntriesOk st P es) (hfind : findEntry es s = some e)
    (hk : e.kind = .dir) (hP : P h) (htree : st.tree h = some es') :
    EntriesOk st P (redirect s h (recursiveSize es') es) where
  sorted := redirect_sorted s h (recursiveSize es') hes.sorted
  entries := by
    intro x hx
    obtain ⟨y, hy, rfl⟩ := mem_map.mp hx
    split
    · rename_i hname
      have hye : y = e := by
        have := hes.findEntry_eq hy
        rw [hname, hfind, some.injEq] at this
        exact this.symm
      subst hye
      exact ⟨(hes.entries y hy).valid, fun h => absurd (hk.symm.trans h) (by decide),
        fun _ => ⟨hP, es', htree, rfl⟩⟩
    · exact hes.entries y hy

/-- What rebuilding a chain of trees with other leaf entries gives. -/
structure Rebuilt (st st' : ObjectStore A) (es : List TreeEntry) (segs : List Name)
    (newLeaf : List TreeEntry) (cur : Hash × Nat) : Prop where
  le : st ≤ st'
  tree : ∃ es', st'.tree cur.1 = some es' ∧ cur.2 = recursiveSize es' ∧
    (∃ m, EntriesOk st' (TreeOk st' m) es') ∧
    (∀ p, st'.viewIn es' (segs ++ p) = st.viewIn newLeaf p) ∧
    ∀ q, ¬ segs <+: q → st'.viewIn es' q = st.viewIn es q

theorem findEntry_perm (h : es.Perm es') (hnodup : (es.map TreeEntry.name).Nodup) (s : Name) :
    findEntry es s = findEntry es' s := by
  have hnodup' : (es'.map TreeEntry.name).Nodup := (h.map _).nodup_iff.mp hnodup
  refine ext fun e => ?_
  rw [findEntry_eq_some_iff hnodup, findEntry_eq_some_iff hnodup', h.mem_iff]

theorem viewIn_perm (h : es.Perm es') (hnodup : (es.map TreeEntry.name).Nodup) (p : List Name) :
    st.viewIn es p = st.viewIn es' p := by
  cases p with
  | nil => rfl
  | cons s rest => simp only [viewIn, findEntry_perm h hnodup s]

/-- Entries of which `store_tree` makes a good directory. -/
structure LeafOk (st : ObjectStore A) (n : Nat) (es : List TreeEntry) : Prop where
  nodup : (es.map TreeEntry.name).Nodup
  entries : ∀ e ∈ es, EntryOk st (TreeOk st n) e

theorem LeafOk.sort (h : LeafOk st n es) : EntriesOk st (TreeOk st n) (sortEntries es) :=
  ⟨sortEntries_sorted h.nodup, fun e he => h.entries e ((perm_sortEntries es).mem_iff.mp he)⟩

theorem EntriesOk.leafOk (h : EntriesOk st (TreeOk st n) es) : LeafOk st n es :=
  ⟨h.nodup, h.entries⟩

variable {st' : ObjectStore A} {newLeaf : List TreeEntry}

/-- The leaf of a rebuilt chain. -/
theorem Rebuilt.leaf (hnew : LeafOk st n newLeaf) (hle : st ≤ st')
    (htree : st'.tree h = some (sortEntries newLeaf)) :
    Rebuilt st st' es [] newLeaf (h, recursiveSize newLeaf) where
  le := hle
  tree := by
    have hsort : EntriesOk st' (TreeOk st' n) (sortEntries newLeaf) :=
      hnew.sort.mono hle fun _ h => h.mono hle
    refine ⟨_, htree, recursiveSize_perm (perm_sortEntries newLeaf).symm, ⟨n, hsort⟩, ?_, ?_⟩
    · intro p
      rw [nil_append, viewIn_mono hle hnew.sort,
        viewIn_perm (perm_sortEntries newLeaf).symm hnew.nodup]
    · exact fun q hq => absurd nil_prefix hq

variable {segs : List Name}

/-- One ancestor more. -/
theorem Rebuilt.down {st'' : ObjectStore A} {next : List TreeEntry}
    (hes : EntriesOk st (TreeOk st n) es) (hfind : findEntry es s = some e) (hk : e.kind = .dir)
    (htree : st.tree e.hash = some next) (hcur : Rebuilt st st' next segs newLeaf cur)
    (hle : st' ≤ st'') (htop : st''.tree h = some (redirect s cur.1 cur.2 es)) :
    Rebuilt st st'' es (s :: segs) newLeaf (h, recursiveSize (redirect s cur.1 cur.2 es)) := by
  obtain ⟨hle', es', htree', hsize, ⟨m, hok⟩, hbelow, hbeside⟩ := hcur
  have hle'' := ContentStore.le_trans hle' hle
  have hgood : TreeOk st'' (m + 1) cur.1 := TreeOk.mono hle ⟨es', htree', hok⟩
  have hold : EntriesOk st'' (TreeOk st'' (max n (m + 1))) es :=
    hes.mono hle'' fun _ h => (h.mono hle'').deepen (Nat.le_max_left _ _)
  have hview : ∀ p, st''.viewIn (redirect s cur.1 cur.2 es) (s :: p) = st'.viewIn es' p := by
    intro p
    have hdir : ({ e with hash := cur.1, size := cur.2 } : TreeEntry).kind = .dir := hk
    rw [viewIn_of_some (findEntry_redirect_self hfind), viewEntry_dir hdir,
      view_eq_viewIn (tree_mono hle htree'), viewIn_mono hle hok]
  refine ⟨hle'', _, htop, rfl, ⟨max n (m + 1), ?_⟩, ?_, ?_⟩
  · rw [hsize]
    exact hold.redirect hfind hk (hgood.deepen (Nat.le_max_right _ _)) (tree_mono hle htree')
  · intro p
    rw [cons_append, hview, hbelow]
  · rintro (_ | ⟨t, q⟩) hq
    · rfl
    · by_cases hts : t = s
      · subst hts
        rw [hview, hbeside q fun hp => hq (cons_prefix_cons.mpr ⟨rfl, hp⟩),
          viewIn_of_some hfind, viewEntry_dir hk,
          view_eq_viewIn htree]
      · have hsame : findEntry (redirect s cur.1 cur.2 es) t = findEntry es t :=
          findEntry_redirect_of_ne hts
        have hin : st''.viewIn (redirect s cur.1 cur.2 es) (t :: q) = st''.viewIn es (t :: q) := by
          simp only [viewIn, hsame]
        rw [hin, viewIn_mono hle'' hes]

variable {trees : List (List TreeEntry)} {k : Nat}

section

variable (htrees : Trees st es segs trees) (hes : EntriesOk st (TreeOk st n) es)
  (hnew : LeafOk st k newLeaf)

include htrees hes hnew

/-- Storing new leaf entries and every ancestor with its new child. -/
theorem wp_rebuild :
    wp (storeTree newLeaf >>= fun c => (segs.zip trees).foldrM (fun a c => rebuildStep c a) c)
      (fun cur st' => Rebuilt st st' es segs newLeaf cur) (fun _ _ => False) st := by
  induction htrees with
  | leaf es =>
    refine wp_seq (wp_storeTree (fun e he => (hnew.entries e he).valid) ?_) fun cur st' h => h
    exact fun st' h hle htree => .leaf hnew hle htree
  | @down es next s segs e trees hfind hk htree htrees ih =>
    obtain ⟨hok, -⟩ := (hes.entries e (findEntry_mem hfind).1).dir hk
    obtain ⟨next', htree', hnext⟩ := hok.tree
    rw [htree, some.injEq] at htree'
    subst htree'
    have hmem : s ∈ es.map TreeEntry.name :=
      (findEntry_mem hfind).2 ▸ mem_map_of_mem (findEntry_mem hfind).1
    simp only [zip_cons_cons, foldrM_cons]
    rw [← bind_assoc]
    refine wp_seq (ih hnext) fun cur st' hcur => ?_
    unfold rebuildStep
    rw [setEntry_eq_redirect hes.nodup hmem]
    refine wp_storeTree ?_ fun st'' h hle htop => ?_
    · intro x hx
      obtain ⟨y, hy, rfl⟩ := mem_map.mp hx
      split <;> exact (hes.entries y hy).valid
    · refine .down hes hfind hk htree hcur hle ?_
      have hsorted := redirect_sorted s cur.1 cur.2 hes.sorted
      rwa [sortEntries, (hsorted.imp le_of_lt).insertionSort_eq] at htop

theorem wp_rebuildUp : wp (rebuildUp segs trees newLeaf)
      (fun h st' => ∃ size, Rebuilt st st' es segs newLeaf (h, size)) (fun _ _ => False) st := by
  unfold rebuildUp
  rw [← bind_assoc]
  exact wp_seq (wp_rebuild htrees hes hnew) fun cur st' hcur => ⟨cur.2, hcur⟩

end

/-! ## Inserting and removing an entry -/

/-- The entries with other names. -/
def withoutName (name : Name) (es : List TreeEntry) : List TreeEntry :=
  es.filter fun e => e.name != name

variable {name : Name}

theorem withoutName_eq_self (h : findEntry es name = none) : withoutName name es = es := by
  refine filter_eq_self.mpr fun e he => ?_
  simpa using find?_eq_none.mp h e he

/-- Removing the first entry of a name removes all of them when names are unique. -/
theorem eraseP_eq_withoutName (hnodup : (es.map TreeEntry.name).Nodup) :
    es.eraseP (fun e => e.name == name) = withoutName name es := by
  unfold withoutName
  induction es with
  | nil => rfl
  | cons e es ih =>
    rw [map_cons, nodup_cons] at hnodup
    by_cases hname : e.name = name
    · subst hname
      rw [eraseP_cons_of_pos (by simp), filter_cons_of_neg (by simp)]
      refine (filter_eq_self.mpr fun x hx => ?_).symm
      have hne : x.name ≠ e.name := fun h => hnodup.1 (h ▸ mem_map_of_mem hx)
      simpa using hne
    · rw [eraseP_cons_of_neg (by simpa using hname),
        filter_cons_of_pos (by simpa using hname), ih hnodup.2]

theorem findEntry_withoutName_self (name : Name) (es : List TreeEntry) :
    findEntry (withoutName name es) name = none := by
  refine find?_eq_none.mpr fun e he => ?_
  simpa using (mem_filter.mp he).2

theorem findEntry_withoutName_of_ne (hne : s ≠ name) :
    findEntry (withoutName name es) s = findEntry es s := by
  unfold findEntry withoutName
  rw [find?_filter]
  refine congrArg (fun p => find? p es) (funext fun e => ?_)
  by_cases hs : e.name = s
  · simp [hs, hne]
  · simp [hs]

theorem LeafOk.withoutName (h : LeafOk st n es) (name : Name) : LeafOk st n (withoutName name es) :=
  ⟨(filter_sublist.map _).nodup h.nodup, fun e he => h.entries e (mem_of_mem_filter he)⟩

/-- A leaf with one new entry. -/
theorem LeafOk.insert (h : LeafOk st n es) (he : EntryOk st (TreeOk st n) e) :
    LeafOk st n (Storage.withoutName e.name es ++ [e]) where
  nodup := by
    rw [map_append, nodup_append]
    refine ⟨(h.withoutName e.name).nodup, by simp, ?_⟩
    intro a ha b hb hab
    obtain ⟨x, hx, rfl⟩ := mem_map.mp ha
    simp only [map_cons, map_nil, mem_singleton] at hb
    have := (mem_filter.mp hx).2
    simp [hab, hb] at this
  entries x hx := by
    rcases mem_append.mp hx with hx | hx
    · exact (h.withoutName e.name).entries x hx
    · rw [mem_singleton.mp hx]
      exact he

/-- A name space with `f` in place of what it has at and below `segs`. -/
def graft (segs : List Name) (f v : List Name → Option PathNode) (q : List Name) :
    Option PathNode :=
  if segs <+: q then f (q.drop segs.length) else v q

theorem graft_below (segs : List Name) (f v : List Name → Option PathNode) (p : List Name) :
    graft segs f v (segs ++ p) = f p := by
  rw [graft, if_pos (prefix_append _ _), drop_left]

theorem graft_beside {q : List Name} (f v : List Name → Option PathNode) (h : ¬ segs <+: q) :
    graft segs f v q = v q := if_neg h

theorem viewIn_insert (e : TreeEntry) (es : List TreeEntry) (q : List Name) :
    st.viewIn (withoutName e.name es ++ [e]) q = graft [e.name] (st.viewEntry e) (st.viewIn es) q := by
  cases q with
  | nil => rw [graft_beside _ _ (by simp)]; rfl
  | cons s rest =>
    by_cases hs : s = e.name
    · subst hs
      have hfind : findEntry (withoutName e.name es ++ [e]) e.name = some e := by
        have hnone := findEntry_withoutName_self e.name es
        unfold findEntry at hnone ⊢
        rw [find?_append, hnone]
        simp
      rw [viewIn_of_some hfind]
      exact (graft_below [_] _ _ rest).symm
    · have hfind : findEntry (withoutName e.name es ++ [e]) s = findEntry es s := by
        have hsame : findEntry (withoutName e.name es) s = findEntry es s :=
          findEntry_withoutName_of_ne hs
        have hlast : [e].find? (fun x => x.name == s) = none := by simp [Ne.symm hs]
        unfold findEntry at hsame ⊢
        rw [find?_append, hsame, hlast, Option.or_none]
      rw [graft_beside _ _ (by simpa [cons_prefix_cons] using Ne.symm hs)]
      simp only [viewIn, hfind]

theorem viewIn_withoutName (name : Name) (es : List TreeEntry) (q : List Name) :
    st.viewIn (withoutName name es) q = graft [name] (fun _ => none) (st.viewIn es) q := by
  cases q with
  | nil => rw [graft_beside _ _ (by simp)]; rfl
  | cons s rest =>
    by_cases hs : s = name
    · subst hs
      rw [viewIn_of_none (findEntry_withoutName_self s es)]
      exact (graft_below [s] (fun _ => none) _ rest).symm
    · rw [graft_beside _ _ (by simpa [cons_prefix_cons] using Ne.symm hs)]
      simp only [viewIn, findEntry_withoutName_of_ne hs]

variable {leaf : List TreeEntry} {root : Hash}

/-- Replacing the leaf of a chain grafts onto the view of the root. -/
theorem Rebuilt.view_graft {f : List Name → Option PathNode}
    (h : Rebuilt st st' es segs newLeaf cur) (hroot : st.tree root = some es)
    (hleaf : ∀ p, st.viewIn es (segs ++ p) = st.viewIn leaf p)
    (hnew : ∀ p, st.viewIn newLeaf p = graft [name] f (st.viewIn leaf) p) (q : List Name) :
    st'.view cur.1 q = graft (segs ++ [name]) f (st.view root) q := by
  obtain ⟨-, es', htree, -, -, hbelow, hbeside⟩ := h
  rw [view_eq_viewIn htree]
  by_cases hq : segs <+: q
  · obtain ⟨p, rfl⟩ := hq
    rw [hbelow, hnew]
    by_cases hp : [name] <+: p
    · obtain ⟨r, rfl⟩ := hp
      rw [graft_below, ← append_assoc, graft_below]
    · have hp' : ¬ segs ++ [name] <+: segs ++ p := fun h => hp (prefix_append_right_inj _ |>.mp h)
      rw [graft_beside _ _ hp, graft_beside _ _ hp', view_eq_viewIn hroot, hleaf]
  · have hq' : ¬ segs ++ [name] <+: q := fun h => hq ((prefix_append _ _).trans h)
    rw [hbeside q hq, graft_beside _ _ hq', view_eq_viewIn hroot]

/-! ## Good roots -/

/-- A root whose whole name space is good. -/
def RootOk (st : ObjectStore A) (root : Hash) : Prop := ∃ n, TreeOk st n root

theorem RootOk.mono (hle : st ≤ st') (h : RootOk st root) : RootOk st' root :=
  let ⟨n, hn⟩ := h
  ⟨n, hn.mono hle⟩

/-- `EMPTY_ROOT` is a good root. -/
theorem rootOk_null (st : ObjectStore A) : RootOk st A.null :=
  ⟨1, [], by simp [tree], ⟨.nil, by simp⟩⟩

/-- An entry that may stand in a directory of a good root. -/
def EntryGood (st : ObjectStore A) (e : TreeEntry) : Prop := ∃ n, EntryOk st (TreeOk st n) e

theorem EntryGood.mono (hle : st ≤ st') (h : EntryGood st e) : EntryGood st' e :=
  let ⟨n, hn⟩ := h
  ⟨n, hn.mono hle fun _ h => h.mono hle⟩

theorem EntryGood.viewEntry_mono (hle : st ≤ st') (h : EntryGood st e) (p : List Name) :
    st'.viewEntry e p = st.viewEntry e p :=
  let ⟨_, hn⟩ := h
  Storage.viewEntry_mono hle hn p

theorem RootOk.view_mono (hle : st ≤ st') (h : RootOk st root) (p : List Name) :
    st'.view root p = st.view root p :=
  let ⟨_, hn⟩ := h
  Storage.view_mono hle p hn

/-- The parent directory of a mutation and what lies in it. -/
structure Parent (st : ObjectStore A) (root : Hash) (segs : List Name)
    (trees : List (List TreeEntry)) (es leaf : List TreeEntry) (n : Nat) : Prop where
  rootTree : st.tree root = some es
  entriesOk : EntriesOk st (TreeOk st n) es
  chain : Trees st es segs trees
  last : trees.getLastD [] = leaf
  leafOk : EntriesOk st (TreeOk st n) leaf
  view : ∀ p, st.view root (segs ++ p) = st.viewIn leaf p

/-- `walk_for_mutation` finds the parent iff it is a directory. -/
theorem wp_walkForMutation (hroot : RootOk st root) (segs : List Name) :
    wp (walkForMutation root segs)
      (fun trees st' => st' = st ∧ st.view root segs = some .dir ∧
        ∃ es leaf n, Parent st root segs trees es leaf n)
      (fun _ st' => st' = st ∧ st.view root segs ≠ some .dir) st := by
  obtain ⟨n, hn⟩ := hroot
  obtain ⟨es, htree, hes⟩ := hn.tree
  refine wp_of_run (fetchTree_run htree) (wp_mono (wp_walkTrees segs hes) ?_ ?_)
  · rintro trees st' ⟨rfl, htrees, hdir⟩
    obtain ⟨hleaf, hview⟩ := htrees.last hes
    refine ⟨rfl, (view_eq_viewIn htree _).trans hdir, es, trees.getLastD [], n, ?_⟩
    exact ⟨htree, hes, htrees, rfl, hleaf,
      fun p => (view_eq_viewIn htree _).trans (hview p)⟩
  · rintro _ st' ⟨rfl, hne⟩
    exact ⟨rfl, by rwa [view_eq_viewIn htree]⟩

/-- Replacing the entries of the parent. -/
theorem Parent.wp_rebuildUp {f : List Name → Option PathNode}
    (h : Parent st root segs trees es leaf n) (hnew : LeafOk st k newLeaf)
    (hview : ∀ p, st.viewIn newLeaf p = graft [name] f (st.viewIn leaf) p) :
    wp (rebuildUp segs trees newLeaf)
      (fun root' st' => st ≤ st' ∧ RootOk st' root' ∧
        ∀ q, st'.view root' q = graft (segs ++ [name]) f (st.view root) q)
      (fun _ _ => False) st := by
  refine wp_mono (Storage.wp_rebuildUp h.chain h.entriesOk hnew) ?_ fun _ _ h => h
  rintro root' st' ⟨size, hrebuilt⟩
  have hleaf : ∀ p, st.viewIn es (segs ++ p) = st.viewIn leaf p := fun p =>
    (view_eq_viewIn h.rootTree _).symm.trans (h.view p)
  refine ⟨hrebuilt.le, ?_, hrebuilt.view_graft h.rootTree hleaf hview⟩
  obtain ⟨es', htree, -, ⟨m, hok⟩, -⟩ := hrebuilt.tree
  exact ⟨m + 1, es', htree, hok⟩

/-- The kind of what a path names. -/
def PathNode.kind : PathNode → EntryKind
  | .dir => .dir
  | .file _ => .file

theorem EntryOk.viewEntry_kind (he : EntryOk st P e) :
    (st.viewEntry e []).map PathNode.kind = some e.kind := by
  rcases he.viewEntry_nil with ⟨hk, hview⟩ | ⟨data, hk, hview⟩ <;> rw [hview, hk] <;> rfl

/-- What a name in the parent stands for. -/
theorem Parent.view_name (h : Parent st root segs trees es leaf n) (name : Name) :
    (findEntry leaf name = none ∧ st.view root (segs ++ [name]) = none) ∨
      ∃ x, findEntry leaf name = some x ∧ EntryOk st (TreeOk st n) x ∧
        (st.view root (segs ++ [name])).map PathNode.kind = some x.kind ∧
        ∀ p, st.viewEntry x p = st.view root (segs ++ [name] ++ p) := by
  cases hfind : findEntry leaf name with
  | none => exact .inl ⟨rfl, (h.view [name]).trans (viewIn_of_none hfind [])⟩
  | some x =>
    have hx := h.leafOk.entries x (findEntry_mem hfind).1
    refine .inr ⟨x, rfl, hx, ?_, fun p => ?_⟩
    · rw [h.view, viewIn_of_some hfind, hx.viewEntry_kind]
    · rw [append_assoc, h.view]
      exact (viewIn_of_some hfind p).symm

theorem ne_none_of_kind {o : Option PathNode} {kind : EntryKind}
    (h : o.map PathNode.kind = some kind) : o ≠ none := by
  rintro rfl
  cases h

/-- When `insert_entry_at` puts an entry of a kind at a path. -/
def CanInsert (v : List Name → Option PathNode) (segs : List Name) (kind : EntryKind)
    (allowReplace : Bool) : Prop :=
  v segs.dropLast = some .dir ∧
    (v segs = none ∨ allowReplace = true ∧ (v segs).map PathNode.kind = some kind)

/-- `insert_entry_at` grafts the entry onto the name space. -/
theorem wp_insertEntryAt (hroot : RootOk st root) (parent : List Name) (he : EntryGood st e)
    (allowReplace : Bool) :
    wp (insertEntryAt root (parent ++ [e.name]) e allowReplace)
      (fun root' st' => st ≤ st' ∧ RootOk st' root' ∧
        CanInsert (st.view root) (parent ++ [e.name]) e.kind allowReplace ∧
        ∀ q, st'.view root' q = graft (parent ++ [e.name]) (st.viewEntry e) (st.view root) q)
      (fun _ st' => st' = st ∧
        ¬ CanInsert (st.view root) (parent ++ [e.name]) e.kind allowReplace) st := by
  obtain ⟨k, he⟩ := he
  unfold insertEntryAt CanInsert
  simp only [getLast?_append, getLast?_singleton, some_or, dropLast_concat]
  refine wp_seq_mono (wp_walkForMutation hroot parent) ?_ ?_
  · rintro _ st' ⟨rfl, hne⟩
    exact ⟨rfl, fun h => hne h.1⟩
  · rintro trees st' ⟨rfl, hdir, es, leaf, n, hparent⟩
    have hnew : LeafOk st' (max k n) (withoutName e.name leaf ++ [e]) :=
      LeafOk.insert
        (hparent.leafOk.mono (ContentStore.le_refl st') fun _ h =>
          h.deepen (Nat.le_max_right _ _)).leafOk
        (he.mono (ContentStore.le_refl st') fun _ h => h.deepen (Nat.le_max_left _ _))
    have hgraft := hparent.wp_rebuildUp hnew (viewIn_insert e leaf)
    rw [hparent.last]
    rcases hparent.view_name e.name with ⟨hfind, hview⟩ | ⟨x, hfind, hx, hkind, -⟩
    · rw [withoutName_eq_self hfind] at hgraft
      simp only [hfind]
      refine wp_mono hgraft ?_ fun _ _ h => h.elim
      rintro root' st'' ⟨hle, hok, hq⟩
      exact ⟨hle, hok, ⟨hdir, .inl hview⟩, hq⟩
    · simp only [hfind]
      by_cases hrep : allowReplace = true ∧ x.kind = e.kind
      · obtain ⟨rfl, hxk⟩ := hrep
        simp only [hxk, beq_self_eq_true, Bool.and_self, Bool.not_true, Bool.false_eq_true, if_false]
        refine wp_mono hgraft ?_ fun _ _ h => h.elim
        rintro root' st'' ⟨hle, hok, hq⟩
        exact ⟨hle, hok, ⟨hdir, .inr ⟨trivial, hkind.trans (congrArg some hxk)⟩⟩, hq⟩
      · have hcond : (!(allowReplace && x.kind == e.kind)) = true := by
          simpa [Decidable.imp_iff_not_or] using hrep
        rw [if_pos hcond]
        refine ⟨rfl, ?_⟩
        rintro ⟨-, hnone | ⟨hallow, hsame⟩⟩
        · exact ne_none_of_kind hkind hnone
        · exact hrep ⟨hallow, some.inj (hkind.symm.trans hsame)⟩

/-- When `remove_entry_at` removes what is at a path. -/
def CanRemove (v : List Name → Option PathNode) (segs : List Name) (requireEmptyDir : Bool) : Prop :=
  v segs ≠ none ∧ (requireEmptyDir = true → v segs = some .dir → ∀ s, v (segs ++ [s]) = none)

/-- What `remove_entry_at` returns: the entry that was at the path, and a root
without it. -/
structure Removed (st : ObjectStore A) (root : Hash) (segs : List Name) (requireEmptyDir : Bool)
    (r : TreeEntry × Hash) (st' : ObjectStore A) : Prop where
  le : st ≤ st'
  rootOk : RootOk st' r.2
  can : CanRemove (st.view root) segs requireEmptyDir
  entry : EntryGood st r.1
  entry_view : ∀ p, st.viewEntry r.1 p = st.view root (segs ++ p)
  view : ∀ q, st'.view r.2 q = graft segs (fun _ => none) (st.view root) q

/-- `remove_entry_at` removes what is at and below the path and returns its entry. -/
theorem wp_removeEntryAt (hroot : RootOk st root) (parent : List Name) (name : Name)
    (requireEmptyDir : Bool) :
    wp (removeEntryAt root (parent ++ [name]) requireEmptyDir)
      (fun r st' => Removed st root (parent ++ [name]) requireEmptyDir r st')
      (fun _ st' => st' = st ∧ ¬ CanRemove (st.view root) (parent ++ [name]) requireEmptyDir) st := by
  unfold removeEntryAt
  simp only [getLast?_append, getLast?_singleton, some_or, dropLast_concat]
  refine wp_seq_mono (wp_walkForMutation hroot parent) ?_ ?_
  · rintro _ st' ⟨rfl, hne⟩
    exact ⟨rfl, fun h => h.1 (view_below parent name [] hne)⟩
  · rintro trees st' ⟨rfl, hdir, es, leaf, n, hparent⟩
    have hgraft := hparent.wp_rebuildUp (hparent.leafOk.leafOk.withoutName name)
      (viewIn_withoutName name leaf)
    rw [hparent.last, eraseP_eq_withoutName hparent.leafOk.nodup]
    rcases hparent.view_name name with ⟨hfind, hview⟩ | ⟨x, hfind, hx, hkind, hbelow⟩
    · simp only [hfind]
      exact ⟨rfl, fun h => h.1 hview⟩
    · have hsome := ne_none_of_kind hkind
      have hdone (hcan : CanRemove (st'.view root) (parent ++ [name]) requireEmptyDir) :
          wp (rebuildUp parent trees (withoutName name leaf) >>= fun root' => pure (x, root'))
            (fun r st'' => Removed st' root (parent ++ [name]) requireEmptyDir r st'')
            (fun _ st'' => st'' = st' ∧
              ¬ CanRemove (st'.view root) (parent ++ [name]) requireEmptyDir) st' :=
        wp_seq_mono hgraft (fun _ _ h => h.elim) fun root' st'' h =>
          ⟨h.1, h.2.1, hcan, ⟨n, hx⟩, hbelow, h.2.2⟩
      simp only [hfind]
      by_cases hreq : (requireEmptyDir && x.kind == .dir) = true
      · rw [if_pos hreq]
        simp only [Bool.and_eq_true, beq_iff_eq] at hreq
        obtain ⟨rfl, hxk⟩ := hreq
        obtain ⟨hok, -⟩ := hx.dir hxk
        obtain ⟨sub, hsub, hsubOk⟩ := hok.tree
        have hbelow' : ∀ s, st'.view root (parent ++ [name] ++ [s]) = st'.viewIn sub [s] := by
          intro s
          rw [← hbelow, viewEntry_dir hxk, view_eq_viewIn hsub]
        refine wp_of_run (fetchTree_run hsub) ?_
        cases sub with
        | nil =>
          exact hdone ⟨hsome, fun _ _ s => (hbelow' s).trans (by simp [viewIn, findEntry])⟩
        | cons y ys =>
          refine ⟨rfl, fun hcan => ?_⟩
          have hd : st'.view root (parent ++ [name]) = some .dir := by
            rw [← append_nil (parent ++ [name]), ← hbelow, viewEntry_dir hxk]
            simp [view]
          have hnone := hcan.2 rfl hd y.name
          rw [hbelow', viewIn_of_some (hsubOk.findEntry_eq mem_cons_self)] at hnone
          exact ne_none_of_kind (hsubOk.entries y mem_cons_self).viewEntry_kind hnone
      · rw [if_neg hreq]
        refine hdone ⟨hsome, fun hr hd => absurd ?_ hreq⟩
        rw [hd, map_some, some.injEq] at hkind
        simp [hr, ← hkind, PathNode.kind]

end NopeekOS.Storage
