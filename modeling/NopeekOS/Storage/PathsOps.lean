import NopeekOS.Storage.PathsView

/-!
# Parsing, storing and walking (`paths.rs`)

What `parse_path` accepts, the tree that `store_tree` puts, and the chain of trees
that `walk_for_mutation` returns.
-/

namespace NopeekOS.Storage

open Lib Paths FaultState ObjectStore List

variable {A : ObjectAddress}

/-! ## Parsing -/

theorem forM_ok_iff {α ε : Type} {f : α → Except ε Unit} :
    ∀ {l : List α}, l.forM f = .ok () ↔ ∀ x ∈ l, f x = .ok ()
  | [] => by simp [List.forM, pure, Except.pure]
  | a :: l => by
    have hcons : (a :: l).forM f = f a >>= fun _ => l.forM f := rfl
    rw [hcons, forall_mem_cons]
    cases ha : f a with
    | error e => simp [bind, Except.bind]
    | ok u => simpa [bind, Except.bind] using forM_ok_iff (l := l)

theorem notMem_of_mem_splitOn {x : Byte} : ∀ {l : List Byte} {s : Name},
    s ∈ l.splitOnP (· == x) → x ∉ s
  | [], s, hs => by
    simp only [splitOnP_nil, mem_singleton] at hs
    simp [hs]
  | a :: l, s, hs => by
    rw [splitOnP_cons_eq_if_modifyHead] at hs
    split at hs
    · rcases mem_cons.mp hs with rfl | hs'
      · simp
      · exact notMem_of_mem_splitOn hs'
    · rename_i hax
      obtain ⟨t, ts, hts⟩ := exists_cons_of_ne_nil (splitOnP_ne_nil (· == x) l)
      rw [hts, modifyHead_cons] at hs
      rcases mem_cons.mp hs with rfl | hs'
      · have ht : x ∉ t := notMem_of_mem_splitOn (l := l) (by simp [hts])
        simp only [mem_cons, not_or]
        exact ⟨fun hxa => hax (by simp [hxa]), ht⟩
      · exact notMem_of_mem_splitOn (l := l) (by simp [hts, hs'])

/-- A segment list that `parse_path` accepts. -/
def ValidPath (segs : List Name) : Prop :=
  (∀ s ∈ segs, ValidSegment s) ∧ segs.head? ≠ some EXT_ROOT

/-- `path.trim_matches('/')`. -/
def trimSlashes (path : List Byte) : List Byte :=
  (path.dropWhile (· == SLASH)).rdropWhile (· == SLASH)

variable {path : List Byte} {segs : List Name}

/-- What `parse_path` accepts, and what it makes of it. -/
theorem parsePath_ok_iff : parsePath path = .ok segs ↔ (trimSlashes path = [] ∧ segs = []) ∨
      (trimSlashes path ≠ [] ∧ segs = (trimSlashes path).splitOn SLASH ∧
        (∀ s ∈ segs, checkSegment s = .ok ()) ∧ segs.head? ≠ some EXT_ROOT) := by
  have hparse : parsePath path = if (trimSlashes path).isEmpty then .ok []
      else (((trimSlashes path).splitOn SLASH).forM checkSegment).bind fun _ =>
        if ((trimSlashes path).splitOn SLASH).head? == some EXT_ROOT then .error .invalidPath
        else .ok ((trimSlashes path).splitOn SLASH) := rfl
  rw [hparse]
  split
  · rename_i hempty
    rw [List.isEmpty_iff] at hempty
    simp [hempty, eq_comm]
  · rename_i hempty
    rw [List.isEmpty_iff] at hempty
    cases hforM : ((trimSlashes path).splitOn SLASH).forM checkSegment with
    | error err =>
      have hbad : ¬ ∀ s ∈ (trimSlashes path).splitOn SLASH, checkSegment s = .ok () := fun h => by
        rw [forM_ok_iff.mpr h] at hforM
        cases hforM
      constructor
      · exact nofun
      · rintro (⟨h, -⟩ | ⟨-, rfl, h, -⟩)
        · exact absurd h hempty
        · exact absurd h hbad
    | ok u =>
      simp only [Except.bind, beq_iff_eq]
      split
      · rename_i hext
        constructor
        · exact nofun
        · rintro (⟨h, -⟩ | ⟨-, rfl, -, h⟩)
          · exact absurd h hempty
          · exact absurd hext h
      · rename_i hext
        constructor
        · intro h
          cases h
          exact .inr ⟨hempty, rfl, forM_ok_iff.mp hforM, hext⟩
        · rintro (⟨h, -⟩ | ⟨-, rfl, -, -⟩)
          · exact absurd h hempty
          · rfl

theorem validPath_of_parsePath (h : parsePath path = .ok segs) : ValidPath segs := by
  rcases parsePath_ok_iff.mp h with ⟨-, rfl⟩ | ⟨-, rfl, hcheck, hext⟩
  · exact ⟨by simp, by simp⟩
  · refine ⟨fun s hs => ⟨hcheck s hs, ?_⟩, hext⟩
    rw [splitOn_eq_splitOnP] at hs
    exact notMem_of_mem_splitOn hs

/-- What `parse_path` accepts, `validate_name` does. -/
theorem ValidSegment.validateName {s : Name} (h : ValidSegment s) : validateName s = .ok () := by
  obtain ⟨hcheck, hslash⟩ := h
  unfold checkSegment at hcheck
  split at hcheck
  · cases hcheck
  rename_i hempty
  split at hcheck
  · cases hcheck
  rename_i hnul
  split at hcheck
  · cases hcheck
  split at hcheck
  · cases hcheck
  rename_i hlen
  have hbytes : s.any (fun b => b == 0 || b == SLASH) = false := by
    simp only [any_eq_false, Bool.or_eq_true, beq_iff_eq, not_or]
    intro b hb
    refine ⟨fun h0 => hnul ?_, fun hs => hslash (hs ▸ hb)⟩
    simpa using h0 ▸ hb
  simp [Storage.validateName, hempty, hlen, hbytes]

/-! ## Storing a tree -/

variable {st st₀ : ObjectStore A} {P : Hash → Prop} {e : TreeEntry} {es : List TreeEntry} {n : Nat}

/-- Entries ordered by name. -/
def sortEntries (es : List TreeEntry) : List TreeEntry :=
  es.insertionSort fun a b => a.name ≤ b.name

theorem perm_sortEntries (es : List TreeEntry) : (sortEntries es).Perm es :=
  perm_insertionSort _ es

/-- Sorting entries with different names orders them strictly. -/
theorem sortEntries_sorted (hnodup : (es.map TreeEntry.name).Nodup) :
    (sortEntries es).Pairwise fun a b => a.name < b.name := by
  have hle : (sortEntries es).Pairwise fun a b => a.name ≤ b.name := by
    have : IsTrans TreeEntry (fun a b => a.name ≤ b.name) := ⟨fun _ _ _ => le_trans⟩
    have : Std.Total (fun a b : TreeEntry => a.name ≤ b.name) := ⟨fun a b => le_total a.name b.name⟩
    exact pairwise_insertionSort _ es
  have hne : (sortEntries es).Pairwise fun a b => a.name ≠ b.name :=
    pairwise_map.mp (((perm_sortEntries es).map _).nodup_iff.mpr hnodup)
  exact hle.imp₂ (fun _ _ => lt_of_le_of_ne) hne

theorem recursiveSize_eq_min (es : List TreeEntry) :
    recursiveSize es = min (es.map TreeEntry.size).sum U64_MAX := by
  have hfold : ∀ (es : List TreeEntry) (acc : Nat), acc ≤ U64_MAX →
      es.foldl (fun acc e => min (acc + e.size) U64_MAX) acc
        = min (acc + (es.map TreeEntry.size).sum) U64_MAX := by
    intro es
    induction es with
    | nil =>
      intro acc hacc
      simp [Nat.min_eq_left hacc]
    | cons e es ih =>
      intro acc hacc
      rw [foldl_cons, ih _ (Nat.min_le_right _ _), map_cons, sum_cons]
      omega
  rw [recursiveSize, hfold es 0 (Nat.zero_le _), Nat.zero_add]

theorem recursiveSize_perm {es es' : List TreeEntry} (h : es.Perm es') :
    recursiveSize es = recursiveSize es' := by
  rw [recursiveSize_eq_min, recursiveSize_eq_min, (h.map _).sum_eq]

/-- `store_tree` puts the sorted entries, of which `h` is then the address. -/
theorem wp_storeTree {Q : Hash × Nat → ObjectStore A → Prop} {E : PathError → ObjectStore A → Prop}
    (hvalid : ∀ e ∈ es, ValidSegment e.name)
    (h : ∀ st' h, st ≤ st' → st'.tree h = some (sortEntries es) → Q (h, recursiveSize es) st') :
    wp (storeTree es) Q E st := by
  have hforM : es.forM (fun e => validateName e.name) = .ok () :=
    forM_ok_iff.mpr fun e he => (hvalid e he).validateName
  have hsorted : Object.treeSorted es = .ok (.tree (sortEntries es)) := by
    simp only [Object.treeSorted, hforM, bind, Except.bind]
    rfl
  have hrun : storeTree es st = (.ok (A.addr (.tree (sortEntries es)), recursiveSize es),
      st.put (.tree (sortEntries es))) := by
    simp only [storeTree, hsorted]
    rfl
  unfold wp
  rw [hrun]
  refine h _ _ (st.le_put _) ?_
  rw [tree, if_neg (A.addr_ne _), ContentStore.get_put]

/-! ## Walking -/

/-- `fetch_tree` reads the tree of `h`, or faults. -/
theorem fetchTree_spec (h : Hash) (st : ObjectStore A) :
    ∃ e, fetchTree h st = ((st.tree h).elim (.error e) .ok, st) := by
  unfold tree
  by_cases hnull : h = A.null
  · have hrun : fetchTree (A := A) h = pure [] := if_pos hnull
    rw [hrun, if_pos hnull]
    exact ⟨.corrupt, rfl⟩
  · have hrun : fetchTree h st = _ := congrFun (if_neg hnull) st
    rw [hrun, if_neg hnull]
    rcases st.get h with _ | o
    · exact ⟨.corrupt, rfl⟩
    · cases o <;> exact ⟨.notADirectory, rfl⟩

theorem fetchTree_run {h : Hash} (htree : st.tree h = some es) : fetchTree h st = (.ok es, st) := by
  obtain ⟨e, hrun⟩ := fetchTree_spec h st
  rw [hrun, htree]
  rfl

/-- The trees on the way from the entries `es` along `segs`. -/
inductive Trees (st : ObjectStore A) : List TreeEntry → List Name → List (List TreeEntry) → Prop where
  | leaf (es : List TreeEntry) : Trees st es [] [es]
  | down {es next : List TreeEntry} {s : Name} {segs : List Name} {e : TreeEntry}
      {trees : List (List TreeEntry)} : findEntry es s = some e → e.kind = .dir →
      st.tree e.hash = some next → Trees st next segs trees → Trees st es (s :: segs) (es :: trees)

variable {trees : List (List TreeEntry)}

theorem Trees.ne_nil (h : Trees st es segs trees) : trees ≠ [] := by
  cases h <;> simp

/-- The last of the trees is the directory that the segments name. -/
theorem Trees.last (h : Trees st es segs trees) (hes : EntriesOk st (TreeOk st n) es) :
    EntriesOk st (TreeOk st n) (trees.getLastD []) ∧
      ∀ p, st.viewIn es (segs ++ p) = st.viewIn (trees.getLastD []) p := by
  induction h with
  | leaf es => exact ⟨hes, fun p => rfl⟩
  | @down es next s segs e trees hfind hk htree htrees ih =>
    obtain ⟨hok, -⟩ := (hes.entries e (findEntry_mem hfind).1).dir hk
    obtain ⟨next', htree', hnext⟩ := hok.tree
    rw [htree, Option.some.injEq] at htree'
    subst htree'
    obtain ⟨hlast, hview⟩ := ih hnext
    have hgetLast : (es :: trees).getLastD [] = trees.getLastD [] := by
      obtain ⟨t, ts, rfl⟩ := exists_cons_of_ne_nil htrees.ne_nil
      simp
    rw [hgetLast]
    refine ⟨hlast, fun p => ?_⟩
    rw [cons_append, viewIn_of_some hfind, viewEntry_dir hk,
      view_eq_viewIn htree]
    exact hview p

/-- The walk finds the trees iff the segments name a directory. -/
theorem wp_walkTrees : ∀ (segs : List Name) {es : List TreeEntry}, EntriesOk st (TreeOk st n) es →
    wp (walkTrees es segs)
      (fun trees st' => st' = st ∧ Trees st es segs trees ∧ st.viewIn es segs = some .dir)
      (fun _ st' => st' = st ∧ st.viewIn es segs ≠ some .dir) st
  | [], es, _ => ⟨rfl, .leaf es, rfl⟩
  | s :: segs, es, hes => by
    unfold walkTrees
    cases hfind : findEntry es s with
    | none =>
      refine ⟨rfl, ?_⟩
      rw [viewIn_of_none hfind]
      exact nofun
    | some e =>
      rw [viewIn_of_some hfind]
      have he := hes.entries e (findEntry_mem hfind).1
      by_cases hk : e.kind = .dir
      · obtain ⟨hok, -⟩ := he.dir hk
        obtain ⟨next, htree, hnext⟩ := hok.tree
        simp only [hk, ne_eq, not_true_eq_false, if_false]
        refine wp_of_run (fetchTree_run htree) ?_
        refine wp_seq_mono (wp_walkTrees segs hnext) ?_ ?_
        · rintro err st' ⟨rfl, hne⟩
          refine ⟨rfl, ?_⟩
          rwa [viewEntry_dir hk, view_eq_viewIn htree]
        · rintro trees st' ⟨rfl, htrees, hdir⟩
          refine ⟨rfl, .down hfind hk htree htrees, ?_⟩
          rwa [viewEntry_dir hk, view_eq_viewIn htree]
      · simp only [ne_eq, hk, not_false_eq_true, if_true]
        refine ⟨rfl, ?_⟩
        have hfile : e.kind = .file := by
          cases hkind : e.kind with
          | file => rfl
          | dir => exact absurd hkind hk
        rw [viewEntry_file hfile]
        split
        · cases st.content e.hash <;> simp
        · exact nofun

end NopeekOS.Storage
