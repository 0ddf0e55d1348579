import NopeekOS.Lib.KeyMap
import NopeekOS.Storage.BTreeDelete
import NopeekOS.Storage.BTreeRead

/-!
# The B-tree is a finite map

The state machine of a B-tree in use: calls of `insert`, `delete` and `lookup`
that thread the root, and in between whatever others do to the rest of the
volume. Its abstraction is a map from hashes to entries.

`Fine` is where the code does what a map does: the descent of the call reaches a
leaf within `MAX_TREE_DEPTH` nodes, and a deletion does not underflow. Every run
of such calls in which no call runs out of space is a run of the map.
-/

namespace NopeekOS.Storage.BTree

open Lib FaultState Function

/-! ## The state machine -/

/-- A volume and the current root. -/
structure TreeState where
  vol : Vol
  root : Nat

/-- One call with what it returned; `other` is work on other blocks. -/
inductive Call where
  | insert (entry : BTreeEntry) (r : Except Fault (Nat × List Nat × Bool))
  | delete (key : Hash) (r : Except Fault (Nat × List Nat))
  | lookup (key : Hash) (r : Except Fault (Option BTreeEntry))
  | other

/-- The root after a call: the one it returned, if it returned one. -/
def nextRoot {α : Type} (root : Nat) : Except Fault (Nat × α) → Nat
  | .ok r => r.1
  | .error _ => root

/-- One step. The caller keeps the root of a call that fails. Others may write and
free any block that is not the tree's, and take any that is not in use. -/
inductive Step (checks : Bool) : TreeState → Call → TreeState → Prop where
  | insert {s : TreeState} {entry : BTreeEntry} {r : Except Fault (Nat × List Nat × Bool)}
      {v : Vol} : BTree.insert s.root entry s.vol = (r, v) →
      Step checks s (.insert entry r) ⟨v, nextRoot s.root r⟩
  | delete {s : TreeState} {key : Hash} {r : Except Fault (Nat × List Nat)} {v : Vol} :
      BTree.delete checks s.root key s.vol = (r, v) →
      Step checks s (.delete key r) ⟨v, nextRoot s.root r⟩
  | lookup {s : TreeState} {key : Hash} {r : Except Fault (Option BTreeEntry)} {v : Vol} :
      BTree.lookup s.root key s.vol = (r, v) → Step checks s (.lookup key r) ⟨v, s.root⟩
  | other {s : TreeState} {v : Vol} : v.bm.Inv → v.bm.geo = s.vol.bm.geo →
      (∀ x, ReachedFrom s.vol.blocks s.root x →
        v.blocks x = s.vol.blocks x ∧ v.bm.isFree x = s.vol.bm.isFree x) →
      Step checks s .other ⟨v, s.root⟩

/-! ## The abstract map -/

/-- A finite map, and the root that names it. -/
structure MapState where
  map : Hash → Option BTreeEntry
  root : Nat

/-- What each call does to the map and returns. -/
inductive MapStep : MapState → Call → MapState → Prop where
  | insertNew {m : MapState} {entry : BTreeEntry} {root : Nat} {old : List Nat} :
      m.map entry.hash = none →
      MapStep m (.insert entry (.ok (root, old, true)))
        ⟨update m.map entry.hash (some entry), root⟩
  | insertPresent {m : MapState} {entry e : BTreeEntry} : m.map entry.hash = some e →
      MapStep m (.insert entry (.ok (m.root, [], false))) m
  | deletePresent {m : MapState} {key : Hash} {e : BTreeEntry} {root : Nat} {old : List Nat} :
      m.map key = some e →
      MapStep m (.delete key (.ok (root, old))) ⟨update m.map key none, root⟩
  | deleteAbsent {m : MapState} {key : Hash} : m.map key = none →
      MapStep m (.delete key (.error (.fs .objectNotFound))) m
  | lookup {m : MapState} {key : Hash} : MapStep m (.lookup key (.ok (m.map key))) m
  | other {m : MapState} : MapStep m .other m

/-- The map a list of entries stands for. -/
def entryMap (es : List BTreeEntry) (key : Hash) : Option BTreeEntry :=
  es.find? fun e => e.hash == key

variable {es es' : List BTreeEntry} {key : Hash} {new : BTreeEntry}

theorem entryMap_eq_none : entryMap es key = none ↔ ∀ e ∈ es, e.hash ≠ key := by
  simp [entryMap, List.find?_eq_none]

theorem entryMap_append (X Y : List BTreeEntry) :
    entryMap (X ++ Y) key = (entryMap X key).or (entryMap Y key) := List.find?_append

theorem entryMap_cons (e : BTreeEntry) (Y : List BTreeEntry) :
    entryMap (e :: Y) key = if e.hash = key then some e else entryMap Y key := by
  unfold entryMap
  rw [List.find?_cons]
  by_cases h : e.hash = key
  · rw [if_pos h, beq_iff_eq.mpr h]
  · rw [if_neg h, beq_false_of_ne h]

theorem entryMap_eq_some (hs : es.Pairwise fun a c => a.hash < c.hash) {e : BTreeEntry} :
    entryMap es key = some e ↔ e ∈ es ∧ e.hash = key :=
  find?_key_eq_some (List.pairwise_map.mpr (hs.imp Nat.ne_of_lt))

theorem Inserted.entryMap (h : Inserted new es es') : entryMap es new.hash = none ∧
      entryMap es' = update (entryMap es) new.hash (some new) := by
  obtain ⟨X, Y, rfl, rfl, hX, hY⟩ := h
  have hX' : BTree.entryMap X new.hash = none :=
    entryMap_eq_none.mpr fun e he => Nat.ne_of_lt (hX e he)
  have hY' : BTree.entryMap Y new.hash = none :=
    entryMap_eq_none.mpr fun e he => Nat.ne_of_gt (hY e he)
  refine ⟨by rw [entryMap_append, hX', hY']; rfl, funext fun key => ?_⟩
  rw [entryMap_append, entryMap_cons]
  by_cases hk : new.hash = key
  · subst hk
    rw [if_pos rfl, hX', update_self]
    rfl
  · rw [if_neg hk, update_of_ne (Ne.symm hk), entryMap_append]

theorem Removed.entryMap (h : Removed key es es') (hs : es.Pairwise fun a c => a.hash < c.hash) :
    (∃ e, entryMap es key = some e) ∧ entryMap es' = update (entryMap es) key none := by
  obtain ⟨X, e, Y, rfl, rfl, rfl⟩ := h
  obtain ⟨-, hs', hXe⟩ := List.pairwise_append.mp hs
  have hX : BTree.entryMap X e.hash = none :=
    entryMap_eq_none.mpr fun c hc => Nat.ne_of_lt (hXe c hc e List.mem_cons_self)
  have hY : BTree.entryMap Y e.hash = none :=
    entryMap_eq_none.mpr fun c hc => Nat.ne_of_gt ((List.pairwise_cons.mp hs').1 c hc)
  refine ⟨⟨e, (entryMap_eq_some hs).mpr ⟨by simp, rfl⟩⟩, funext fun key => ?_⟩
  by_cases hk : e.hash = key
  · subst hk
    rw [entryMap_append, hX, hY, update_self]
    rfl
  · rw [update_of_ne (Ne.symm hk), entryMap_append, entryMap_append, entryMap_cons,
      if_neg hk]

/-! ## Where the code is a map -/

/-- The descent for `key` reaches a leaf in time. -/
def Shallow (s : TreeState) (key : Hash) : Prop :=
  s.root = 0 ∨ (descent s.vol.blocks key (MAX_TREE_DEPTH - 1) s.root []).isSome

/-- The calls the code gets right, by the state before them. -/
def Fine (s : TreeState) : Call → Prop
  | .insert entry _ => Shallow s entry.hash
  | .delete key _ => Shallow s key ∧ ¬ Underflows s.vol.blocks s.root key
  | .lookup key _ => Shallow s key
  | .other => True

/-- The call did not run out of space. -/
def Call.HasSpace : Call → Prop
  | .insert _ r => r ≠ .error (.fs .diskFull)
  | .delete _ r => r ≠ .error (.fs .diskFull)
  | _ => True

theorem Shallow.height_le {s : TreeState} {H : Nat} {bs : List Nat} (hs : Shallow s key)
    (h : TreeInv s.vol s.root H es bs) : H ≤ MAX_TREE_DEPTH - 1 := by
  by_cases hroot : s.root = 0
  · rw [(h.tree_empty hroot).1]
    exact Nat.zero_le _
  · exact (h.search hroot key).height_le (hs.resolve_left hroot)

/-! ## Simulation -/

/-- The tree in use stands for the map. -/
def Represents (s : TreeState) (m : MapState) : Prop :=
  ∃ H es bs, TreeInv s.vol s.root H es bs ∧ H ≤ MAX_TREE_DEPTH ∧ m = ⟨entryMap es, s.root⟩

variable {checks : Bool} {s : TreeState} {m : MapState}

theorem represents_insert {r : Except Fault (Nat × List Nat × Bool)} {v : Vol}
    (h : Represents s m) (hfine : Shallow s new.hash) (hspace : r ≠ .error (.fs .diskFull))
    (hrun : BTree.insert s.root new s.vol = (r, v)) :
    ∃ m', MapStep m (.insert new r) m' ∧ Represents ⟨v, nextRoot s.root r⟩ m' := by
  obtain ⟨H, es, bs, hinv, hH, rfl⟩ := h
  have hle := hfine.height_le hinv
  have hwp := wp_insert new hinv
  cases r with
  | error e =>
    rcases of_wp_error hwp hrun with ⟨rfl, -⟩ | ⟨-, -, hdeep⟩
    · exact absurd rfl hspace
    · exact absurd hdeep (Nat.not_lt.mpr hle)
  | ok r =>
    obtain ⟨root', old, wasNew⟩ := r
    rcases of_wp_ok hwp hrun with ⟨hr, rfl, e, he, hek⟩ |
      ⟨hnew, es', A, bs', H', hins, hcow, hroot, hH'⟩
    · obtain ⟨rfl, rfl, rfl⟩ : root' = s.root ∧ old = [] ∧ wasNew = false := by simpa using hr
      have hsome := (entryMap_eq_some hinv.sorted).mpr ⟨he, hek⟩
      exact ⟨_, .insertPresent hsome, H, es, bs, hinv, hH, rfl⟩
    · obtain rfl : wasNew = true := hnew
      refine ⟨_, .insertNew hins.entryMap.1, H', es', bs', hinv.cow hcow hroot, ?_, ?_⟩
      · exact hH'.trans (Nat.succ_le_succ hle)
      · rw [hins.entryMap.2]
        rfl

theorem represents_delete {r : Except Fault (Nat × List Nat)} {v : Vol}
    (h : Represents s m) (hfine : Shallow s key ∧ ¬ Underflows s.vol.blocks s.root key)
    (hspace : r ≠ .error (.fs .diskFull)) (hrun : BTree.delete checks s.root key s.vol = (r, v)) :
    ∃ m', MapStep m (.delete key r) m' ∧ Represents ⟨v, nextRoot s.root r⟩ m' := by
  obtain ⟨H, es, bs, hinv, hH, rfl⟩ := h
  have hle := hfine.1.height_le hinv
  have hwp := wp_delete checks hinv hfine.2
  cases r with
  | error e =>
    rcases of_wp_error hwp hrun with (⟨rfl, -⟩ | ⟨rfl, rfl, habs⟩) | ⟨-, -, hdeep⟩
    · exact absurd rfl hspace
    · exact ⟨_, .deleteAbsent (entryMap_eq_none.mpr habs), H, es, bs, hinv, hH, rfl⟩
    · exact absurd hdeep (Nat.not_lt.mpr hle)
  | ok r =>
    obtain ⟨root', old⟩ := r
    rcases of_wp_ok hwp hrun with ⟨-, ⟨e, rfl, rfl⟩, hroot, -, n, hgrew⟩ |
      ⟨-, es', A, bs', H', hrem, hcow, hroot, hH', -⟩
    · obtain rfl : root' = 0 := hroot
      have hsome : entryMap [e] e.hash = some e := by simp [entryMap]
      refine ⟨_, .deletePresent hsome, 0, [], [], treeInv_empty hgrew.inv, Nat.zero_le _, ?_⟩
      · have hrem : Removed e.hash [e] [] := ⟨[], e, [], rfl, rfl, rfl⟩
        rw [(hrem.entryMap (List.pairwise_singleton _ _)).2]
        rfl
    · obtain ⟨⟨e, he⟩, hmap⟩ := hrem.entryMap hinv.sorted
      refine ⟨_, .deletePresent he, H', es', bs', hinv.cow hcow hroot, hH'.trans hH, ?_⟩
      rw [hmap]
      rfl

/-- **Step lemma**: a fine call with space does what the map does. -/
theorem represents_step {s' : TreeState} {c : Call} (h : Represents s m) (hfine : Fine s c)
    (hspace : c.HasSpace) (hstep : Step checks s c s') :
    ∃ m', MapStep m c m' ∧ Represents s' m' := by
  cases hstep with
  | insert hrun => exact represents_insert h hfine hspace hrun
  | delete hrun => exact represents_delete h hfine hspace hrun
  | @lookup key r v hrun =>
    obtain ⟨H, es, bs, hinv, hH, rfl⟩ := h
    have hwp := wp_lookup key hinv
    cases r with
    | error e =>
      have hle := Shallow.height_le hfine hinv
      obtain ⟨-, -, hdeep⟩ := of_wp_error hwp hrun
      exact absurd (hdeep.trans hle) (by decide)
    | ok r =>
      obtain ⟨rfl, rfl⟩ := of_wp_ok hwp hrun
      exact ⟨_, .lookup, H, es, bs, hinv, hH, rfl⟩
  | other hbm hgeo hsame =>
    obtain ⟨H, es, bs, hinv, hH, rfl⟩ := h
    refine ⟨_, .other, H, es, bs, ?_, hH, rfl⟩
    exact hinv.same hbm hgeo fun x hx => hsame x (hinv.reach_iff.mpr hx)

/-- What `iter_all` reports in a state that stands for a map. -/
theorem Represents.iterAll (h : Represents s m) :
    ∃ rounds es, iterAll s.vol.blocks s.root rounds = some es ∧
      (es.Pairwise fun a c => a.hash < c.hash) ∧
      ∀ key e, m.map key = some e ↔ e ∈ es ∧ e.hash = key := by
  obtain ⟨H, es, bs, hinv, hH, rfl⟩ := h
  exact ⟨bs.length, es, iterAll_eq hinv (hH.trans (by decide)), hinv.sorted,
    fun key e => entryMap_eq_some hinv.sorted⟩

end NopeekOS.Storage.BTree
