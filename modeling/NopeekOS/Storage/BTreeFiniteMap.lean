import NopeekOS.Storage.BTreeMap
import NopeekOS.Storage.BTreeUnderflow

/-!
# Where the B-tree is a finite map, and where it is not

Every run of fine calls is a run of the map (`run_is_map_run`). Without that
condition it is not: a tree of three levels is reached by inserting enough
entries, since two levels hold at most 102 leaves; deleting from it everything
below one parent of leaves but its last entry makes the next deletion underflow.
-/

namespace NopeekOS.Storage.BTree

open Lib FaultState

variable {checks : Bool} {v : Vol} {es : List BTreeEntry} {bs : List Nat} {H root : Nat}
  {e : BTreeEntry}

/-! ## Growing a tree of three levels -/

/-- A step that does not run out of space. -/
def SpaceStep (checks : Bool) (s : TreeState) (c : Call) (s' : TreeState) : Prop :=
  c.HasSpace ∧ Step checks s c s'

/-- Two levels hold at most 102 leaves of 36 entries. -/
theorem TreeInv.length_le (h : TreeInv v root H es bs) (hH : H ≤ 1) :
    es.length ≤ (MAX_INTERNAL_KEYS + 1) * MAX_LEAF_ENTRIES := by
  have hleaf : ∀ a c d e r, TreeAt v.blocks 0 a c d e r → e.length ≤ MAX_LEAF_ENTRIES :=
    fun _ _ _ _ _ ht => ht.2.1.2.2.1
  rcases h.tree with ⟨-, -, rfl, -⟩ | ⟨top, ht⟩
  · exact Nat.zero_le _
  match H, hH, ht with
  | 0, _, ht => exact (hleaf _ _ _ _ _ ht).trans (by decide)
  | 1, _, ⟨nd, _, _, hok, ⟨_, e₁, e₂, _, _, hseg, hright, hes, _⟩, _⟩ =>
    have h₁ := hseg.length_le hleaf
    have h₂ := hleaf _ _ _ _ _ hright
    have h₃ : nd.used.length ≤ MAX_INTERNAL_KEYS := by
      rw [hok.length_used]
      exact Nat.min_le_right _ _
    calc es.length = e₁.length + e₂.length := by rw [hes, List.length_append]
      _ ≤ nd.used.length * MAX_LEAF_ENTRIES + MAX_LEAF_ENTRIES := Nat.add_le_add h₁ h₂
      _ = (nd.used.length + 1) * MAX_LEAF_ENTRIES := (Nat.succ_mul _ _).symm
      _ ≤ (MAX_INTERNAL_KEYS + 1) * MAX_LEAF_ENTRIES :=
        Nat.mul_le_mul_right _ (Nat.succ_le_succ h₃)

/-- The entry with hash `k` of an object of no bytes. -/
def plainEntry (k : Nat) : BTreeEntry := ⟨k, 0, 0, 0, [], 0⟩

theorem insert_grows {k n : Nat} (h : TreeInv v root H es bs) (hH : H ≤ 1)
    (hk : ∀ e ∈ es, e.hash < k) (hb : Bounded k (n + 17) v) :
    ∃ r v' es' bs' H', BTree.insert root (plainEntry k) v = (.ok r, v') ∧
      TreeInv v' r.1 H' es' bs' ∧ Bounded k n v' ∧ H' ≤ H + 1 ∧ Inserted (plainEntry k) es es' := by
  have hle : (plainEntry k).hash ≤ k := Nat.le_refl k
  rcases (costs_insert root hle).ends hb (wp_insert (plainEntry k) h) with
    ⟨r, v', hrun, ⟨-, -, e, he, hek⟩ | ⟨-, es', A, bs', H', hins, hcow, hroot, hH'⟩, hb'⟩ |
    ⟨e, v', -, ⟨rfl, -⟩ | ⟨-, -, hdeep⟩, hspace⟩
  · exact absurd hek (Nat.ne_of_lt (hk e he))
  · exact ⟨r, v', es', bs', H', hrun, h.cow hcow hroot, hb', hH', hins⟩
  · exact absurd rfl hspace
  · exact absurd (hdeep.trans_le hH) (by decide)

/-- What a run of insertions of ascending hashes comes to after `j` of them: still
at most two levels, or three levels with the last hash the greatest ever. -/
def Grown (j n : Nat) (s : TreeState) : Prop :=
  ∃ H es bs, TreeInv s.vol s.root H es bs ∧
    ((H ≤ 1 ∧ es.length = j ∧ (∀ e ∈ es, e.hash < j) ∧ Bounded j n s.vol) ∨
      (H = 2 ∧ ∃ e ∈ es, es.length ≤ j ∧ Bounded e.hash n s.vol))

theorem exists_grown (checks : Bool) {j n : Nat} (hinv : v.bm.Inv) (hb : Bounded 0 (n + 17 * j) v) :
    ∃ calls s, Run (SpaceStep checks) ⟨v, 0⟩ calls s ∧ Grown j n s := by
  induction j generalizing n with
  | zero =>
    exact ⟨[], ⟨v, 0⟩, .nil _, 0, [], [], treeInv_empty hinv,
      .inl ⟨Nat.zero_le 1, rfl, by simp, hb⟩⟩
  | succ j ih =>
    obtain ⟨calls, s, hrun, H, es, bs, htree, hcase⟩ :=
      ih (n := n + 17) (hb.mono (Nat.le_refl 0) (by omega))
    rcases hcase with ⟨hH, hlen, hkeys, hbound⟩ | ⟨hH, e, he, hlen, hbound⟩
    · obtain ⟨r, v', es', bs', H', hins, htree', hbound', hH', hes'⟩ :=
        insert_grows htree hH hkeys hbound
      have hlen' := hes'.length
      refine ⟨_, _, hrun.snoc ⟨by simp [Call.HasSpace], .insert hins⟩, H', es', bs', htree', ?_⟩
      by_cases htwo : H' ≤ 1
      · refine .inl ⟨htwo, by omega, ?_, hbound'.mono (Nat.le_succ j) (Nat.le_refl n)⟩
        obtain ⟨X, Y, rfl, rfl, -, -⟩ := hes'
        intro e he
        rcases List.mem_append.mp he with he | he
        · exact (hkeys e (List.mem_append_left _ he)).trans (Nat.lt_succ_self j)
        · rcases List.mem_cons.mp he with rfl | he
          · exact Nat.lt_succ_self j
          · exact (hkeys e (List.mem_append_right _ he)).trans (Nat.lt_succ_self j)
      · refine .inr ⟨by omega, plainEntry j, ?_, by omega, hbound'⟩
        obtain ⟨X, Y, rfl, rfl, -, -⟩ := hes'
        simp
    · exact ⟨calls, s, hrun, H, es, bs, htree,
        .inr ⟨hH, e, he, by omega, hbound.mono (Nat.le_refl _) (by omega)⟩⟩

/-! ## Thinning it out -/

theorem delete_thins (checks : Bool) {n : Nat} {K : Nat} (h : TreeInv v root 2 es bs)
    (he : e ∈ es) (hfine : ¬ Underflows v.blocks root e.hash) (hb : Bounded K (n + 8) v) :
    ∃ r v' es' bs', BTree.delete checks root e.hash v = (.ok r, v') ∧
      TreeInv v' r.1 2 es' bs' ∧ Bounded K n v' ∧ Removed e.hash es es' := by
  rcases (costs_delete checks e.hash root).ends hb (wp_delete checks h hfine) with
    ⟨r, v', hrun, ⟨h₀, -⟩ | ⟨-, es', A, bs', H', hrem, hcow, hroot, -, hH'⟩, hb'⟩ |
    ⟨f, v', -, (⟨rfl, -⟩ | ⟨-, -, habs⟩) | ⟨-, -, hdeep⟩, hspace⟩
  · cases h₀
  · obtain rfl := hH' (Nat.le_refl 2)
    exact ⟨r, v', es', bs', hrun, h.cow hcow hroot, hb', hrem⟩
  · exact absurd rfl hspace
  · exact absurd rfl (habs e he)
  · exact absurd hdeep (by decide)

/-- Deleting other entries one after the other makes the deletion of `e`
underflow. -/
theorem exists_underflow (checks : Bool) {n m : Nat} {s : TreeState} :
    ∀ {es : List BTreeEntry} {bs : List Nat}, TreeInv s.vol s.root 2 es bs → es.length ≤ n →
      e ∈ es → Bounded e.hash (m + 8 * n) s.vol →
      ∃ calls s' es' bs', Run (SpaceStep checks) s calls s' ∧ TreeInv s'.vol s'.root 2 es' bs' ∧
        Bounded e.hash m s'.vol ∧ Underflows s'.vol.blocks s'.root e.hash := by
  induction n generalizing s with
  | zero =>
    intro es bs _ hlen he _
    rw [List.eq_nil_of_length_eq_zero (Nat.le_zero.mp hlen)] at he
    cases he
  | succ n ih =>
    intro es bs htree hlen he hb
    rcases exists_other_or_underflows (H := 0) htree (by decide) he with hu | ⟨e', he', hne, hfine⟩
    · exact ⟨[], s, es, bs, .nil s, htree, hb.mono (Nat.le_refl _) (by omega), hu⟩
    obtain ⟨r, v', es', bs', hrun, htree', hb', hrem⟩ :=
      delete_thins checks (n := m + 8 * n) htree he' hfine (hb.mono (Nat.le_refl _) (by omega))
    have hlen' := hrem.length
    have hmem : e ∈ es' := by
      obtain ⟨X, c, Y, rfl, hc, rfl⟩ := hrem
      rcases List.mem_append.mp he with he | he
      · exact List.mem_append_left _ he
      · rcases List.mem_cons.mp he with rfl | he
        · exact absurd hc.symm hne
        · exact List.mem_append_right _ he
    obtain ⟨calls, s', es₂, bs₂, hrun', hrest⟩ :=
      ih (s := ⟨v', r.1⟩) htree' (by omega) hmem hb'
    exact ⟨_, s', es₂, bs₂, .cons ⟨by simp [Call.HasSpace], .delete hrun⟩ hrun', hrest⟩

/-- From a state in which the deletion of the greatest hash underflows, the next
calls are none of the map's. -/
theorem not_map_run {s : TreeState} {calls₀ : List Call} {s₀ : TreeState}
    (hrun : Run (SpaceStep checks) s₀ calls₀ s) (h : TreeInv s.vol s.root 2 es bs)
    (hb : Bounded e.hash 8 s.vol) (hu : Underflows s.vol.blocks s.root e.hash) :
    ∃ calls s', Run (SpaceStep checks) s₀ calls s' ∧ ∀ m₀ m, ¬ Run MapStep m₀ calls m := by
  obtain ⟨x, leaf, path, nd, e', k⟩ := h.keylessAt hu
  cases checks with
  | true =>
    obtain ⟨-, -, -, hno, -⟩ | ⟨f, v', hdel, ⟨rfl, -⟩ | rfl, hspace⟩ :=
      (costs_delete true e.hash s.root).ends (m := 0) hb (k.wp_delete_panics h.inv)
    · exact hno.elim
    · exact absurd rfl hspace
    · refine ⟨_, _, hrun.snoc ⟨by simp [Call.HasSpace], .delete hdel⟩, fun m₀ m hm => ?_⟩
      obtain ⟨m₁, -, hlast⟩ := hm.split
      cases hlast with
      | cons hstep _ => cases hstep
  | false =>
    obtain ⟨r, v', hdel, hwraps, -⟩ | ⟨f, v', -, ⟨rfl, -⟩, hspace⟩ :=
      (costs_delete false e.hash s.root).ends (m := 0) hb (k.wp_delete_wraps h.inv h.used)
    · have hlook := k.lookup_after h.used (hb.keys x _ k.node) hwraps
      have hstep : SpaceStep false ⟨v', r.1⟩ (.lookup e.hash (.ok (some e'))) ⟨v', r.1⟩ :=
        ⟨trivial, .lookup hlook⟩
      refine ⟨_, _, (hrun.snoc ⟨by simp [Call.HasSpace], .delete hdel⟩).snoc hstep,
        fun m₀ m hm => ?_⟩
      -- after a deletion that returned, the map has nothing under the hash
      obtain ⟨m₂, hm₂, hlast⟩ := hm.split
      obtain ⟨m₁, -, hdelete⟩ := hm₂.split
      cases hdelete with
      | cons hstep hnil =>
        cases hnil
        cases hstep
        cases hlast with
        | cons hstep _ =>
          generalize hres : (Except.ok (some e') : Except Fault (Option BTreeEntry)) = res at hstep
          cases hstep
          simp at hres
    · exact absurd rfl hspace

/-! ## A tree of one leaf -/

/-- A call that is fine and has space. -/
def FineStep (checks : Bool) (s : TreeState) (c : Call) (s' : TreeState) : Prop :=
  Fine s c ∧ c.HasSpace ∧ Step checks s c s'

/-- A root that is a leaf has no parent to underflow. -/
theorem not_underflows_leaf {blocks : Nat → Content} {key : Hash}
    (hb : blocks root = .node (.leaf es)) : ¬ Underflows blocks root key := by
  rintro ⟨-, path, leaf, e, hd, -, hkey⟩
  rw [descent_leaf hb] at hd
  cases hd
  exact hkey

/-- A freshly formatted disk of 64 blocks, data from block 2. -/
def smallVol : Vol :=
  ⟨fun _ => .other, .newForMkfs ⟨64, 1, 1, 2, by decide, by decide, by decide, by decide⟩⟩

/-- After the insertion of hash 7. -/
def leafVol₁ : Vol := (BTree.insert 0 (plainEntry 7) smallVol).2

/-- After the insertion of hash 5 as well. -/
def leafVol₂ : Vol := (BTree.insert 2 (plainEntry 5) leafVol₁).2

theorem leafVol₁_leaf : leafVol₁.blocks 2 = .node (.leaf [plainEntry 7]) := by decide +kernel

theorem leafVol₂_leaf : leafVol₂.blocks 3 = .node (.leaf [plainEntry 5, plainEntry 7]) := by
  decide +kernel

/-- Two insertions, a deletion and a lookup. -/
def leafCalls : List Call :=
  [.insert (plainEntry 7) (.ok (2, [], true)), .insert (plainEntry 5) (.ok (3, [2], true)),
    .delete 7 (.ok (4, [3])), .lookup 5 (.ok (some (plainEntry 5)))]

theorem fineStep_leafVol₁ :
    FineStep checks ⟨smallVol, 0⟩ (.insert (plainEntry 7) (.ok (2, [], true))) ⟨leafVol₁, 2⟩ :=
  ⟨.inl rfl, by simp [Call.HasSpace], .insert (Prod.ext (by decide +kernel) rfl)⟩

theorem fineStep_leafVol₂ :
    FineStep checks ⟨leafVol₁, 2⟩ (.insert (plainEntry 5) (.ok (3, [2], true))) ⟨leafVol₂, 3⟩ :=
  ⟨.inr (by rw [descent_leaf leafVol₁_leaf]; rfl), by simp [Call.HasSpace],
    .insert (Prod.ext (by decide +kernel) rfl)⟩

/-- The calls of `leafCalls` on the small disk. -/
theorem exists_leafRun : ∃ s, Run (FineStep true) ⟨smallVol, 0⟩ leafCalls s := by
  refine ⟨_, .cons fineStep_leafVol₁ (.cons fineStep_leafVol₂ (.cons
    ⟨⟨.inr (by decide +kernel), not_underflows_leaf leafVol₂_leaf⟩, by simp [Call.HasSpace],
      .delete (Prod.ext (by decide +kernel) rfl)⟩
    (.single ⟨.inr (by decide +kernel), trivial, .lookup (Prod.ext (by decide +kernel) rfl)⟩)))⟩

/-- A disk of 2^20 blocks, data from block 297. -/
def bigDisk : Geometry := ⟨2 ^ 20, 265, 32, 297, by decide, by decide, by decide, by decide⟩

/-- A freshly formatted big disk. -/
def bigVol : Vol := ⟨fun _ => .other, .newForMkfs bigDisk⟩

theorem bounded_bigVol (K : Nat) {n : Nat} (hn : n ≤ 2 ^ 20 - 297) : Bounded K n bigVol :=
  ⟨Bitmap.inv_newForMkfs bigDisk, hn, nofun⟩

/-! ## The main result -/

/-- **The B-tree is a finite map**: every run of fine calls from root 0 in which
no call runs out of space is a run of the map, call by call and result by result,
and `iter_all` reports the map's entries in ascending order. -/
theorem run_is_map_run {v : Vol} (hinv : v.bm.Inv) {calls : List Call} {s : TreeState}
    (hrun : Run (fun s c s' => Fine s c ∧ c.HasSpace ∧ Step checks s c s') ⟨v, 0⟩ calls s) :
    ∃ m, Run MapStep ⟨fun _ => none, 0⟩ calls m ∧ m.root = s.root ∧
      ∃ rounds es, iterAll s.vol.blocks s.root rounds = some es ∧
        (es.Pairwise fun a c => a.hash < c.hash) ∧
        ∀ key e, m.map key = some e ↔ e ∈ es ∧ e.hash = key := by
  have hempty : Represents ⟨v, 0⟩ ⟨fun _ => none, 0⟩ :=
    ⟨0, [], [], treeInv_empty hinv, Nat.zero_le _, rfl⟩
  obtain ⟨m, hmrun, hm⟩ := Run.simulate (R := Represents)
    (fun s c s' m h hs => represents_step h hs.1 hs.2.1 hs.2.2) hrun hempty
  refine ⟨m, hmrun, ?_, hm.iterAll⟩
  obtain ⟨_, _, _, -, -, rfl⟩ := hm
  rfl

/-- On the small disk: the calls of `leafCalls` are those of a map. -/
theorem run_is_map_run_leaf : ∃ s m,
    Run (fun s c s' => Fine s c ∧ c.HasSpace ∧ Step true s c s') ⟨smallVol, 0⟩ leafCalls s ∧
    Run MapStep ⟨fun _ => none, 0⟩ leafCalls m ∧ m.root = s.root := by
  obtain ⟨s, hrun⟩ := exists_leafRun
  obtain ⟨m, hm, hroot, -⟩ := run_is_map_run (Bitmap.inv_newForMkfs _) hrun
  exact ⟨s, m, hrun, hm, hroot⟩

/-- On a disk with blocks to spare there is a sequence of insertions and deletions
after which the deletion of a stored hash panics or, without overflow checks,
leaves the entry where `lookup` finds it. -/
theorem exists_not_map_run (checks : Bool) :
    ∃ calls s, Run (SpaceStep checks) ⟨bigVol, 0⟩ calls s ∧ ∀ m₀ m, ¬ Run MapStep m₀ calls m := by
  have hbound : Bounded 0 (8 + 8 * 3673 + 17 * 3673) bigVol := bounded_bigVol 0 (by decide)
  have hinv := hbound.inv
  obtain ⟨calls, s, hrun, H, es, bs, htree, hcase⟩ := exists_grown checks hinv hbound
  rcases hcase with ⟨hH, hlen, -⟩ | ⟨rfl, e, he, hlen, hb⟩
  · -- so many entries need three levels
    have := htree.length_le hH
    rw [hlen] at this
    exact absurd this (by decide)
  · obtain ⟨calls', s', es', bs', hrun', htree', hb', hu⟩ :=
      exists_underflow checks htree hlen he hb
    exact not_map_run (hrun.append hrun') htree' hb' hu

/-- **Not every run is one of the map's**, with or without overflow checks. -/
theorem exists_run_not_map :
    (∃ calls s, Run (SpaceStep false) ⟨bigVol, 0⟩ calls s ∧ ∀ m₀ m, ¬ Run MapStep m₀ calls m) ∧
      ∃ calls s, Run (SpaceStep true) ⟨bigVol, 0⟩ calls s ∧ ∀ m₀ m, ¬ Run MapStep m₀ calls m :=
  ⟨exists_not_map_run false, exists_not_map_run true⟩

/-! ## Room for a run -/

/-- The blocks a call takes at most. -/
def Call.cost : Call → Nat
  | .insert _ _ => 17
  | .delete _ _ => 8
  | _ => 0

/-- A call on the tree, with no hash above `K`. -/
def Call.Within (K : Nat) : Call → Prop
  | .insert entry _ => entry.hash ≤ K
  | .other => False
  | _ => True

section

variable {s s' : TreeState} {m : MapState} {c : Call} {K n : Nat}

/-- **Step lemma**: a call takes at most its cost off the blocks to spare. -/
theorem bounded_step (h : Represents s m) (hwithin : c.Within K)
    (hb : Bounded K (n + c.cost) s.vol) (hstep : Step checks s c s') :
    c.HasSpace ∧ Bounded K n s'.vol := by
  cases hstep with
  | insert hrun => exact (costs_insert s.root hwithin).result hb hrun
  | delete hrun => exact (costs_delete checks _ s.root).result hb hrun
  | @lookup key r v hrun =>
    refine ⟨trivial, ?_⟩
    obtain ⟨H, es, bs, hinv, -, -⟩ := h
    have hwp := wp_lookup key hinv
    cases r with
    | error e =>
      obtain ⟨-, rfl, -⟩ := of_wp_error hwp hrun
      exact hb
    | ok r =>
      obtain ⟨rfl, -⟩ := of_wp_ok hwp hrun
      exact hb
  | other => exact hwithin.elim

/-- **Run lemma**. -/
theorem bounded_run {calls : List Call} (h : Represents s m)
    (hrun : Run (fun s c s' => Fine s c ∧ Step checks s c s') s calls s')
    (hwithin : ∀ c ∈ calls, c.Within K) (hb : Bounded K (n + (calls.map Call.cost).sum) s.vol) :
    (∀ c ∈ calls, c.HasSpace) ∧ Bounded K n s'.vol ∧
      ∃ m', Run MapStep m calls m' ∧ Represents s' m' := by
  induction hrun generalizing m with
  | nil => exact ⟨by simp, hb, m, .nil m, h⟩
  | cons hstep _ ih =>
    obtain ⟨hc, hcs⟩ := List.forall_mem_cons.mp hwithin
    rw [List.map_cons, List.sum_cons, Nat.add_comm (Call.cost _), ← Nat.add_assoc] at hb
    obtain ⟨hspace, hb₁⟩ := bounded_step h hc hb hstep.2
    obtain ⟨m₁, hm₁, h₁⟩ := represents_step h hstep.1 hspace hstep.2
    obtain ⟨hspaces, hb', m', hm', h'⟩ := ih h₁ hcs hb₁
    exact ⟨List.forall_mem_cons.mpr ⟨hspace, hspaces⟩, hb', m', .cons hm₁ hm', h'⟩

end

/-- **Room for a run**: if 17 blocks for each insertion and 8 for each deletion are free at the
start, a run of fine calls from the empty tree does not run out of space, takes no more than that,
and is a run of the map. -/
theorem insert_delete_space {v : Vol} {K : Nat} (hinv : v.bm.Inv)
    (hkeys : ∀ b n, v.blocks b = .node n → KeysLe K n) {calls : List Call} {s : TreeState}
    (hrun : Run (fun s c s' => Fine s c ∧ Step checks s c s') ⟨v, 0⟩ calls s)
    (hwithin : ∀ c ∈ calls, c.Within K) (hspace : (calls.map Call.cost).sum ≤ v.bm.freeCount) :
    (∀ c ∈ calls, c.HasSpace) ∧ s.vol.bm.Inv ∧
      v.bm.freeCount ≤ s.vol.bm.freeCount + (calls.map Call.cost).sum ∧
      ∃ m, Run MapStep ⟨fun _ => none, 0⟩ calls m ∧ m.root = s.root := by
  have hempty : Represents ⟨v, 0⟩ ⟨fun _ => none, 0⟩ :=
    ⟨0, [], [], treeInv_empty hinv, Nat.zero_le _, rfl⟩
  have hb : Bounded K (v.bm.freeCount - (calls.map Call.cost).sum + (calls.map Call.cost).sum) v :=
    ⟨hinv, (Nat.sub_add_cancel hspace).le, hkeys⟩
  obtain ⟨hspaces, hb', m, hm, _, _, _, -, -, rfl⟩ := bounded_run hempty hrun hwithin hb
  exact ⟨hspaces, hb'.inv, Nat.sub_le_iff_le_add.mp hb'.space, _, hm, rfl⟩

/-- On the small disk: the calls of `leafCalls` take at most 42 blocks. -/
theorem insert_delete_space_leaf : ∃ s m,
    Run (fun s c s' => Fine s c ∧ Step true s c s') ⟨smallVol, 0⟩ leafCalls s ∧
    (∀ c ∈ leafCalls, c.HasSpace) ∧ smallVol.bm.freeCount ≤ s.vol.bm.freeCount + 42 ∧
    Run MapStep ⟨fun _ => none, 0⟩ leafCalls m := by
  obtain ⟨s, hrun⟩ := exists_leafRun
  obtain ⟨_, hrun, rfl⟩ := Run.simulate (R := Eq)
    (fun s c s' _ h hs => ⟨s', h ▸ And.intro hs.1 hs.2.2, rfl⟩) hrun rfl
  have hwithin : ∀ c ∈ leafCalls, c.Within 7 := by simp [leafCalls, Call.Within, plainEntry]
  obtain ⟨hspaces, -, hfree, m, hm, -⟩ :=
    insert_delete_space (v := smallVol) (Bitmap.inv_newForMkfs _) nofun hrun hwithin (by decide)
  exact ⟨s, m, hrun, hspaces, hfree, hm⟩

end NopeekOS.Storage.BTree
