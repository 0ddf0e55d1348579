import NopeekOS.Storage.BTreeFiniteMap

/-!
# Block accounting of the B-tree

A call that returns `Ok` should retire exactly the blocks that are no longer
reachable and take exactly those that have become so (`Accounts`). It does,
except in two cases: deleting the only entry of a root leaf takes a block for the
empty leaf before it returns root 0, and a deletion that underflows without
overflow checks says that a leaf is retired which is still reachable.
-/

namespace NopeekOS.Storage.BTree

open Lib FaultState

/-- From `root` to `root'`: no block of the old tree was written, the retired
blocks are those only the old tree has, and the newly allocated ones those only
the new tree has. -/
structure Accounts (v : Vol) (root : Nat) (v' : Vol) (root' : Nat) (old : List Nat) : Prop where
  unwritten : ∀ x, ReachedFrom v.blocks root x → v'.blocks x = v.blocks x
  nodup : old.Nodup
  retired : ∀ x, x ∈ old ↔ ReachedFrom v.blocks root x ∧ ¬ ReachedFrom v'.blocks root' x
  allocated : ∀ x, (v.bm.isFree x = true ∧ v'.bm.isFree x = false) ↔
    ReachedFrom v'.blocks root' x ∧ ¬ ReachedFrom v.blocks root x

/-- The new root and the retired blocks a call returned. -/
def Call.returned : Call → Option (Nat × List Nat)
  | .insert _ (.ok (root, old, _)) => some (root, old)
  | .delete _ (.ok (root, old)) => some (root, old)
  | _ => none

/-- The root is a leaf with this one entry. -/
def LastEntry (s : TreeState) (key : Hash) : Prop :=
  s.root ≠ 0 ∧ ∃ e, s.vol.blocks s.root = .node (.leaf [e]) ∧ e.hash = key

/-- The call deletes neither the only entry of a root leaf nor the only entry
below a node other than the root. -/
def Clean (s : TreeState) : Call → Prop
  | .delete key _ => ¬ LastEntry s key ∧ ¬ Underflows s.vol.blocks s.root key
  | _ => True

/-- The call does not underflow. -/
def NoUnderflow (s : TreeState) : Call → Prop
  | .delete key _ => ¬ Underflows s.vol.blocks s.root key
  | _ => True

variable {checks : Bool} {v v' : Vol} {root root' H H' : Nat} {es es' : List BTreeEntry}
variable {bs bs' old A : List Nat} {key : Hash} {s s' : TreeState} {c : Call}

/-- A copy-on-write call between two well-formed trees accounts for its blocks. -/
theorem accounts_of_cow (h : TreeInv v root H es bs) (hcow : Cow v bs old A bs' v')
    (h' : TreeInv v' root' H' es' bs') : Accounts v root v' root' old where
  unwritten x hx := hcow.grew.frame_of_used h.used x (h.reach_iff.mp hx)
  nodup := (List.nodup_append.mp (hcow.nodup_append h.nodup h.used)).2.1
  retired x := by
    rw [h.reach_iff, h'.reach_iff]
    exact hcow.mem_old_iff h.nodup h.used
  allocated x := by
    rw [h.reach_iff, h'.reach_iff, ← hcow.mem_fresh_iff h.used]
    constructor
    · rintro ⟨hfree, hused⟩
      by_contra hx
      have := (hcow.grew.isFree_iff x).mpr ⟨hfree, hx⟩
      rw [hused] at this
      cases this
    · exact fun hx => ⟨hcow.grew.fresh x hx, hcow.grew.used_new x hx⟩

/-! ## The tree between calls -/

/-- **Step lemma**: a call that does not underflow leaves a well-formed tree. -/
theorem treeInv_step (h : TreeInv s.vol s.root H es bs) (hfine : NoUnderflow s c)
    (hstep : Step checks s c s') : ∃ H' es' bs', TreeInv s'.vol s'.root H' es' bs' := by
  cases hstep with
  | @insert entry r v hrun =>
    have hwp := wp_insert entry h
    cases r with
    | error e =>
      rcases of_wp_error hwp hrun with ⟨-, A, hgrew⟩ | ⟨-, rfl, -⟩
      · exact ⟨H, es, bs, h.grew hgrew⟩
      · exact ⟨H, es, bs, h⟩
    | ok r =>
      rcases of_wp_ok hwp hrun with ⟨rfl, rfl, -⟩ | ⟨-, es', A, bs', H', -, hcow, hroot, -⟩
      · exact ⟨H, es, bs, h⟩
      · exact ⟨H', es', bs', h.cow hcow hroot⟩
  | @delete key r v hrun =>
    have hwp := wp_delete checks h hfine
    cases r with
    | error e =>
      rcases of_wp_error hwp hrun with (⟨-, A, hgrew⟩ | ⟨-, rfl, -⟩) | ⟨-, rfl, -⟩
      · exact ⟨H, es, bs, h.grew hgrew⟩
      · exact ⟨H, es, bs, h⟩
      · exact ⟨H, es, bs, h⟩
    | ok r =>
      rcases of_wp_ok hwp hrun with ⟨-, -, hroot, -, n, hgrew⟩ |
        ⟨-, es', A, bs', H', -, hcow, hroot, -⟩
      · refine ⟨0, [], [], ?_⟩
        show TreeInv v r.1 0 [] []
        rw [hroot]
        exact treeInv_empty hgrew.inv
      · exact ⟨H', es', bs', h.cow hcow hroot⟩
  | @lookup key r v hrun =>
    have hwp := wp_lookup key h
    cases r with
    | error e =>
      obtain ⟨-, rfl, -⟩ := of_wp_error hwp hrun
      exact ⟨H, es, bs, h⟩
    | ok r =>
      obtain ⟨rfl, -⟩ := of_wp_ok hwp hrun
      exact ⟨H, es, bs, h⟩
  | other hbm hgeo hsame =>
    exact ⟨H, es, bs, h.same hbm hgeo fun x hx => hsame x (h.reach_iff.mpr hx)⟩

/-- **Run lemma**. -/
theorem treeInv_run (hinv : v.bm.Inv) {calls : List Call}
    (hrun : Run (fun s c s' => NoUnderflow s c ∧ Step checks s c s') ⟨v, 0⟩ calls s) :
    ∃ H es bs, TreeInv s.vol s.root H es bs :=
  hrun.invariant (I := fun s => ∃ H es bs, TreeInv s.vol s.root H es bs)
    (fun _ _ _ ⟨_, _, _, h⟩ hs => treeInv_step h hs.1 hs.2) ⟨0, [], [], treeInv_empty hinv⟩

/-! ## One call -/

section

variable (h : TreeInv s.vol s.root H es bs)

include h

theorem lastEntry_iff : LastEntry s key ↔ H = 0 ∧ ∃ e, es = [e] ∧ e.hash = key := by
  constructor
  · rintro ⟨hroot, e, hb, he⟩
    obtain ⟨top, ht⟩ := h.tree_of_ne hroot
    cases H with
    | zero =>
      have := ht.1.symm.trans hb
      cases this
      exact ⟨rfl, e, rfl, he⟩
    | succ H =>
      obtain ⟨nd, -, hb', -⟩ := ht
      rw [hb] at hb'
      cases hb'
  · rintro ⟨rfl, e, rfl, he⟩
    have hroot : s.root ≠ 0 := fun h₀ => by cases (h.tree_empty h₀).2.1
    obtain ⟨top, ht⟩ := h.tree_of_ne hroot
    exact ⟨hroot, e, ht.1, he⟩

theorem accounts_insert {entry : BTreeEntry} {wasNew : Bool}
    (hrun : BTree.insert s.root entry s.vol = (.ok (root', old, wasNew), v')) :
    Accounts s.vol s.root v' root' old := by
  rcases of_wp_ok (wp_insert entry h) hrun with ⟨hr, rfl, -⟩ |
    ⟨-, es', A, bs', H', -, hcow, hroot, -⟩
  · cases hr
    exact accounts_of_cow h (Cow.refl h.inv bs) h
  · exact accounts_of_cow h hcow (h.cow hcow hroot)

/-- A deletion that does not underflow accounts for its blocks, unless it was of
the last entry. -/
theorem accounts_delete (hfine : ¬ Underflows s.vol.blocks s.root key)
    (hrun : BTree.delete checks s.root key s.vol = (.ok (root', old), v')) :
    Accounts s.vol s.root v' root' old ↔ ¬ LastEntry s key := by
  rw [lastEntry_iff h]
  rcases of_wp_ok (wp_delete checks h hfine) hrun with ⟨rfl, hone, hroot, -, n, hgrew⟩ |
    ⟨hnot, es', A, bs', H', -, hcow, hroot, -⟩
  · -- the block taken for the empty leaf is reachable from nowhere
    obtain rfl : root' = 0 := hroot
    refine iff_of_false (fun hacc => ?_) fun hne => hne ⟨rfl, hone⟩
    have := (hacc.allocated n).mp ⟨hgrew.fresh n (by simp), hgrew.used_new n (by simp)⟩
    exact this.1.1 rfl
  · refine iff_of_true (accounts_of_cow h hcow (h.cow hcow hroot)) ?_
    rintro ⟨rfl, e, rfl, -⟩
    exact hnot ⟨rfl, rfl⟩

/-- A deletion that underflows does not. -/
theorem not_accounts_underflow (hu : Underflows s.vol.blocks s.root key)
    (hrun : BTree.delete checks s.root key s.vol = (.ok (root', old), v')) :
    ¬ Accounts s.vol s.root v' root' old := by
  obtain ⟨x, leaf, path, nd, e, k⟩ := h.keylessAt hu
  cases checks with
  | true => exact (of_wp_ok (k.wp_delete_panics h.inv) hrun).elim
  | false =>
    obtain ⟨hmem, hreach⟩ := k.reach_leaf (h.pos leaf (k.subset leaf List.mem_cons_self))
      (of_wp_ok (k.wp_delete_wraps h.inv h.used) hrun)
    exact fun hacc => ((hacc.retired leaf).mp hmem).2 hreach

end

/-! ## The main result -/

/-- **Block accounting**: after any run of calls that do not underflow, a call that
returns `Ok` accounts for its blocks exactly if it is clean. -/
theorem accounts_iff_clean (hinv : v.bm.Inv) {calls : List Call}
    (hrun : Run (fun s c s' => NoUnderflow s c ∧ Step checks s c s') ⟨v, 0⟩ calls s)
    (hstep : Step checks s c s') (hret : c.returned = some (root', old)) :
    Accounts s.vol s.root s'.vol root' old ↔ Clean s c := by
  obtain ⟨H, es, bs, h⟩ := treeInv_run hinv hrun
  cases hstep with
  | @insert entry r v hins =>
    match r, hret with
    | .ok (_, _, wasNew), rfl => exact iff_of_true (accounts_insert h hins) trivial
  | @delete key r v hdel =>
    match r, hret with
    | .ok (_, _), rfl =>
      by_cases hu : Underflows s.vol.blocks s.root key
      · exact iff_of_false (not_accounts_underflow h hu hdel) fun hclean => hclean.2 hu
      · rw [accounts_delete h hu hdel]
        exact ⟨fun hlast => ⟨hlast, hu⟩, fun hclean => hclean.1⟩
  | lookup _ => cases hret
  | other _ _ _ => cases hret

/-- On the small disk: the deletion of one of two entries retires the leaf they were in and takes a
block for the new one. -/
theorem accounts_iff_clean_leaf : ∃ s',
    Run (fun s c s' => NoUnderflow s c ∧ Step true s c s') ⟨smallVol, 0⟩
      [.insert (plainEntry 7) (.ok (2, [], true)), .insert (plainEntry 5) (.ok (3, [2], true))]
      ⟨leafVol₂, 3⟩ ∧
    Step true ⟨leafVol₂, 3⟩ (.delete 7 (.ok (4, [3]))) s' ∧
    Accounts leafVol₂ 3 s'.vol s'.root [3] := by
  have hrun : Run (fun s c s' => NoUnderflow s c ∧ Step true s c s') ⟨smallVol, 0⟩
      [.insert (plainEntry 7) (.ok (2, [], true)), .insert (plainEntry 5) (.ok (3, [2], true))]
      ⟨leafVol₂, 3⟩ :=
    .cons ⟨trivial, fineStep_leafVol₁.2.2⟩ (.single ⟨trivial, fineStep_leafVol₂.2.2⟩)
  have hstep : Step true ⟨leafVol₂, 3⟩ (.delete 7 (.ok (4, [3]))) _ :=
    .delete (Prod.ext (by decide +kernel) rfl)
  have hlast : ¬ LastEntry ⟨leafVol₂, 3⟩ 7 := by
    rintro ⟨-, e, hb, -⟩
    cases leafVol₂_leaf.symm.trans hb
  exact ⟨_, hrun, hstep, (accounts_iff_clean (Bitmap.inv_newForMkfs _) hrun hstep rfl).mpr
    ⟨hlast, not_underflows_leaf leafVol₂_leaf⟩⟩

/-- **Deleting the only entry leaks a block**: insert one entry into the empty tree
of the small disk and delete it again. -/
theorem exists_delete_not_accounts : ∃ s s' root' old, Run (Step false) ⟨smallVol, 0⟩
        [.insert (plainEntry 7) (.ok (s.root, [], true))] s ∧
      Step false s (.delete 7 (.ok (root', old))) s' ∧
      ¬ Accounts s.vol s.root s'.vol root' old := by
  have hstep : Step false ⟨smallVol, 0⟩ _ ⟨leafVol₁, 2⟩ := fineStep_leafVol₁.2.2
  have hfine : NoUnderflow ⟨smallVol, 0⟩ (.insert (plainEntry 7) (.ok (2, [], true))) := trivial
  obtain ⟨H, es, bs, h⟩ := treeInv_step (treeInv_empty (Bitmap.inv_newForMkfs _)) hfine hstep
  have hlast : LastEntry ⟨leafVol₁, 2⟩ 7 := ⟨by decide, plainEntry 7, leafVol₁_leaf, rfl⟩
  have hrun : BTree.delete false 2 7 leafVol₁ = (.ok (0, [2]), _) := Prod.ext (by decide +kernel) rfl
  refine ⟨⟨leafVol₁, 2⟩, _, 0, [2], .single hstep, .delete hrun, fun hacc => ?_⟩
  exact (accounts_delete h (not_underflows_leaf leafVol₁_leaf) hrun).mp hacc hlast

end NopeekOS.Storage.BTree
