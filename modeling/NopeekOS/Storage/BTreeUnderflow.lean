import NopeekOS.Storage.BTreeCost
import NopeekOS.Storage.BTreeDelete
import NopeekOS.Storage.BTreeRead

/-!
# The deletion that underflows

`remove_from_parent` of the only child of a node below the root computes `n - 1`
with `n = 0`, twice. A build with overflow checks panics there. A build without
them keeps the child: the slot before the first one is the `right_child` field,
and the new count of 65535 is clamped to the capacity, so the node comes back
with its left-over slots and the leaf it should have lost.

The first part finds such a node: every hash within the bounds of a leaf's parent
is routed to that parent (`exists_parent`).
-/

namespace NopeekOS.Storage.BTree

open Lib FaultState List

variable {blocks : Nat → Content} {h lo hi b : Nat} {es : List BTreeEntry} {bs : List Nat} {v : Vol}
  {e : BTreeEntry}
variable {nd : Internal} {lo₀ hi₀ idx : Nat} {eL eR : List BTreeEntry} {bN : List Nat}
variable {H top : Nat} {path : List (Nat × Nat)} {before after : List BTreeEntry}
variable {checks : Bool} {key : Hash}

/-! ## Routing by bounds -/

/-- Every node of the path is on the way of every hash of the hole. -/
theorem Ctx.routed {x : Nat} (hctx : Ctx blocks H top path h lo hi before after bs) (hlo : lo ≤ x)
    (hhi : x < hi) : ∀ p ∈ path, ∃ nd, blocks p.1 = .node (.internal nd) ∧ nd.Ok ∧
      splitPos nd x = p.2 := by
  induction hctx with
  | root => intro p hp; cases hp
  | cons hb hok hhole _ ih =>
    exact forall_mem_cons.mpr ⟨⟨_, hb, hok, hhole.splitPos_eq hok hlo hhi⟩,
      ih (hhole.bounds.1.trans hlo) (hhi.trans_le hhole.bounds.2.1)⟩

/-- **The parent of a leaf**, with the bounds within which it is the parent. -/
theorem exists_parent {bs' : List Nat} (hctx : Ctx blocks H top path (h + 1) lo hi before after bs)
    (htree : TreeAt blocks (h + 1) lo hi b es bs') (hlo : lo ≤ key) (hhi : key < hi) :
    ∃ path' x lo' hi' before' after' es' bs₁ bs₂,
      Ctx blocks H top path' 1 lo' hi' before' after' bs₁ ∧ TreeAt blocks 1 lo' hi' x es' bs₂ ∧
      lo' ≤ key ∧ key < hi' ∧ before ++ es ++ after = before' ++ es' ++ after' ∧
      (bs₂ ++ bs₁).Perm (bs' ++ bs) ∧ path'.length = path.length + h ∧ (∀ p ∈ path, p ∈ path') ∧
      ∀ y, lo' ≤ y → y < hi' → ∀ levels,
        descent blocks y (levels + h) b path = descent blocks y levels x path' := by
  induction h generalizing lo hi b path es before after bs bs' with
  | zero =>
    exact ⟨path, b, lo, hi, before, after, es, bs, bs', hctx, htree, hlo, hhi, rfl, .refl _, rfl,
      fun _ hp => hp, fun _ _ _ _ => rfl⟩
  | succ h ih =>
    obtain ⟨nd, -, hb, -⟩ := id htree
    obtain ⟨lo₁, hi₁, before₁, after₁, es₁, bs₁, bs₂, hctx₁, htree₁, hlo₁, hhi₁, hes₁, hperm₁⟩ :=
      htree.descend hctx hb hlo hhi (findChildWithIdx_eq nd key)
    obtain ⟨path', x, lo', hi', before', after', es', bs₃, bs₄, hctx', htree', hlo', hhi', hes',
      hperm', hlen, hsub, hdesc⟩ := ih hctx₁ htree₁ hlo₁ hhi₁
    refine ⟨path', x, lo', hi', before', after', es', bs₃, bs₄, hctx', htree', hlo', hhi',
      hes₁.trans hes', hperm'.trans hperm₁, ?_, fun p hp => hsub p (mem_cons_of_mem _ hp), ?_⟩
    · rw [hlen, length_cons]
      omega
    · intro y hy₁ hy₂ levels
      -- `b` is on the final path, so it sends `y` where it sends `key`
      obtain ⟨nd', hb', -, hpos⟩ := hctx'.routed hy₁ hy₂ _ (hsub _ mem_cons_self)
      rw [hb] at hb'
      cases hb'
      rw [← Nat.add_assoc, descent_internal hb, findChildWithIdx_eq, hpos]
      exact hdesc y hy₁ hy₂ levels

section

variable {bs' : List Nat} (htree : TreeAt blocks 1 lo hi b es bs')

include htree

/-- A parent with no key: its only leaf has all its entries. -/
theorem TreeAt.of_keyless (hb : blocks b = .node (.internal nd)) (h₀ : nd.count = 0) (y : Hash)
    (levels : Nat) (path : List (Nat × Nat)) :
    blocks nd.rightChild = .node (.leaf es) ∧ bs' = [b, nd.rightChild] ∧
      descent blocks y (levels + 1) b path = some ((b, 0) :: path, nd.rightChild, es) := by
  obtain ⟨nd', cs, hb', hok, hchain, rfl⟩ := htree
  rw [hb] at hb'
  cases hb'
  have hused : nd.used = [] := eq_nil_of_length_eq_zero (hok.length_used.trans h₀)
  rw [hused] at hchain
  obtain ⟨hleaf, -, hcs⟩ := Chain.nil_iff.mp hchain
  have hpos : splitPos nd y = 0 := splitPos_eq (L := []) hok hused nofun nofun
  refine ⟨hleaf, by rw [hcs], ?_⟩
  rw [descent_internal hb, findChildWithIdx_eq, hpos, childAt, if_neg (by omega)]
  exact descent_leaf hleaf

/-- A parent with a key has at least two entries below it. -/
theorem TreeAt.two_le_length (hb : blocks b = .node (.internal nd)) (hpos : 0 < nd.count) :
    2 ≤ es.length := by
  obtain ⟨nd', cs, hb', hok, hchain, rfl⟩ := htree
  rw [hb] at hb'
  cases hb'
  have hleaf : ∀ {lo hi b es bs}, TreeAt blocks 0 lo hi b es bs → 0 < es.length :=
    fun ht => length_pos_iff.mpr ht.2.1.2.2.2
  match hused : nd.used with
  | [] =>
    rw [← hok.length_used, hused] at hpos
    cases hpos
  | (k, c) :: R =>
    rw [hused] at hchain
    obtain ⟨m, _, e₂, _, _, ⟨f₁, f₂, _, _, _, hc, _, rfl, _⟩, hright, rfl, _⟩ := hchain
    have h₁ := hleaf hc
    have h₂ := hleaf hright
    simp only [length_append]
    omega

/-- The descent from a parent of leaves ends right below it. -/
theorem TreeAt.descent_parent {levels : Nat} {y : Hash}
    {r : List (Nat × Nat) × Nat × List BTreeEntry}
    (hctx : Ctx blocks H top path 1 lo hi before after bs) (hlo : lo ≤ y) (hhi : y < hi)
    (hd : descent blocks y levels b path = some r) : ∃ i, r.1 = (b, i) :: path := by
  obtain ⟨nd, -, hb, -⟩ := id htree
  cases levels with
  | zero =>
    rw [descent, hb] at hd
    cases hd
  | succ levels =>
    obtain ⟨_, _, _, _, es', _, _, -, hleaf, -⟩ := htree.descend hctx hb hlo hhi rfl
    rw [descent_internal hb] at hd
    have := (descent_leaf hleaf.1).symm.trans hd
    exact ⟨_, by rw [← Option.some.inj this]⟩

end

/-- The entries around a hole are not within its bounds. -/
theorem mem_of_bounds (hctx : Ctx blocks H top path h lo hi before after bs)
    (he : e ∈ before ++ es ++ after) (hlo : lo ≤ e.hash) (hhi : e.hash < hi) : e ∈ es := by
  rcases mem_append.mp he with he | he
  · rcases mem_append.mp he with he | he
    · exact absurd (hctx.bounds.1 e he) (Nat.not_lt.mpr hlo)
    · exact he
  · exact absurd (hctx.bounds.2 e he) (Nat.not_le.mpr hhi)

/-- **One more entry can go, or the next deletion underflows**: in a tree of at
least three levels, some entry other than `e` can be deleted without underflow, or
the deletion of `e` underflows. -/
theorem exists_other_or_underflows {root : Nat}
    (h : TreeInv v root (H + 2) es bs) (hH : H + 2 ≤ MAX_TREE_DEPTH - 1) (he : e ∈ es) :
    Underflows v.blocks root e.hash ∨
      ∃ e' ∈ es, e'.hash ≠ e.hash ∧ ¬ Underflows v.blocks root e'.hash := by
  have hroot : root ≠ 0 := fun h₀ => by cases (h.tree_empty h₀).1
  obtain ⟨top, htop, htree⟩ := h.rooted hroot e.hash
  obtain ⟨path', x, lo', hi', before', after', es', bs₁, bs₂, hctx, hparent, hlo, hhi, hes, -,
    hlen, -, hdesc⟩ := exists_parent .root htree (Nat.zero_le _) htop
  rw [nil_append, append_nil] at hes
  have he' : e ∈ es' := mem_of_bounds hctx (hes ▸ he) hlo hhi
  have hsub : ∀ c ∈ es', c ∈ es := fun c hc => by
    rw [hes]
    exact mem_append_left _ (mem_append_right _ hc)
  have hbounds := (TreeAt.sorted _ _ _ _ _ hparent)
  have hlevels : MAX_TREE_DEPTH - 1 = (5 - H + 1) + (H + 1) := by
    have hdepth : MAX_TREE_DEPTH = 8 := rfl
    omega
  obtain ⟨nd, -, hb, -⟩ := id hparent
  -- another entry below the same parent, if there is one
  have hother : 2 ≤ es'.length → ∃ e' ∈ es', e'.hash ≠ e.hash := by
    intro htwo
    match es', htwo with
    | a :: c :: rest, _ =>
      have hac := (pairwise_cons.mp hbounds.1).1 c mem_cons_self
      by_cases ha : a.hash = e.hash
      · exact ⟨c, by simp, by rw [← ha]; exact Nat.ne_of_gt hac⟩
      · exact ⟨a, mem_cons_self, ha⟩
  obtain ⟨q, rest, hpath⟩ : ∃ q rest, path' = q :: rest := by
    match path', hlen with
    | q :: rest, _ => exact ⟨q, rest, rfl⟩
  by_cases hone : es'.length < 2
  · -- `e` is all there is below the parent
    have hcount : nd.count = 0 := by
      by_contra hpos
      exact absurd (hparent.two_le_length hb (Nat.pos_of_ne_zero hpos)) (Nat.not_le.mpr hone)
    obtain rfl : es' = [e] := by
      match es', he', hone with
      | [c], he', _ => rw [mem_singleton.mp he']
    have hd := hdesc e.hash hlo hhi (5 - H + 1)
    rw [← hlevels, (hparent.of_keyless hb hcount e.hash _ _).2.2] at hd
    refine .inl ⟨hroot, _, _, e, hd, rfl, ?_⟩
    rw [hpath]
    exact ⟨nd, hb, hcount⟩
  · obtain ⟨e', he', hne⟩ := hother (Nat.not_lt.mp hone)
    refine .inr ⟨e', hsub e' he', hne, ?_⟩
    rintro ⟨-, path, leaf, e₀, hd, -, hkey⟩
    obtain ⟨hlo₁, hhi₁⟩ := hbounds.2 e' he'
    rw [hlevels, hdesc e'.hash hlo₁ hhi₁] at hd
    obtain ⟨i, hp⟩ := hparent.descent_parent hctx hlo₁ hhi₁ hd
    obtain rfl : path = (x, i) :: path' := hp
    rw [hpath] at hkey
    obtain ⟨nd', hb', hcount⟩ := hkey
    have hsame := (hparent.of_keyless hb' hcount e'.hash _ _).2.2.symm.trans hd
    obtain rfl : es' = [e₀] := (Prod.mk.inj (Prod.mk.inj (Option.some.inj hsame)).2).2
    exact hone (by simp)

/-! ## Where a deletion underflows -/

/-- The place of the underflow: the node `x` below the root with no key, its only
leaf with the one entry `e`, and the path above. -/
structure KeylessAt (v : Vol) (root : Nat) (key : Hash) (bs : List Nat) (x leaf : Nat)
    (path : List (Nat × Nat)) (nd : Internal) (e : BTreeEntry) : Prop where
  root_ne : root ≠ 0
  descent_eq : descent v.blocks key (MAX_TREE_DEPTH - 1) root [] = some ((x, 0) :: path, leaf, [e])
  hash_eq : e.hash = key
  path_ne : path ≠ []
  path_le : path.length ≤ 6
  node : v.blocks x = .node (.internal nd)
  ok : nd.Ok
  keyless : nd.count = 0
  right : nd.rightChild = leaf
  atLeaf : v.blocks leaf = .node (.leaf [e])
  routed : ∀ p ∈ path, ∃ nd, v.blocks p.1 = .node (.internal nd) ∧ nd.Ok ∧ splitPos nd key = p.2
  subset : ∀ y ∈ leaf :: x :: path.map Prod.fst, y ∈ bs

theorem TreeInv.keylessAt {root : Nat} (h : TreeInv v root H es bs)
    (hu : Underflows v.blocks root key) :
    ∃ x leaf path nd e, KeylessAt v root key bs x leaf path nd e := by
  obtain ⟨hroot, path, leaf, e, hd, hek, hkey⟩ := hu
  obtain ⟨top, htop, htree⟩ := h.rooted hroot key
  have hsome : (descent v.blocks key (MAX_TREE_DEPTH - 1) root []).isSome := by
    rw [hd]
    rfl
  have hH := (h.search hroot key).height_le hsome
  cases H with
  | zero =>
    rw [descent_leaf htree.1] at hd
    cases hd
    exact absurd hkey id
  | succ H =>
    obtain ⟨path', x, lo', hi', before', after', es', bs₁, bs₂, hctx, hparent, hlo, hhi, -, hperm,
      hlen, -, hdesc⟩ := exists_parent .root htree (Nat.zero_le _) htop
    have hdepth : MAX_TREE_DEPTH = 8 := rfl
    have hlevels : MAX_TREE_DEPTH - 1 = (6 - H + 1) + H := by omega
    obtain ⟨nd, -, hb, hok, -⟩ := id hparent
    have hd' := hd
    rw [hlevels, hdesc key hlo hhi] at hd'
    obtain ⟨i, hp⟩ := hparent.descent_parent hctx hlo hhi hd'
    obtain rfl : path = (x, i) :: path' := hp
    obtain ⟨hcount, hne⟩ : nd.count = 0 ∧ path' ≠ [] := by
      match path', hkey with
      | q :: rest, ⟨nd', hb', hcount⟩ =>
        rw [hb] at hb'
        cases hb'
        exact ⟨hcount, by simp⟩
    obtain ⟨hleaf, hbs₂, hsame⟩ := hparent.of_keyless hb hcount key (6 - H) path'
    rw [hsame] at hd'
    cases hd'
    refine ⟨x, nd.rightChild, path', nd, e, hroot, hd, hek, hne, ?_, hb, hok, hcount, rfl, hleaf,
      hctx.routed hlo hhi, fun y hy => ?_⟩
    · rw [hlen, length_nil]
      omega
    · rw [append_nil] at hperm
      refine hperm.mem_iff.mp (mem_append.mpr ?_)
      rw [hbs₂]
      rcases mem_cons.mp hy with rfl | hy
      · exact .inl (by simp)
      rcases mem_cons.mp hy with rfl | hy
      · exact .inl (by simp)
      · obtain ⟨p, hp, rfl⟩ := mem_map.mp hy
        exact .inr (hctx.path_subset p hp)

theorem readNode_run {n : Node} (h : v.blocks b = .node n) : readNode b v = (.ok n, v) := by
  unfold readNode
  rw [h]

/-- `delete` is its leaf case at the end of the descent. -/
theorem deleteFrom_eq {leaf levels : Nat} {path' : List (Nat × Nat)}
    (hd : descent v.blocks key levels b path = some (path', leaf, es)) :
    deleteFrom checks key levels b path v = deleteLeaf checks leaf path' es key v := by
  induction levels generalizing b path with
  | zero =>
    rw [descent] at hd
    split at hd
    · next hb =>
      cases hd
      rw [deleteFrom, bind_run (readNode_run hb)]
    · cases hd
    · cases hd
  | succ levels ih =>
    cases hb : v.blocks b with
    | other =>
      rw [descent, hb] at hd
      cases hd
    | node n =>
      cases n with
      | leaf es' =>
        rw [descent_leaf hb] at hd
        cases hd
        rw [deleteFrom, bind_run (readNode_run hb)]
      | internal nd =>
        rw [descent_internal hb] at hd
        rw [deleteFrom, bind_run (readNode_run hb)]
        exact ih hd

variable {v : Vol} {root x leaf : Nat} {e : BTreeEntry}

theorem KeylessAt.delete_eq (k : KeylessAt v root key bs x leaf path nd e) :
    delete checks root key v = removeFromParent checks ((x, 0) :: path) [leaf] v := by
  rw [delete, if_neg k.root_ne, deleteFrom_eq k.descent_eq]
  have hfind : [e].findIdx? (fun e => e.hash == key) = some 0 := by
    simp [findIdx?_cons, k.hash_eq]
  unfold deleteLeaf
  rw [hfind]
  show (if [e].length = 1 ∧ (x, 0) :: path ≠ [] then (_ : FsM (Nat × List Nat)) else _) v = _
  rw [if_pos ⟨rfl, by simp⟩]

/-- **With overflow checks the deletion panics**, unless it runs out of space
first. -/
theorem KeylessAt.wp_delete_panics (k : KeylessAt v root key bs x leaf path nd e)
    (hinv : v.bm.Inv) :
    wp (delete true root key) (fun _ _ => False)
      (fun f v' => OutOfSpace v f v' ∨ f = .panic) v := by
  refine wp_congr k.delete_eq ?_
  rw [removeFromParent, wp_bind]
  refine wp_readInternal k.node ?_
  rw [if_neg fun hc => k.path_ne hc.2]
  refine wp_seq_mono (wp_allocBlock hinv) (fun f w hf => .inl hf) fun x' v₁ _ => ?_
  unfold removeChild lastChild
  rw [if_neg (by rw [k.keyless]; omega), if_pos k.keyless]
  exact .inr rfl

/-! ## Without overflow checks -/

theorem splitPos_setChild (nd : Internal) (i c : Nat) (y : Hash) :
    splitPos (setChild nd i c) y = splitPos nd y := by
  have hkey : ∀ j, (setChild nd i c).key j = nd.key j := by
    intro j
    unfold setChild
    split_ifs
    · show ((nd.slots.modify i _).getD j (0, 0)).1 = (nd.slots.getD j (0, 0)).1
      rw [getD_eq_getElem?_getD, getD_eq_getElem?_getD, getElem?_modify]
      cases nd.slots[j]? with
      | none => rfl
      | some s =>
        split_ifs <;> rfl
    · rfl
  have hcount : (setChild nd i c).count = nd.count := by
    unfold setChild
    split_ifs <;> rfl
  unfold splitPos
  simp only [hkey, hcount]

theorem childAt_setChild (hok : nd.Ok) (i c : Nat) : childAt (setChild nd i c) i = c := by
  unfold setChild childAt
  by_cases hi : i < nd.count
  · rw [if_pos hi]
    have hlt : i < nd.slots.length := by
      rw [hok.2]
      exact hi.trans_le (Nat.min_le_right _ _)
    show (if i < nd.count then ((nd.slots.modify i _).getD i (0, 0)).2 else _) = c
    rw [if_pos hi, getD_eq_getElem?_getD, getElem?_modify, getElem?_eq_getElem hlt]
    simp
  · rw [if_neg hi]
    exact if_neg hi

theorem children_childAt (hok : nd.Ok) {i : Nat} (hc : childAt nd i ≠ 0) :
    childAt nd i ∈ children nd := by
  refine mem_filter.mpr ⟨?_, bne_iff_ne.mpr hc⟩
  unfold childAt
  by_cases hlt : i < nd.count
  · rw [if_pos hlt]
    refine mem_append_left _ (mem_map.mpr ?_)
    have hlt' : i < nd.used.length := by
      rw [hok.length_used]
      exact hlt
    exact ⟨nd.used[i], getElem_mem hlt', (hok.slot_eq (getElem?_eq_getElem hlt')).2.symm⟩
  · rw [if_neg hlt]
    exact mem_append_right _ (mem_singleton_self _)

theorem ok_setChild (hok : nd.Ok) (i c : Nat) : (setChild nd i c).Ok := by
  unfold setChild
  split_ifs
  · exact ⟨hok.1, by simpa using hok.2⟩
  · exact hok

/-- Above a new child `c`, whatever it is, `fixup_path` makes a tree that sends
`key` to `c`. -/
theorem wp_fixupPath_routes {c : Nat} {old : List Nat} (hinv : v.bm.Inv)
    (hused : v.Used (path.map Prod.fst)) (hc : 0 < c)
    (hroute : ∀ p ∈ path, ∃ nd, v.blocks p.1 = .node (.internal nd) ∧ nd.Ok ∧
      splitPos nd key = p.2) :
    wp (fixupPath path c old) (fun r v' => ∃ A, v.Grew A v' ∧ 0 < r.1 ∧
        r.2 = old ++ path.map Prod.fst ∧
        (∀ levels, lookupFrom key (levels + path.length) r.1 v' = lookupFrom key levels c v') ∧
        ∀ y, Reach v'.blocks c y → Reach v'.blocks r.1 y) (OutOfSpace v) v := by
  induction path generalizing v c old with
  | nil => exact ⟨[], .refl hinv, hc, by simp, fun _ => rfl, fun _ hy => hy⟩
  | cons p path ih =>
    obtain ⟨nd, hb, hok, hpos⟩ := hroute p mem_cons_self
    rw [fixupPath, wp_bind]
    refine wp_readInternal hb ?_
    refine wp_seq (wp_writeFresh hinv _) fun b' v₁ hw => ?_
    obtain ⟨hgrew, hb'⟩ := hw
    have hframe := hgrew.frame_of_used hused
    refine wp_mono (ih hgrew.inv (fun y hy => hgrew.used hused y (mem_cons_of_mem _ hy))
      (hgrew.pos (mem_singleton_self b')) fun q hq => ?_) ?_ fun e w he => he.of_grew hgrew
    · obtain ⟨nd', hb₁, hrest⟩ := hroute q (mem_cons_of_mem _ hq)
      exact ⟨nd', (hframe q.1 (mem_map_of_mem (mem_cons_of_mem _ hq))).trans hb₁, hrest⟩
    · rintro r w ⟨A, hgrew₂, hr, hold, hlook, hreach⟩
      have hb₂ : w.blocks b' = .node (.internal (setChild nd p.2 c)) := by
        rw [← hb']
        exact hgrew₂.frame_of_used hgrew.used_new b' (mem_singleton_self b')
      refine ⟨b' :: A, hgrew.trans hgrew₂, hr, by simpa using hold, fun levels => ?_, fun y hy => ?_⟩
      · have hlen : levels + (p :: path).length = levels + 1 + path.length := by
          rw [length_cons]
          omega
        rw [hlen, hlook, lookupFrom, bind_run (readNode_run hb₂)]
        show lookupFrom key levels ((setChild nd p.2 c).findChildWithIdx key).2 w = _
        rw [findChildWithIdx_eq, splitPos_setChild, hpos, childAt_setChild hok]
      · have hchild := children_childAt (ok_setChild hok p.2 c) (i := p.2)
          (by rw [childAt_setChild hok]; exact Nat.ne_of_gt hc)
        rw [childAt_setChild hok] at hchild
        exact hreach y (.child hb₂ hchild hy)

/-- The node an underflow leaves: all its slots count. -/
def wrapped (nd : Internal) : Internal := { nd with numEntries := 2 ^ 16 - 1 }

/-- What the call does instead: the leaf and the path are said to be retired, and a
new tree leads to the node with all its slots. -/
def Wraps (v : Vol) (key : Hash) (x leaf : Nat) (path : List (Nat × Nat)) (nd : Internal)
    (r : Nat × List Nat) (v' : Vol) : Prop :=
  ∃ A x', v.Grew A v' ∧ 0 < r.1 ∧ r.2 = leaf :: x :: path.map Prod.fst ∧
    v'.blocks x' = .node (.internal (wrapped nd)) ∧
    (∀ levels, lookupFrom key (levels + path.length) r.1 v' = lookupFrom key levels x' v') ∧
    ∀ y, Reach v'.blocks x' y → Reach v'.blocks r.1 y

/-- **Without overflow checks the deletion returns**, or runs out of space. -/
theorem KeylessAt.wp_delete_wraps (k : KeylessAt v root key bs x leaf path nd e)
    (hinv : v.bm.Inv) (hused : v.Used bs) :
    wp (delete false root key) (Wraps v key x leaf path nd) (OutOfSpace v) v := by
  have hpath : v.Used (path.map Prod.fst) := fun y hy =>
    hused y (k.subset y (mem_cons_of_mem _ (mem_cons_of_mem _ hy)))
  refine wp_congr k.delete_eq ?_
  rw [removeFromParent, wp_bind]
  refine wp_readInternal k.node ?_
  rw [if_neg fun hc => k.path_ne hc.2]
  have hremove (w : Vol) : removeChild false nd 0 w = (.ok (wrapped nd), w) := by
    unfold removeChild lastChild decEntries
    rw [if_neg (by rw [k.keyless]; omega), if_pos k.keyless, if_pos k.keyless]
    rfl
  refine wp_replaceParent hinv hremove fun x' v₂ hgrew hx' => ?_
  have hroute : ∀ p ∈ path, ∃ nd, v₂.blocks p.1 = .node (.internal nd) ∧ nd.Ok ∧
      splitPos nd key = p.2 := by
    intro q hq
    obtain ⟨nd', hb', hrest⟩ := k.routed q hq
    exact ⟨nd', (hgrew.frame_of_used hpath q.1 (mem_map_of_mem hq)).trans hb', hrest⟩
  refine wp_mono (wp_fixupPath_routes hgrew.inv (hgrew.used hpath)
    (hgrew.pos (mem_singleton_self x')) hroute) ?_ fun e w he => he.of_grew hgrew
  rintro r w ⟨A, hgrew₂, hr, hold, hlook, hreach⟩
  refine ⟨x' :: A, x', hgrew.trans hgrew₂, hr, by simpa using hold, ?_, hlook, hreach⟩
  rw [← hx']
  exact hgrew₂.frame_of_used hgrew.used_new x' (mem_singleton_self x')

variable {r : Nat × List Nat} {v' : Vol}

section

variable (k : KeylessAt v root key bs x leaf path nd e)

include k

theorem KeylessAt.leaf_after (hused : v.Used bs) {A : List Nat} (hgrew : v.Grew A v') :
    v'.blocks leaf = .node (.leaf [e]) :=
  (hgrew.frame_of_used hused leaf (k.subset leaf mem_cons_self)).trans k.atLeaf

/-- The retired leaf is still reachable. -/
theorem KeylessAt.reach_leaf (hleaf : 0 < leaf) (h : Wraps v key x leaf path nd r v') :
    leaf ∈ r.2 ∧ ReachedFrom v'.blocks r.1 leaf := by
  obtain ⟨A, x', -, hr, hold, hx', -, hreach⟩ := h
  refine ⟨by rw [hold]; exact mem_cons_self, Nat.ne_of_gt hr, hreach leaf ?_⟩
  refine .child hx' ?_ (.refl leaf)
  refine mem_filter.mpr ⟨mem_append_right _ ?_, bne_iff_ne.mpr (Nat.ne_of_gt hleaf)⟩
  rw [mem_singleton, ← k.right]
  rfl

/-- **The deleted entry is still found**, if no slot of the node was ever above
it. -/
theorem KeylessAt.lookup_after (hused : v.Used bs) (hkeys : ∀ s ∈ nd.slots, s.1 ≤ key)
    (h : Wraps v key x leaf path nd r v') : lookup r.1 key v' = (.ok (some e), v') := by
  obtain ⟨A, x', hgrew, hr, -, hx', hlook, -⟩ := h
  -- no slot is above `key`, so the search ends at the rightmost child
  have hpos : splitPos (wrapped nd) key = (wrapped nd).count := by
    unfold splitPos
    have hnone : ((List.range (wrapped nd).count).find? fun i =>
        decide (key < (wrapped nd).key i)) = none := by
      rw [find?_range_eq_none]
      intro i _
      have hle : (nd.slots.getD i (0, 0)).1 ≤ key := by
        rw [getD_eq_getElem?_getD]
        cases hget : nd.slots[i]? with
        | none => exact Nat.zero_le key
        | some s => exact hkeys s (mem_of_getElem? hget)
      have hnot : ¬ key < (wrapped nd).key i := Nat.not_lt.mpr hle
      simp [hnot]
    rw [hnone]
    rfl
  have hdepth : MAX_TREE_DEPTH = (6 - path.length + 1 + 1) + path.length := by
    have := k.path_le
    show 8 = _
    omega
  rw [lookup, if_neg (Nat.ne_of_gt hr), hdepth, hlook, lookupFrom, bind_run (readNode_run hx')]
  show lookupFrom key _ ((wrapped nd).findChildWithIdx key).2 v' = _
  rw [findChildWithIdx_eq, hpos, childAt, if_neg (Nat.lt_irrefl _)]
  show lookupFrom key _ nd.rightChild v' = _
  rw [k.right, lookupFrom, bind_run (readNode_run (k.leaf_after hused hgrew))]
  show (Except.ok ([e].find? fun c => c.hash == key), v') = _
  rw [find?_cons, beq_iff_eq.mpr k.hash_eq]

end

end NopeekOS.Storage.BTree
