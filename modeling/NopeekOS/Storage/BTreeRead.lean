import NopeekOS.Storage.BTreeShape

/-!
# Lookup and walk

`lookup` finds the entry of a hash, if the tree is not too deep for its loop.
`iter_all` walks the tree with a work list: over a tree on distinct blocks it
visits every block once, in as many rounds as there are blocks, and reports the
leaves' entries from left to right.
-/

namespace NopeekOS.Storage.BTree

open Lib FaultState List

variable {blocks : Nat → Content} {h lo hi b : Nat} {es : List BTreeEntry} {bs : List Nat}
variable {H : Nat} {key : Hash}

/-! ## Lookup -/

variable {before after : List BTreeEntry}

theorem find?_absent (hb : ∀ e ∈ before, e.hash < lo) (ha : ∀ e ∈ after, hi ≤ e.hash)
    (hlo : lo ≤ key) (hhi : key < hi) :
    (before ++ es ++ after).find? (fun e => e.hash == key) = es.find? fun e => e.hash == key := by
  have h₁ : before.find? (fun e => e.hash == key) = none :=
    find?_eq_none.mpr fun e he => by
      simpa using Nat.ne_of_lt ((hb e he).trans_le hlo)
  have h₂ : after.find? (fun e => e.hash == key) = none :=
    find?_eq_none.mpr fun e he => by
      simpa using Nat.ne_of_gt (hhi.trans_le (ha e he))
  rw [find?_append, find?_append, h₁, h₂, Option.none_or, Option.or_none]

variable {v : Vol}

theorem wp_lookupFrom {levels : Nat} {path : List (Nat × Nat)}
    (hs : Search v.blocks H key path h b es bs) :
    wp (lookupFrom key levels b) (fun r v' => v' = v ∧ r = es.find? fun e => e.hash == key)
      (fun e v' => e = .fs .treeTooDeep ∧ v' = v ∧ levels ≤ h) v := by
  induction levels generalizing h b path with
  | zero => exact ⟨rfl, rfl, Nat.zero_le h⟩
  | succ levels ih =>
    rw [lookupFrom, wp_bind]
    cases h with
    | zero =>
      obtain ⟨top, lo, hi, before, after, es', bs₁, bs₂, hctx, htree, hlo, hhi, rfl, -⟩ := hs
      refine wp_readNode htree.1 ⟨rfl, ?_⟩
      exact (find?_absent hctx.bounds.1 hctx.bounds.2 hlo hhi).symm
    | succ h =>
      obtain ⟨nd, hb, hs⟩ := hs.child
      refine wp_readNode hb (wp_mono (ih hs) (fun r v' hr => hr) fun e v' he => ?_)
      exact ⟨he.1, he.2.1, Nat.succ_le_succ he.2.2⟩

variable {root : Nat}

/-- **`lookup`** returns the entry of the hash and changes nothing. -/
theorem wp_lookup (key : Hash) (h : TreeInv v root H es bs) :
    wp (lookup root key) (fun r v' => v' = v ∧ r = es.find? fun e => e.hash == key)
      (fun e v' => e = .fs .treeTooDeep ∧ v' = v ∧ MAX_TREE_DEPTH ≤ H) v := by
  unfold lookup
  by_cases hroot : root = 0
  · rw [if_pos hroot]
    obtain ⟨-, rfl, -⟩ := h.tree_empty hroot
    exact ⟨rfl, rfl⟩
  · rw [if_neg hroot]
    exact wp_lookupFrom (h.search hroot key)

/-! ## Walk -/

/-- The entries among what a walk reports. -/
def reported (ws : List Walk) : List BTreeEntry :=
  ws.filterMap fun
    | .entry e => some e
    | _ => none

@[simp] theorem reported_append (ws ws' : List Walk) :
    reported (ws ++ ws') = reported ws ++ reported ws' := filterMap_append

@[simp] theorem reported_entries : ∀ es : List BTreeEntry, reported (es.map Walk.entry) = es
  | [] => rfl
  | e :: es => congrArg (e :: ·) (reported_entries es)

@[simp] theorem reported_children (cs : List Nat) : reported (cs.map Walk.child) = [] := by
  induction cs with
  | nil => rfl
  | cons c cs ih => exact ih

/-- The walk over the work `todo` reports the entries `es` and has then seen the
blocks `bs` besides `seen`, in as many rounds. -/
def Walks (blocks : Nat → Content) (todo : List (Nat × Nat)) (es : List BTreeEntry)
    (bs : List Nat) : Prop :=
  ∀ seen, (∀ x ∈ bs, x ∉ seen) → ∃ ws seen', reported ws = es ∧
    (∀ x, x ∈ seen' ↔ x ∈ bs ∨ x ∈ seen) ∧ ∀ fuel rest,
      walkLoop blocks (fuel + bs.length) (todo ++ rest) seen =
        (walkLoop blocks fuel rest seen').map (ws ++ ·)

variable {b₁ b₂ : List Nat}

theorem Walks.append {t₁ t₂ : List (Nat × Nat)} {e₁ e₂ : List BTreeEntry}
    (h₁ : Walks blocks t₁ e₁ b₁) (h₂ : Walks blocks t₂ e₂ b₂) (hd : ∀ x ∈ b₁, x ∉ b₂) :
    Walks blocks (t₁ ++ t₂) (e₁ ++ e₂) (b₁ ++ b₂) := by
  intro seen hseen
  obtain ⟨ws₁, seen₁, hw₁, hs₁, hrun₁⟩ := h₁ seen fun x hx => hseen x (mem_append_left _ hx)
  obtain ⟨ws₂, seen₂, hw₂, hs₂, hrun₂⟩ := h₂ seen₁ fun x hx hx' =>
    ((hs₁ x).mp hx').elim (fun h => hd x h hx) (hseen x (mem_append_right _ hx))
  refine ⟨ws₁ ++ ws₂, seen₂, by rw [reported_append, hw₁, hw₂], fun x => ?_, fun fuel rest => ?_⟩
  · rw [hs₂, hs₁, mem_append]
    tauto
  · have hfuel : fuel + (b₁ ++ b₂).length = fuel + b₂.length + b₁.length := by
      rw [length_append]
      omega
    rw [hfuel, append_assoc, hrun₁, hrun₂, Option.map_map]
    congr 1
    funext ws
    simp

/-- A tree whose blocks are distinct and none is block 0. -/
def Sound (bs : List Nat) : Prop := bs.Nodup ∧ ∀ x ∈ bs, 0 < x

theorem Sound.append (h : Sound (b₁ ++ b₂)) : Sound b₁ ∧ Sound b₂ ∧ ∀ x ∈ b₁, x ∉ b₂ := by
  obtain ⟨h₁, h₂, hd⟩ := nodup_append.mp h.1
  exact ⟨⟨h₁, fun x hx => h.2 x (mem_append_left _ hx)⟩,
    ⟨h₂, fun x hx => h.2 x (mem_append_right _ hx)⟩, fun x hx hx' => hd x hx x hx' rfl⟩

theorem Sound.tail (h : Sound (b :: bs)) : Sound bs :=
  ⟨(nodup_cons.mp h.1).2, fun x hx => h.2 x (mem_cons_of_mem _ hx)⟩

variable {nd : Internal}

/-- The child pointers of a node that has its children on the blocks `bs`. -/
theorem children_eq (hchain : Chain (TreeAt blocks h) lo hi nd.used nd.rightChild es bs)
    (hpos : ∀ x ∈ bs, 0 < x) : children nd = nd.used.map Prod.snd ++ [nd.rightChild] := by
  refine filter_eq_self.mpr fun c hc => ?_
  rw [bne_iff_ne]
  refine Nat.ne_of_gt (hpos c ?_)
  exact hchain.forall_child (fun _ _ c _ _ hsub ht => hsub c ht.nonempty_blocks) c hc

variable {d : Nat}

/-- The children of a chain, if each child's tree is walked. -/
theorem Chain.walks {L : List (Hash × Nat)} {right : Nat}
    (hwalk : ∀ lo hi b es bs, TreeAt blocks h lo hi b es bs → Sound bs → Walks blocks [(b, d)] es bs)
    (hchain : Chain (TreeAt blocks h) lo hi L right es bs) (hs : Sound bs) :
    Walks blocks ((L.map Prod.snd ++ [right]).map fun c => (c, d)) es bs := by
  induction L generalizing lo es bs with
  | nil => exact hwalk _ _ _ _ _ (Chain.nil_iff.mp hchain) hs
  | cons s L ih =>
    obtain ⟨e₁, e₂, r₁, r₂, -, hc, hrest, rfl, rfl⟩ := Chain.cons_iff.mp hchain
    obtain ⟨h₁, h₂, hd⟩ := hs.append
    exact (hwalk _ _ _ _ _ hc h₁).append (ih hrest h₂) hd

/-- One round of the walk at an internal node. -/
theorem Walks.internal (hb : blocks b = .node (.internal nd)) (hd : d ≤ 64) (hnot : b ∉ bs)
    (h : Walks blocks ((children nd).map fun c => (c, d + 1)) es bs) :
    Walks blocks [(b, d)] es (b :: bs) := by
  intro seen hseen
  have hb' : b ∉ seen := hseen b mem_cons_self
  obtain ⟨ws, seen', hw, hs, hrun⟩ := h (b :: seen) fun x hx hx' => by
    rcases mem_cons.mp hx' with rfl | hx'
    · exact hnot hx
    · exact hseen x (mem_cons_of_mem _ hx) hx'
  refine ⟨(children nd).map Walk.child ++ ws, seen', by simp [hw], fun x => ?_,
    fun fuel rest => ?_⟩
  · rw [hs, mem_cons, mem_cons]
    tauto
  · show walkLoop blocks (fuel + bs.length + 1) ((b, d) :: rest) seen = _
    rw [walkLoop, if_neg (Nat.not_lt.mpr hd), if_neg hb', hb]
    show (walkLoop blocks (fuel + bs.length) (_ ++ rest) _).map _ = _
    rw [hrun, Option.map_map]
    congr 1
    funext ws'
    simp

/-- **The walk over a tree** reports its entries in order. -/
theorem TreeAt.walks : ∀ {h d lo hi b : Nat} {es : List BTreeEntry} {bs : List Nat},
    d + h ≤ 64 → TreeAt blocks h lo hi b es bs → Sound bs → Walks blocks [(b, d)] es bs
  | 0, d, _, _, b, es, _, hd, ⟨hb, _, hbs⟩, _ => by
    subst hbs
    intro seen hseen
    have hb' : b ∉ seen := hseen b mem_cons_self
    refine ⟨es.map Walk.entry, b :: seen, reported_entries es, fun x => by simp,
      fun fuel rest => ?_⟩
    show walkLoop blocks (fuel + 1) ((b, d) :: rest) seen = _
    rw [walkLoop, if_neg (by omega), if_neg hb', hb]
  | h + 1, d, lo, hi, b, es, _, hd, ⟨nd, bs', hb, _, hchain, hbs⟩, hs => by
    subst hbs
    have hs' := hs.tail
    refine Walks.internal hb (by omega) (nodup_cons.mp hs.1).1 ?_
    have hwalk : ∀ lo hi b es bs, TreeAt blocks h lo hi b es bs → Sound bs →
        Walks blocks [(b, d + 1)] es bs := fun _ _ _ _ _ ht hs => ht.walks (by omega) hs
    -- no child pointer is zero, so none is left out
    rw [children_eq hchain hs'.2]
    exact Chain.walks hwalk hchain hs'

/-- **`iter_all`** reports every entry once, in ascending order of the hashes, in
as many rounds as the tree has blocks. -/
theorem iterAll_eq (h : TreeInv v root H es bs) (hH : H ≤ 64) :
    iterAll v.blocks root bs.length = some es := by
  unfold iterAll
  by_cases hroot : root = 0
  · rw [if_pos hroot, (h.tree_empty hroot).2.1]
  rw [if_neg hroot]
  obtain ⟨top, htree⟩ := h.tree_of_ne hroot
  obtain ⟨ws, seen', hw, -, hrun⟩ := htree.walks (d := 0) (by omega) ⟨h.nodup, h.pos⟩ [] (by simp)
  have := hrun 0 []
  rw [Nat.zero_add, append_nil] at this
  rw [this]
  show some (reported (ws ++ [])) = some es
  rw [append_nil, hw]

theorem TreeInv.sorted (h : TreeInv v root H es bs) : es.Pairwise fun a c => a.hash < c.hash := by
  rcases h.tree with ⟨-, -, rfl, -⟩ | ⟨top, ht⟩
  · exact .nil
  · exact (TreeAt.sorted _ _ _ _ _ ht).1

/-! ## Reachable blocks -/

/-- The blocks a walk from a block comes to. -/
inductive Reach (blocks : Nat → Content) : Nat → Nat → Prop where
  | refl (b : Nat) : Reach blocks b b
  | child {b c x : Nat} {nd : Internal} : blocks b = .node (.internal nd) → c ∈ children nd →
      Reach blocks c x → Reach blocks b x

/-- `reach(root)`: the blocks of the tree of a root, none for root 0. -/
def ReachedFrom (blocks : Nat → Content) (root b : Nat) : Prop := root ≠ 0 ∧ Reach blocks root b

variable {x : Nat}

/-- **What is reachable from a tree's root is on its blocks**, and conversely. -/
theorem TreeAt.reach_iff : ∀ {h lo hi b : Nat} {es : List BTreeEntry} {bs : List Nat},
    TreeAt blocks h lo hi b es bs → (∀ y ∈ bs, 0 < y) → (Reach blocks b x ↔ x ∈ bs)
  | 0, _, _, b, _, _, ⟨hb, _, hbs⟩, _ => by
    subst hbs
    rw [mem_singleton]
    constructor
    · intro hr
      cases hr with
      | refl => rfl
      | child hb' _ _ =>
        rw [hb] at hb'
        cases hb'
    · rintro rfl
      exact .refl x
  | h + 1, _, _, b, _, _, ⟨nd, bs', hb, _, hchain, hbs⟩, hpos => by
    subst hbs
    have hpos' : ∀ y ∈ bs', 0 < y := fun y hy => hpos y (mem_cons_of_mem _ hy)
    have hchildren := children_eq hchain hpos'
    rw [mem_cons]
    constructor
    · intro hr
      cases hr with
      | refl => exact .inl rfl
      | child hb' hc hr =>
        rw [hb] at hb'
        cases hb'
        rw [hchildren] at hc
        refine .inr (hchain.forall_child (Q := fun c => Reach blocks c x → x ∈ bs')
          (fun _ _ c _ r hsub ht hr => ?_) _ hc hr)
        exact hsub x ((ht.reach_iff fun y hy => hpos' y (hsub y hy)).mp hr)
    · rintro (rfl | hx)
      · exact .refl x
      · obtain ⟨c, hc, _, _, _, r, ht, hx, hsub⟩ := hchain.exists_child hx
        refine .child hb ?_ ((ht.reach_iff fun y hy => hpos' y (hsub y hy)).mpr hx)
        rw [hchildren]
        exact hc

theorem TreeInv.reach_iff (h : TreeInv v root H es bs) : ReachedFrom v.blocks root x ↔ x ∈ bs := by
  by_cases hroot : root = 0
  · rw [(h.tree_empty hroot).2.2]
    exact ⟨fun hr => absurd hroot hr.1, nofun⟩
  · obtain ⟨top, ht⟩ := h.tree_of_ne hroot
    rw [ReachedFrom, ht.reach_iff h.pos]
    exact ⟨fun hr => hr.2, fun hx => ⟨hroot, hx⟩⟩

end NopeekOS.Storage.BTree
