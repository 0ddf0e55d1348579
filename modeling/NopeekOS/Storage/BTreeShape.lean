import NopeekOS.Lib.SepChain
import NopeekOS.Storage.Volume

/-!
# The shape of the B-tree on disk

`TreeAt blocks h lo hi b es bs`: at block `b` sits a tree of height `h` whose
entries are `es`, all with hashes in `[lo, hi)`, on exactly the blocks `bs`. A
node's children form a separator chain (`Lib.Chain`).

`Ctx` is such a tree with a hole: what lies around the subtree a path of
`(parent, child index)` pairs leads to. The descent turns a tree into a context
and a subtree (`TreeAt.descend`); the way back up rebuilds the parents around a
new subtree.

Both depend on their own blocks only (`TreeAt.frame`, `Ctx.frame`), so writing
fresh blocks disturbs neither.
-/

namespace NopeekOS.Storage

open Lib FaultState List

/-- An internal node the code writes: the count is within the capacity. -/
def Internal.Ok (nd : Internal) : Prop :=
  nd.numEntries ≤ MAX_INTERNAL_KEYS ∧ nd.slots.length = MAX_INTERNAL_KEYS

/-- The slots in use. -/
def Internal.used (nd : Internal) : List (Hash × Nat) := nd.slots.take nd.count

theorem Internal.Ok.length_used {nd : Internal} (h : nd.Ok) : nd.used.length = nd.count := by
  rw [Internal.used, length_take, h.2]
  exact Nat.min_eq_left (Nat.min_le_right _ _)

theorem Internal.Ok.slot_eq {nd : Internal} (h : nd.Ok) {i : Nat} {s : Hash × Nat}
    (hs : nd.used[i]? = some s) : nd.key i = s.1 ∧ nd.child i = s.2 := by
  have hi : i < nd.count := by
    rw [← h.length_used]
    exact (List.getElem?_eq_some_iff.mp hs).1
  rw [Internal.used, getElem?_take_of_lt hi] at hs
  simp [Internal.key, Internal.child, getD_eq_getElem?_getD, hs]

namespace BTree

/-- A leaf's entries: sorted, within bounds and capacity, and not none. -/
def LeafOk (lo hi : Nat) (es : List BTreeEntry) : Prop :=
  lo < hi ∧ SortedWithin BTreeEntry.hash lo hi es ∧ es.length ≤ MAX_LEAF_ENTRIES ∧ es ≠ []

/-- The tree of height `h` at block `b`: its entries and its blocks. -/
def TreeAt (blocks : Nat → Content) :
    (h lo hi b : Nat) → (es : List BTreeEntry) → (bs : List Nat) → Prop
  | 0, lo, hi, b, es, bs => blocks b = .node (.leaf es) ∧ LeafOk lo hi es ∧ bs = [b]
  | h + 1, lo, hi, b, es, bs => ∃ nd bs', blocks b = .node (.internal nd) ∧ nd.Ok ∧
      Chain (TreeAt blocks h) lo hi nd.used nd.rightChild es bs' ∧ bs = b :: bs'

/-- A node of bounds `[lo₀, hi₀)` with a hole in place of child `idx`: the hole's
bounds, the entries before and after it in this node, and the blocks of the
other children. -/
inductive Hole (blocks : Nat → Content) (h : Nat) (nd : Internal) (lo₀ hi₀ : Nat) :
    (idx lo hi : Nat) → (eL eR : List BTreeEntry) → (bs : List Nat) → Prop where
  | last {m : Nat} {eL : List BTreeEntry} {bL : List Nat} :
      Segment (TreeAt blocks h) lo₀ nd.used m eL bL →
      Hole blocks h nd lo₀ hi₀ nd.used.length m hi₀ eL [] bL
  | mid {m k c : Nat} {L R : List (Hash × Nat)} {eL eR : List BTreeEntry} {bL bR : List Nat} :
      nd.used = L ++ (k, c) :: R → Segment (TreeAt blocks h) lo₀ L m eL bL → m < k →
      Chain (TreeAt blocks h) k hi₀ R nd.rightChild eR bR →
      Hole blocks h nd lo₀ hi₀ L.length m k eL eR (bL ++ bR)

/-- A tree with a hole of height `h` and bounds `[lo, hi)`: the entries before and
after the hole and the blocks around it. The whole has height `H` and bounds
`[0, top)`; the path is innermost first. -/
inductive Ctx (blocks : Nat → Content) (H top : Nat) : (path : List (Nat × Nat)) →
    (h lo hi : Nat) → (before after : List BTreeEntry) → (bs : List Nat) → Prop where
  | root : Ctx blocks H top [] H 0 top [] [] []
  | cons {b idx : Nat} {nd : Internal} {path : List (Nat × Nat)} {h lo₀ hi₀ lo hi : Nat}
      {eL eR before after : List BTreeEntry} {bN bs : List Nat} :
      blocks b = .node (.internal nd) → nd.Ok → Hole blocks h nd lo₀ hi₀ idx lo hi eL eR bN →
      Ctx blocks H top path (h + 1) lo₀ hi₀ before after bs →
      Ctx blocks H top ((b, idx) :: path) h lo hi (before ++ eL) (eR ++ after) (bN ++ b :: bs)

variable {blocks blocks' : Nat → Content} {h lo hi b : Nat} {es : List BTreeEntry} {bs : List Nat}
  {L R : List (Hash × Nat)}

/-! ## Trees -/

theorem TreeAt.frame : ∀ {h lo hi b : Nat} {es : List BTreeEntry} {bs : List Nat},
    TreeAt blocks h lo hi b es bs → (∀ x ∈ bs, blocks' x = blocks x) →
    TreeAt blocks' h lo hi b es bs
  | 0, _, _, b, _, _, ⟨hb, hok, hbs⟩, hframe => by
    subst hbs
    exact ⟨(hframe b mem_cons_self).trans hb, hok, rfl⟩
  | _ + 1, _, _, b, _, _, ⟨nd, bs', hb, hok, hchain, hbs⟩, hframe => by
    subst hbs
    refine ⟨nd, bs', (hframe b mem_cons_self).trans hb, hok, hchain.imp ?_, rfl⟩
    intro a c d e r hsub ht
    exact ht.frame fun x hx => hframe x (mem_cons_of_mem _ (hsub x hx))

theorem TreeAt.widen : ∀ {h : Nat} (a c a' c' d : Nat) (e : List BTreeEntry) (r : List Nat),
    a' ≤ a → c ≤ c' → TreeAt blocks h a c d e r → TreeAt blocks h a' c' d e r
  | 0, _, _, _, _, _, _, _, hlo, hhi, ⟨hb, ⟨hlt, ⟨hsort, hin⟩, hlen⟩, hbs⟩ =>
    ⟨hb, ⟨(hlo.trans_lt hlt).trans_le hhi,
      ⟨hsort, fun e he => ⟨hlo.trans (hin e he).1, (hin e he).2.trans_le hhi⟩⟩, hlen⟩, hbs⟩
  | _ + 1, _, _, _, _, _, _, _, hlo, hhi, ⟨nd, bs', hb, hok, hchain, hbs⟩ =>
    ⟨nd, bs', hb, hok, hchain.widen TreeAt.widen hlo hhi, hbs⟩

theorem TreeAt.nonempty_blocks : ∀ {h : Nat}, TreeAt blocks h lo hi b es bs → b ∈ bs
  | 0, ⟨_, _, hbs⟩ => by rw [hbs]; exact mem_singleton_self b
  | _ + 1, ⟨_, _, _, _, _, hbs⟩ => by rw [hbs]; exact mem_cons_self

theorem TreeAt.lt : ∀ {h : Nat} {lo hi b : Nat} {es : List BTreeEntry} {bs : List Nat},
    TreeAt blocks h lo hi b es bs → lo < hi
  | 0, _, _, _, _, _, ⟨_, ⟨hlt, _⟩, _⟩ => hlt
  | _ + 1, _, _, _, _, _, ⟨_, _, _, _, ⟨_, _, _, _, _, hseg, hright, _⟩, _⟩ =>
    hseg.le.trans_lt hright.lt

/-- The entries of a tree are sorted and within its bounds. -/
theorem TreeAt.sorted : ∀ {h : Nat} (a c d : Nat) (e : List BTreeEntry) (r : List Nat),
    TreeAt blocks h a c d e r → SortedWithin BTreeEntry.hash a c e
  | 0, _, _, _, _, _, ⟨_, ⟨_, hsorted, _⟩, _⟩ => hsorted
  | _ + 1, _, _, _, _, _, ⟨_, _, _, _, hchain, _⟩ =>
    hchain.sorted TreeAt.sorted fun _ _ _ _ _ h => h.lt

/-! ## Routing -/

variable {key : Hash}

/-- The child by its index. -/
def childAt (nd : Internal) (i : Nat) : Nat := if i < nd.count then nd.child i else nd.rightChild

theorem findChildWithIdx_eq (nd : Internal) (x : Hash) :
    nd.findChildWithIdx x = (splitPos nd x, childAt nd (splitPos nd x)) := by
  unfold Internal.findChildWithIdx splitPos childAt
  cases hf : (List.range nd.count).find? fun i => decide (x < nd.key i) with
  | none => simp
  | some i =>
    have hi : i < nd.count := mem_range.mp (mem_of_find?_eq_some hf)
    simp [hi]

section

variable {nd : Internal} (hok : nd.Ok)

include hok

/-- The position of a key, which the code looks up by value: where the separators
greater than it begin. -/
theorem splitPos_eq (hused : nd.used = L ++ R)
    (hle : ∀ s ∈ L, s.1 ≤ key) (hlt : ∀ s ∈ R.head?, key < s.1) : splitPos nd key = L.length := by
  have hkey {i : Nat} {s : Hash × Nat} (hs : (L ++ R)[i]? = some s) : nd.key i = s.1 :=
    (hok.slot_eq (hused ▸ hs)).1
  have hL : ((List.range L.length).find? fun i => decide (key < nd.key i)) = none := by
    refine find?_range_eq_none.mpr fun i hi => ?_
    have := hle L[i] (getElem_mem hi)
    rw [hkey ((getElem?_append_left hi).trans (getElem?_eq_getElem hi))]
    simpa using this
  unfold splitPos
  rw [← hok.length_used, hused, length_append, range_add, find?_append, hL, Option.none_or]
  cases R with
  | nil => rfl
  | cons s R =>
    have hs : key < nd.key L.length := by
      rw [hkey (s := s) (by simp)]
      exact hlt s rfl
    simp [range_succ_eq_map, hs]

/-- Where `find_child_with_idx` goes: past the separators at most `key`, to the
child before the first greater one, or to the rightmost. -/
theorem findChildWithIdx_spec (key : Hash) {idx child : Nat}
    (h : nd.findChildWithIdx key = (idx, child)) :
    (idx = nd.used.length ∧ child = nd.rightChild ∧ ∀ s ∈ nd.used, s.1 ≤ key) ∨
    ∃ L k R, nd.used = L ++ (k, child) :: R ∧ idx = L.length ∧ key < k ∧ ∀ s ∈ L, s.1 ≤ key := by
  obtain ⟨L, R, hused, hle, hlt⟩ : ∃ L R, nd.used = L ++ R ∧ (∀ s ∈ L, s.1 ≤ key) ∧
      ∀ s ∈ R.head?, key < s.1 := by
    refine ⟨_, _, (takeWhile_append_dropWhile (p := fun s => decide (s.1 ≤ key))).symm, ?_, ?_⟩
    · exact fun s hs => of_decide_eq_true (all_eq_true.mp all_takeWhile s hs)
    · intro s hs
      have := head?_dropWhile_not (fun s => decide (s.1 ≤ key)) nd.used
      rw [Option.mem_def.mp hs] at this
      simpa using this
  rw [findChildWithIdx_eq, splitPos_eq hok hused hle hlt] at h
  obtain ⟨rfl, rfl⟩ := Prod.mk.inj h
  have hlen := hok.length_used
  cases R with
  | nil =>
    rw [append_nil] at hused
    rw [hused] at hlen ⊢
    exact .inl ⟨rfl, if_neg (Nat.not_lt.mpr (Nat.le_of_eq hlen.symm)), hle⟩
  | cons s R =>
    have hchild : childAt nd L.length = s.2 := by
      rw [childAt, if_pos (by rw [← hlen, hused]; simp)]
      exact (hok.slot_eq (by rw [hused]; simp)).2
    exact .inr ⟨L, s.1, R, by rw [hchild, hused], rfl, hlt s rfl, hle⟩

end

variable {c : Nat}

/-! ## Contexts -/

variable {nd : Internal} {lo₀ hi₀ idx : Nat} {eL eR : List BTreeEntry} {bN : List Nat}

section

variable (hhole : Hole blocks h nd lo₀ hi₀ idx lo hi eL eR bN)

include hhole

theorem Hole.frame (hframe : ∀ x ∈ bN, blocks' x = blocks x) :
    Hole blocks' h nd lo₀ hi₀ idx lo hi eL eR bN := by
  cases hhole with
  | last hseg =>
    exact .last (hseg.imp fun _ _ _ _ _ hsub ht => ht.frame fun x hx => hframe x (hsub x hx))
  | mid hused hseg hlt hchain =>
    refine .mid hused (hseg.imp ?_) hlt (hchain.imp ?_)
    · exact fun _ _ _ _ _ hsub ht => ht.frame fun x hx => hframe x (by simp [hsub x hx])
    · exact fun _ _ _ _ _ hsub ht => ht.frame fun x hx => hframe x (by simp [hsub x hx])

/-- The bounds of a hole are within those of its node, and the entries around it
outside of them. -/
theorem Hole.bounds : lo₀ ≤ lo ∧ hi ≤ hi₀ ∧ (∀ e ∈ eL, e.hash < lo) ∧ ∀ e ∈ eR, hi ≤ e.hash := by
  cases hhole with
  | last hseg =>
    exact ⟨hseg.le, Nat.le_refl _, fun e he => ((hseg.sorted TreeAt.sorted).2 e he).2, nofun⟩
  | mid _ hseg _ hchain =>
    have hlt : ∀ a b c e r, TreeAt blocks h a b c e r → a < b := fun _ _ _ _ _ ht => ht.lt
    exact ⟨hseg.le, Nat.le_of_lt (hchain.lt hlt),
      fun e he => ((hseg.sorted TreeAt.sorted).2 e he).2,
      fun e he => ((hchain.sorted TreeAt.sorted hlt).2 e he).1⟩

/-- The separators around a hole. -/
theorem Hole.cut :
    ∃ L R, nd.used = L ++ R ∧ idx = L.length ∧ (∀ s ∈ L, s.1 ≤ lo) ∧ ∀ s ∈ R, hi ≤ s.1 := by
  cases hhole with
  | last hseg => exact ⟨_, [], by simp, rfl, fun s hs => (hseg.key_bounds s hs).2, nofun⟩
  | mid hused hseg _ hchain =>
    exact ⟨_, _, hused, rfl, fun s hs => (hseg.key_bounds s hs).2,
      forall_mem_cons.mpr ⟨Nat.le_refl _, fun s hs => Nat.le_of_lt (hchain.key_gt s hs)⟩⟩

end

/-- The position of a hash within the bounds of a hole. -/
theorem Hole.splitPos_eq {x : Nat} (hok : nd.Ok)
    (hhole : Hole blocks h nd lo₀ hi₀ idx lo hi eL eR bN) (hlo : lo ≤ x) (hhi : x < hi) :
    splitPos nd x = idx := by
  obtain ⟨L, R, hused, rfl, hL, hR⟩ := hhole.cut
  exact BTree.splitPos_eq hok hused (fun s hs => (hL s hs).trans hlo)
    fun s hs => hhi.trans_le (hR s (mem_of_mem_head? hs))

variable {H top : Nat} {path : List (Nat × Nat)} {before after : List BTreeEntry}

section

variable (hctx : Ctx blocks H top path h lo hi before after bs)

include hctx

theorem Ctx.frame (hframe : ∀ x ∈ bs, blocks' x = blocks x) :
    Ctx blocks' H top path h lo hi before after bs := by
  induction hctx with
  | root => exact .root
  | cons hb hok hhole _ ih =>
    refine .cons ((hframe _ (by simp)).trans hb) hok (hhole.frame ?_) (ih ?_)
    · exact fun x hx => hframe x (by simp [hx])
    · exact fun x hx => hframe x (by simp [hx])

/-- The entries around the hole lie outside its bounds. -/
theorem Ctx.bounds : (∀ e ∈ before, e.hash < lo) ∧ ∀ e ∈ after, hi ≤ e.hash := by
  induction hctx with
  | root => exact ⟨by simp, by simp⟩
  | cons _ _ hhole _ ih =>
    obtain ⟨hlo, hhi, hL, hR⟩ := hhole.bounds
    exact ⟨forall_mem_append.mpr ⟨fun e he => (ih.1 e he).trans_le hlo, hL⟩,
      forall_mem_append.mpr ⟨hR, fun e he => hhi.trans (ih.2 e he)⟩⟩

/-- The path's own blocks are around the hole. -/
theorem Ctx.path_subset : ∀ p ∈ path, p.1 ∈ bs := by
  induction hctx with
  | root => intro p hp; cases hp
  | cons _ _ _ _ ih =>
    exact forall_mem_cons.mpr ⟨by simp, fun p hp => by simp [ih p hp]⟩

/-- The blocks a call at the leaf `b` retires: the leaf's and the path's. -/
theorem Ctx.retired_subset : ∀ x ∈ [b] ++ path.map Prod.fst, x ∈ [b] ++ bs := by
  intro x hx
  rcases mem_append.mp hx with hx | hx
  · exact mem_append_left _ hx
  · obtain ⟨p, hp, rfl⟩ := mem_map.mp hx
    exact mem_append_right _ (hctx.path_subset p hp)

end

variable {bs' : List Nat}

/-- **One step of the descent**: the child `find_child_with_idx` picks, with the
context around it. -/
theorem TreeAt.descend {x : Hash} {child : Nat}
    (hctx : Ctx blocks H top path (h + 1) lo hi before after bs)
    (htree : TreeAt blocks (h + 1) lo hi b es bs') (hb : blocks b = .node (.internal nd))
    (hlo : lo ≤ x) (hhi : x < hi) (hfind : nd.findChildWithIdx x = (idx, child)) :
    ∃ lo' hi' before' after' es' bs₁ bs₂,
      Ctx blocks H top ((b, idx) :: path) h lo' hi' before' after' bs₁ ∧
      TreeAt blocks h lo' hi' child es' bs₂ ∧ lo' ≤ x ∧ x < hi' ∧
      before ++ es ++ after = before' ++ es' ++ after' ∧ (bs₂ ++ bs₁).Perm (bs' ++ bs) := by
  obtain ⟨nd', cs, hb', hok, hchain, rfl⟩ := htree
  obtain rfl : nd = nd' := by
    rw [hb] at hb'
    injection hb' with hb'
    injection hb'
  rcases findChildWithIdx_spec hok x hfind with ⟨rfl, rfl, hle⟩ | ⟨L, k, R, hused, rfl, hlt, hle⟩
  · obtain ⟨m, e₁, e₂, r₁, r₂, hseg, hright, rfl, rfl⟩ := hchain
    refine ⟨m, hi, _, _, e₂, _, r₂, .cons hb hok (.last hseg) hctx, hright,
      hseg.le_of_keys_le hlo hle, hhi, by simp, ?_⟩
    refine perm_iff_count.mpr fun a => ?_
    simp only [count_append, count_cons]
    omega
  · rw [hused] at hchain
    obtain ⟨m, e₁, _, r₁, _, hseg, hrest, rfl, rfl⟩ := hchain.split
    obtain ⟨f₁, f₂, s₁, s₂, hmk, hc, hR, rfl, rfl⟩ := Chain.cons_iff.mp hrest
    refine ⟨m, k, _, _, f₁, _, s₁, .cons hb hok (.mid hused hseg hmk hR) hctx, hc,
      hseg.le_of_keys_le hlo hle, hlt, by simp, ?_⟩
    refine perm_iff_count.mpr fun a => ?_
    simp only [count_append, count_cons]
    omega

/-- **The search for `key`** has come by `path` to the block `b`, `h` levels above the leaves, in a
tree with the entries `es` and the blocks `bs`. -/
def Search (blocks : Nat → Content) (H : Nat) (key : Hash) (path : List (Nat × Nat)) (h b : Nat)
    (es : List BTreeEntry) (bs : List Nat) : Prop :=
  ∃ top lo hi before after es' bs₁ bs₂, Ctx blocks H top path h lo hi before after bs₁ ∧
    TreeAt blocks h lo hi b es' bs₂ ∧ lo ≤ key ∧ key < hi ∧ es = before ++ es' ++ after ∧
    (bs₂ ++ bs₁).Perm bs

theorem Search.child {key : Hash} (hs : Search blocks H key path (h + 1) b es bs) :
    ∃ nd, blocks b = .node (.internal nd) ∧ Search blocks H key
      ((b, (nd.findChildWithIdx key).1) :: path) h (nd.findChildWithIdx key).2 es bs := by
  obtain ⟨top, lo, hi, before, after, es', bs₁, bs₂, hctx, htree, hlo, hhi, rfl, hperm⟩ := hs
  obtain ⟨nd, -, hb, -⟩ := id htree
  obtain ⟨lo', hi', before', after', es₂, bs₃, bs₄, hctx', htree', hlo', hhi', hes, hperm'⟩ :=
    htree.descend hctx hb hlo hhi rfl
  exact ⟨nd, hb, top, lo', hi', before', after', es₂, bs₃, bs₄, hctx', htree', hlo', hhi', hes,
    hperm'.trans hperm⟩

/-! ## Filling a hole -/

theorem setChild_last (hok : nd.Ok) (c : Nat) :
    setChild nd nd.used.length c = { nd with rightChild := c } := by
  unfold setChild
  rw [hok.length_used, if_neg (Nat.lt_irrefl _)]

theorem setChild_mid (hok : nd.Ok) {k : Nat} (hused : nd.used = L ++ (k, c) :: R) (c' : Nat) :
    (setChild nd L.length c').Ok ∧ (setChild nd L.length c').used = L ++ (k, c') :: R ∧
      (setChild nd L.length c').rightChild = nd.rightChild := by
  have hlt : L.length < nd.count := by
    rw [← hok.length_used, hused]
    simp
  unfold setChild
  rw [if_pos hlt]
  refine ⟨⟨hok.1, by simpa using hok.2⟩, ?_, rfl⟩
  show (nd.slots.modify L.length _).take nd.count = _
  have htake : nd.slots.take nd.count = L ++ (k, c) :: R := hused
  rw [take_modify, htake]
  simp [modify_eq_take_cons_drop]

/-- A new child in the hole. -/
theorem Hole.plug (hhole : Hole blocks h nd lo₀ hi₀ idx lo hi eL eR bN) (hok : nd.Ok)
    (htree : TreeAt blocks h lo hi c es bs) :
    (setChild nd idx c).Ok ∧ ∃ bs', bs'.Perm (bs ++ bN) ∧
      Chain (TreeAt blocks h) lo₀ hi₀ (setChild nd idx c).used (setChild nd idx c).rightChild
        (eL ++ es ++ eR) bs' := by
  cases hhole with
  | last hseg =>
    rw [setChild_last hok, append_nil]
    exact ⟨hok, _, perm_append_comm, hseg.chain htree⟩
  | mid hused hseg hlt hchain =>
    obtain ⟨hok', hused', hright⟩ := setChild_mid hok hused c
    rw [hused', hright, append_assoc]
    refine ⟨hok', _, ?_, hseg.append_chain (Chain.cons_iff.mpr
      ⟨es, _, bs, _, hlt, htree, hchain, rfl, rfl⟩)⟩
    refine perm_iff_count.mpr fun a => ?_
    simp only [count_append]
    omega

variable {v : Vol}

section

variable {v' : Vol} {X Y N A P bs₂ bN bs₀ : List Nat} {p : Nat}

/-- The blocks of a rebuilt node and those around it are all in use. -/
theorem used_rebuilt (hgrew : v.Grew N v') (hused : v.Used (X ++ (bN ++ p :: bs₀)))
    (hsub : Y ⊆ X ++ bN ++ N) : v'.Used (Y ++ bs₀) := by
  have hold := hgrew.used hused
  refine Vol.used_append.mpr ⟨fun x hx => ?_, fun x hx => hold x (by simp [hx])⟩
  rcases mem_append.mp (hsub hx) with hx | hx
  · rw [← append_assoc] at hold
    exact hold x (mem_append_left _ hx)
  · exact hgrew.used_new x hx

/-- The accounting of a rebuilt node and of the levels above it. -/
theorem perm_rebuilt (hnode : Y.Perm (X ++ bN ++ N)) (habove : (bs₂ ++ P).Perm (Y ++ bs₀ ++ A)) :
    (bs₂ ++ p :: P).Perm (X ++ (bN ++ p :: bs₀) ++ (N ++ A)) := by
  refine perm_iff_count.mpr fun a => ?_
  have h₁ := hnode.count_eq a
  have h₂ := habove.count_eq a
  simp only [count_append, count_cons] at h₁ h₂ ⊢
  omega

end

/-- **`fixup_path`**: around the new subtree the whole tree is as before, with
fresh blocks in place of the path's. -/
theorem wp_fixupPath {old : List Nat} (hinv : v.bm.Inv)
    (hctx : Ctx v.blocks H top path h lo hi before after bs)
    (htree : TreeAt v.blocks h lo hi c es bs') (hused : v.Used (bs' ++ bs)) :
    wp (fixupPath path c old) (fun r v' => ∃ A bs₂, v.Grew A v' ∧
        TreeAt v'.blocks H 0 top r.1 (before ++ es ++ after) bs₂ ∧
        r.2 = old ++ path.map Prod.fst ∧
        (bs₂ ++ path.map Prod.fst).Perm (bs' ++ bs ++ A)) (OutOfSpace v) v := by
  induction path generalizing v c old bs' h lo hi before after bs es with
  | nil =>
    cases hctx
    refine ⟨[], bs', .refl hinv, ?_, by simp, by simp⟩
    simpa using htree
  | cons p path ih =>
    obtain ⟨parent, idx⟩ := p
    rw [fixupPath, wp_bind]
    obtain ⟨hut, huc⟩ := Vol.used_append.mp hused
    cases hctx with
    | @cons _ _ nd _ _ lo₀ hi₀ _ _ eL eR before₀ after₀ bN bs₀ hb hok hhole hctx =>
      refine wp_readInternal hb ?_
      refine wp_seq (wp_writeFresh hinv _) fun p' v' hw => ?_
      obtain ⟨hgrew, hp'⟩ := hw
      -- the old blocks are untouched, so hole, child and context are as before
      have hhole' := hhole.frame (hgrew.frame_of_used fun x hx => huc x (by simp [hx]))
      have htree' := htree.frame (hgrew.frame_of_used hut)
      have hctx' := hctx.frame (hgrew.frame_of_used fun x hx => huc x (by simp [hx]))
      obtain ⟨hok', cs, hperm, hchain⟩ := hhole'.plug hok htree'
      have hparent : TreeAt v'.blocks (h + 1) lo₀ hi₀ p' (eL ++ es ++ eR) (p' :: cs) :=
        ⟨_, cs, hp', hok', hchain, rfl⟩
      have hnode : (p' :: cs).Perm (bs' ++ bN ++ [p']) :=
        (hperm.cons p').trans (perm_append_singleton _ _).symm
      have hused' := used_rebuilt hgrew hused hnode.subset
      refine wp_mono (ih hgrew.inv hctx' hparent hused') ?_ fun e w he => he.of_grew hgrew
      rintro r w ⟨A, bs₂, hgrew₂, htree₂, hold, hperm₂⟩
      refine ⟨p' :: A, bs₂, hgrew.trans hgrew₂, by simpa using htree₂, by simpa using hold,
        perm_rebuilt hnode hperm₂⟩

/-! ## The tree of a root -/

/-- The tree a root names, of height `H`; root 0 is the empty one. -/
def RootAt (blocks : Nat → Content) (root H : Nat) (es : List BTreeEntry) (bs : List Nat) : Prop :=
  (root = 0 ∧ H = 0 ∧ es = [] ∧ bs = []) ∨ ∃ top, TreeAt blocks H 0 top root es bs

/-- What holds between calls: the tree is well formed on distinct blocks of the
data area, all marked used. -/
structure TreeInv (v : Vol) (root H : Nat) (es : List BTreeEntry) (bs : List Nat) : Prop where
  inv : v.bm.Inv
  tree : RootAt v.blocks root H es bs
  used : v.Used bs
  nodup : bs.Nodup
  inData : ∀ b ∈ bs, v.bm.geo.dataStart ≤ b ∧ b < v.bm.geo.totalBlocks

theorem treeInv_empty (hinv : v.bm.Inv) : TreeInv v 0 0 [] [] :=
  ⟨hinv, .inl ⟨rfl, rfl, rfl, rfl⟩, fun _ hb => (not_mem_nil hb).elim, nodup_nil,
    fun _ hb => (not_mem_nil hb).elim⟩

variable {root : Nat}

section

variable (ht : TreeInv v root H es bs)

include ht

theorem TreeInv.pos : ∀ b ∈ bs, 0 < b := by
  intro b hb
  obtain ⟨hlo, hhi⟩ := ht.inData b hb
  exact (v.bm.geo.dataStart_pos (by omega)).trans_le hlo

theorem TreeInv.tree_of_ne (hne : root ≠ 0) : ∃ top, TreeAt v.blocks H 0 top root es bs :=
  ht.tree.resolve_left fun h₀ => hne h₀.1

/-- The root's upper bound is free: raise it above any hash. -/
theorem TreeInv.rooted (hne : root ≠ 0) (key : Hash) :
    ∃ top, key < top ∧ TreeAt v.blocks H 0 top root es bs := by
  obtain ⟨top, htop⟩ := ht.tree_of_ne hne
  exact ⟨max top (key + 1), Nat.le_max_right _ _,
    TreeAt.widen _ _ _ _ _ _ _ (Nat.le_refl 0) (Nat.le_max_left _ _) htop⟩

theorem TreeInv.search (hne : root ≠ 0) (key : Hash) : Search v.blocks H key [] H root es bs := by
  obtain ⟨top, htop, htree⟩ := ht.rooted hne key
  exact ⟨top, 0, top, [], [], es, [], bs, .root, htree, Nat.zero_le _, htop, by simp, by simp⟩

theorem TreeInv.tree_empty (h₀ : root = 0) : H = 0 ∧ es = [] ∧ bs = [] := by
  rcases ht.tree with ⟨-, hH, hes, hbs⟩ | ⟨top, htop⟩
  · exact ⟨hH, hes, hbs⟩
  · have := ht.pos root htop.nonempty_blocks
    exact absurd h₀ (Nat.ne_of_gt this)

end

variable {v' : Vol}

/-- The invariant after a copy-on-write call. -/
theorem TreeInv.cow {root' H' : Nat} {es' : List BTreeEntry} {old A : List Nat}
    (h : TreeInv v root H es bs) (hcow : Cow v bs old A bs' v')
    (htree : RootAt v'.blocks root' H' es' bs') : TreeInv v' root' H' es' bs' where
  inv := hcow.grew.inv
  tree := htree
  used := hcow.used h.used
  nodup := hcow.nodup h.nodup h.used
  inData := by
    intro b hb
    rw [hcow.grew.geo]
    rcases hcow.mem_new hb with hb | hb
    · exact h.inData b hb
    · exact hcow.grew.inData b hb

/-- Taking blocks without using them does not disturb the tree. -/
theorem TreeInv.grew {A : List Nat} (h : TreeInv v root H es bs) (hgrew : v.Grew A v') :
    TreeInv v' root H es bs where
  inv := hgrew.inv
  tree := h.tree.imp_right fun ⟨top, ht⟩ => ⟨top, ht.frame (hgrew.frame_of_used h.used)⟩
  used := hgrew.used h.used
  nodup := h.nodup
  inData := by
    rw [hgrew.geo]
    exact h.inData

/-- Work on other blocks does not disturb the tree. -/
theorem TreeInv.same (h : TreeInv v root H es bs) (hinv : v'.bm.Inv) (hgeo : v'.bm.geo = v.bm.geo)
    (hsame : ∀ x ∈ bs, v'.blocks x = v.blocks x ∧ v'.bm.isFree x = v.bm.isFree x) :
    TreeInv v' root H es bs where
  inv := hinv
  tree := h.tree.imp_right fun ⟨top, ht⟩ => ⟨top, ht.frame fun x hx => (hsame x hx).1⟩
  used := fun x hx => (hsame x hx).2.trans (h.used x hx)
  nodup := h.nodup
  inData := by
    rw [hgeo]
    exact h.inData

end BTree

end NopeekOS.Storage
