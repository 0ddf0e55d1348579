import NopeekOS.Storage.BTreeInsert

/-!
# Deletion from the B-tree

There is no rebalancing: a leaf that loses its last entry is taken out of its
parent, and a root with two children shrinks to the surviving one. A node below
the root may so be left with no key and one child. Taking that child out as well
is what the code cannot do: `Underflows` says when a call is about to, and every
other call does what deletion should (`wp_delete`).
-/

namespace NopeekOS.Storage.BTree

open Lib FaultState List

/-! ## Where a call ends up -/

/-- The descent of `insert` and `delete`: the path, the leaf and its entries, or
`none` if it is not reached in time. -/
def descent (blocks : Nat → Content) (key : Hash) :
    (levels block : Nat) → (path : List (Nat × Nat)) →
      Option (List (Nat × Nat) × Nat × List BTreeEntry)
  | levels, block, path =>
    match blocks block with
    | .node (.leaf entries) => some (path, block, entries)
    | .node (.internal nd) =>
      match levels with
      | 0 => none
      | levels + 1 =>
        descent blocks key levels (nd.findChildWithIdx key).2
          ((block, (nd.findChildWithIdx key).1) :: path)
    | _ => none

/-- The leaf's parent is not the root and has no key. -/
def KeylessParent (blocks : Nat → Content) : (path : List (Nat × Nat)) → Prop
  | (parent, _) :: _ :: _ => ∃ nd, blocks parent = .node (.internal nd) ∧ nd.count = 0
  | _ => False

/-- Deleting `key` empties the only leaf of a node below the root. -/
def Underflows (blocks : Nat → Content) (root : Nat) (key : Hash) : Prop :=
  root ≠ 0 ∧ ∃ path leaf e, descent blocks key (MAX_TREE_DEPTH - 1) root [] = some (path, leaf, [e]) ∧
    e.hash = key ∧ KeylessParent blocks path

variable {blocks : Nat → Content} {h lo hi b : Nat} {es : List BTreeEntry} {bs : List Nat}
variable {nd : Internal} {lo₀ hi₀ idx : Nat} {eL eR : List BTreeEntry} {bN : List Nat}
variable {H top : Nat} {path : List (Nat × Nat)} {before after : List BTreeEntry}
variable {checks : Bool} {key : Hash}

/-! ## A parent loses a child -/

theorem decEntries_eq (v : Vol) {n : Nat} (hn : 0 < n) : decEntries checks n v = (.ok (n - 1), v) := by
  unfold decEntries
  rw [if_neg (Nat.ne_of_gt hn)]
  rfl

theorem lastChild_eq (v : Vol) (hn : 0 < nd.count) :
    lastChild checks nd v = (.ok (nd.child (nd.count - 1)), v) := by
  unfold lastChild
  rw [if_neg (Nat.ne_of_gt hn)]
  rfl

/-- The shifting loop on slots cut at the hole and at the end of the used part. -/
theorem shiftLeft_eq (L R rest : List (Hash × Nat)) (x : Hash × Nat) :
    ∃ y, shiftLeft (L ++ x :: R ++ rest) L.length (L ++ x :: R).length = L ++ R ++ y :: rest := by
  have hlen : (L ++ x :: R).length - 1 < (L ++ x :: R).length := by simp
  refine ⟨(L ++ x :: R)[(L ++ x :: R).length - 1], ?_⟩
  have h₁ : (L ++ x :: R ++ rest).take L.length = L := by
    rw [append_assoc, take_left]
  have h₂ : ((L ++ x :: R ++ rest).take (L ++ x :: R).length).drop (L.length + 1) = R := by
    rw [take_left, drop_length_add_append]
    rfl
  have h₃ : (L ++ x :: R ++ rest).drop ((L ++ x :: R).length - 1) =
      (L ++ x :: R)[(L ++ x :: R).length - 1] :: rest := by
    rw [drop_append_of_le_length (Nat.le_of_lt hlen), drop_eq_getElem_cons hlen,
      drop_of_length_le (by omega)]
    rfl
  rw [shiftLeft, h₁, h₂, h₃]

/-- Removing the rightmost child promotes the one before it. -/
theorem removeChild_last (checks : Bool) (hok : nd.Ok) {L : List (Hash × Nat)} {k c : Nat}
    (hused : nd.used = L ++ [(k, c)]) :
    ∃ nd', (∀ v, removeChild checks nd nd.used.length v = (.ok nd', v)) ∧ nd'.Ok ∧
      nd'.used = L ∧ nd'.rightChild = c := by
  have hlen := hok.length_used
  have hcount : nd.count = L.length + 1 := by
    rw [← hlen, hused]
    simp
  have hle : nd.count ≤ MAX_INTERNAL_KEYS := Nat.min_le_right _ _
  have hchild : nd.child L.length = c := by
    refine (hok.slot_eq (i := L.length) (s := (k, c)) ?_).2
    rw [hused]
    simp
  refine ⟨{ nd with numEntries := nd.count - 1, rightChild := nd.child (nd.count - 1) },
    fun v => ?_, ⟨?_, hok.2⟩, ?_, ?_⟩
  · unfold removeChild
    rw [if_neg (by omega), bind_run (lastChild_eq v (by omega)),
      bind_run (decEntries_eq v (by omega))]
    rfl
  · show nd.count - 1 ≤ _
    omega
  · show nd.slots.take (min (nd.count - 1) _) = L
    have htake : nd.slots.take nd.count = L ++ [(k, c)] := hused
    have : nd.slots.take L.length = (nd.slots.take nd.count).take L.length := by
      rw [take_take, Nat.min_eq_left (by omega)]
    rw [Nat.min_eq_left (by omega), hcount, Nat.add_sub_cancel, this, htake, take_left]
  · rw [hcount, Nat.add_sub_cancel]
    exact hchild

/-- Removing another child takes its separator with it. -/
theorem removeChild_mid (checks : Bool) (hok : nd.Ok) {L R : List (Hash × Nat)} {k c : Nat}
    (hused : nd.used = L ++ (k, c) :: R) :
    ∃ nd', (∀ v, removeChild checks nd L.length v = (.ok nd', v)) ∧ nd'.Ok ∧
      nd'.used = L ++ R ∧ nd'.rightChild = nd.rightChild := by
  have hlen := hok.length_used
  have hle : nd.count ≤ MAX_INTERNAL_KEYS := Nat.min_le_right _ _
  have hslots : nd.slots = (L ++ (k, c) :: R) ++ nd.slots.drop nd.count := by
    rw [← hused]
    exact (take_append_drop _ _).symm
  rw [hused] at hlen
  obtain ⟨y, hshift⟩ := shiftLeft_eq L R (nd.slots.drop nd.count) (k, c)
  rw [← hslots, hlen] at hshift
  have hcount : nd.count = (L ++ R).length + 1 := by
    rw [← hlen]
    simp
    omega
  refine ⟨{ nd with numEntries := nd.count - 1, slots := shiftLeft nd.slots L.length nd.count },
    fun v => ?_, ⟨?_, ?_⟩, ?_, rfl⟩
  · unfold removeChild
    rw [if_pos (by rw [hcount, length_append]; omega), bind_run (decEntries_eq v (by omega))]
    rfl
  · show nd.count - 1 ≤ _
    omega
  · have := hok.2
    rw [hslots] at this
    rw [hshift]
    simp only [length_append, length_cons] at this ⊢
    omega
  · show (shiftLeft nd.slots L.length nd.count).take (min (nd.count - 1) _) = _
    rw [hshift, Nat.min_eq_left (by omega), hcount, Nat.add_sub_cancel, take_left]

/-- **A parent with a key loses a child**: its neighbour's bounds widen. -/
theorem removeChild_spec (checks : Bool) (hok : nd.Ok) (hpos : 0 < nd.count)
    (hhole : Hole blocks h nd lo₀ hi₀ idx lo hi eL eR bN) (hlt : lo < hi) :
    ∃ nd', (∀ v, removeChild checks nd idx v = (.ok nd', v)) ∧ nd'.Ok ∧
      Chain (TreeAt blocks h) lo₀ hi₀ nd'.used nd'.rightChild (eL ++ eR) bN := by
  cases hhole with
  | last hseg =>
    have hne : nd.used ≠ [] := by
      rw [← length_pos_iff, hok.length_used]
      exact hpos
    obtain ⟨L, ⟨k, c⟩, hused⟩ : ∃ L s, nd.used = L ++ [s] :=
      ⟨_, _, (dropLast_append_getLast hne).symm⟩
    obtain ⟨nd', hrun, hok', hused', hright⟩ := removeChild_last checks hok hused
    rw [hused] at hseg
    obtain ⟨m, e₁, _, r₁, _, hL, hlast, rfl, rfl⟩ := hseg.split
    obtain ⟨f₁, _, s₁, _, -, hc, ⟨rfl, rfl, rfl⟩, rfl, rfl⟩ := hlast
    refine ⟨nd', hrun, hok', ?_⟩
    rw [hused', hright]
    simpa using hL.chain (TreeAt.widen _ _ _ _ _ _ _ (Nat.le_refl m) (Nat.le_of_lt hlt) hc)
  | mid hused hseg hmk hchain =>
    obtain ⟨nd', hrun, hok', hused', hright⟩ := removeChild_mid checks hok hused
    refine ⟨nd', hrun, hok', ?_⟩
    rw [hused', hright]
    exact hseg.append_chain (hchain.widen TreeAt.widen (Nat.le_of_lt hmk) (Nat.le_refl _))

/-- The child a root with at most one key shrinks to (btree.rs:694). -/
theorem survivor_spec (hok : nd.Ok) (hle : nd.count ≤ 1)
    (hhole : Hole blocks h nd lo₀ hi₀ idx lo hi eL eR bN) (hlt : lo < hi) {survivor : Nat}
    (hs : survivor = if idx = 0 then (if 0 < nd.count then nd.rightChild else 0) else nd.child 0) :
    (survivor = 0 ∧ eL ++ eR = [] ∧ bN = []) ∨ TreeAt blocks h lo₀ hi₀ survivor (eL ++ eR) bN := by
  have hlen := hok.length_used
  cases hhole with
  | last hseg =>
    match hused : nd.used with
    | [] =>
      -- the only child goes
      rw [hused] at hseg hlen hs
      obtain ⟨-, rfl, rfl⟩ := hseg
      rw [length_nil, if_pos rfl, if_neg (by rw [← hlen]; simp)] at hs
      exact .inl ⟨hs, rfl, rfl⟩
    | [(k, c)] =>
      have hchild : nd.child 0 = c := (hok.slot_eq (i := 0) (by rw [hused]; rfl)).2
      rw [hused] at hseg hs
      obtain ⟨e₁, _, r₁, _, -, hc, ⟨rfl, rfl, rfl⟩, rfl, rfl⟩ := hseg
      rw [if_neg (by simp), hchild] at hs
      rw [hs]
      simpa using Or.inr (TreeAt.widen _ _ _ _ _ _ _ (Nat.le_refl lo₀) (Nat.le_of_lt hlt) hc)
    | _ :: _ :: _ =>
      rw [hused, length_cons, length_cons] at hlen
      omega
  | @mid _ _ c L R _ _ _ _ hused hseg hmk hchain =>
    rw [hused, length_append, length_cons] at hlen
    obtain rfl : L = [] := eq_nil_of_length_eq_zero (by omega)
    obtain rfl : R = [] := eq_nil_of_length_eq_zero (by omega)
    obtain ⟨rfl, rfl, rfl⟩ := hseg
    rw [length_nil, if_pos rfl, if_pos (by omega)] at hs
    rw [hs]
    exact .inr (TreeAt.widen _ _ _ _ _ _ _ (Nat.le_of_lt hmk) (Nat.le_refl _)
      (Chain.nil_iff.mp hchain))

variable {v : Vol}

/-- The parent without the child is written to a fresh block. -/
theorem wp_replaceParent {nd' : Internal} {k : Nat → FsM (Nat × List Nat)}
    {Q : Nat × List Nat → Vol → Prop} (hinv : v.bm.Inv)
    (hrun : ∀ w, removeChild checks nd idx w = (.ok nd', w))
    (h : ∀ p' v', v.Grew [p'] v' → v'.blocks p' = .node (.internal nd') →
      wp (k p') Q (OutOfSpace v) v') :
    wp (do
      let p' ← allocBlock
      let nd ← removeChild checks nd idx
      writeNode p' (.internal nd)
      k p') Q (OutOfSpace v) v := by
  refine wp_seq (wp_allocBlock hinv) fun p' v₁ h₁ => ?_
  refine wp_of_run (hrun v₁) ?_
  rw [wp_bind, wp_writeNode]
  exact h p' _ (h₁.1.write (mem_singleton_self p') _) (Function.update_self ..)

/-- **`remove_from_parent`**, where the leaf's parent has a key or is the root:
the tree without that leaf. -/
theorem wp_removeFromParent {old : List Nat} {p : Nat × Nat} (hinv : v.bm.Inv)
    (hctx : Ctx v.blocks H top (p :: path) 0 lo hi before after bs) (hlt : lo < hi)
    (hused : v.Used bs) (hkey : ¬ KeylessParent v.blocks (p :: path)) :
    wp (removeFromParent checks (p :: path) old) (fun r v' => ∃ A bs' H', v.Grew A v' ∧
        RootAt v'.blocks r.1 H' (before ++ after) bs' ∧
        r.2 = old ++ (p :: path).map Prod.fst ∧
        H' ≤ H ∧ (2 ≤ H → H' = H) ∧ (bs' ++ (p :: path).map Prod.fst).Perm (bs ++ A))
      (OutOfSpace v) v := by
  obtain ⟨parent, idx⟩ := p
  rw [removeFromParent, wp_bind]
  cases hctx with
  | @cons _ _ nd _ _ lo₀ hi₀ _ _ eL eR before₀ after₀ bN bs₀ hb hok hhole hctx =>
    refine wp_readInternal hb ?_
    by_cases hshrink : nd.count ≤ 1 ∧ path = []
    · rw [if_pos hshrink]
      obtain ⟨hle, rfl⟩ := hshrink
      cases hctx
      rw [wp_pure]
      have hempty : 2 ≤ 0 + 1 → 0 = 0 + 1 := by omega
      rcases survivor_spec hok hle hhole hlt rfl with ⟨h₀, hes, rfl⟩ | htree
      · refine ⟨[], [], 0, .refl hinv, .inl ⟨h₀, rfl, by simpa using hes, rfl⟩, by simp,
          Nat.zero_le _, hempty, by simp⟩
      · refine ⟨[], bN, 0, .refl hinv, .inr ⟨top, by simpa using htree⟩, by simp,
          Nat.zero_le _, hempty, by simp⟩
    · rw [if_neg hshrink]
      -- below the root there is a key by assumption, in the root there are two
      have hpos : 0 < nd.count := by
        by_contra h₀
        cases path with
        | nil => exact hshrink ⟨by omega, rfl⟩
        | cons q path => exact hkey ⟨nd, hb, by omega⟩
      obtain ⟨nd', hrun, hok', hchain⟩ := removeChild_spec checks hok hpos hhole hlt
      refine wp_replaceParent hinv hrun fun p' v₂ hgrew hp' => ?_
      have hframe := hgrew.frame_of_used hused
      have hchain' : Chain (TreeAt v₂.blocks 0) lo₀ hi₀ nd'.used nd'.rightChild (eL ++ eR) bN :=
        hchain.imp fun _ _ _ _ _ hsub ht => ht.frame fun x hx =>
          hframe x (by simp [hsub x hx])
      have hnode : (p' :: bN).Perm ([] ++ bN ++ [p']) := (perm_append_singleton _ _).symm
      have hused' := used_rebuilt (X := []) hgrew hused hnode.subset
      refine wp_mono (wp_fixupPath hgrew.inv (hctx.frame fun x hx => hframe x (by simp [hx]))
        ⟨nd', bN, hp', hok', hchain', rfl⟩ hused') ?_ fun e w he => he.of_grew hgrew
      rintro r w ⟨A, bs₂, hgrew₂, htree₂, hold, hperm⟩
      exact ⟨p' :: A, bs₂, H, hgrew.trans hgrew₂, .inr ⟨top, by simpa using htree₂⟩,
        by simpa using hold, Nat.le_refl H, fun _ => rfl, perm_rebuilt hnode hperm⟩

/-! ## The leaf -/

/-- `es'` is `es` without the entry of `key`. -/
def Removed (key : Hash) (es es' : List BTreeEntry) : Prop :=
  ∃ X e Y, es = X ++ e :: Y ∧ e.hash = key ∧ es' = X ++ Y

variable {es' : List BTreeEntry}

theorem Removed.around (h : Removed key es es') :
    Removed key (before ++ es ++ after) (before ++ es' ++ after) := by
  obtain ⟨X, e, Y, rfl, he, rfl⟩ := h
  exact ⟨before ++ X, e, Y ++ after, by simp, he, by simp⟩

theorem Removed.sublist (h : Removed key es es') : es'.Sublist es := by
  obtain ⟨X, e, Y, rfl, -, rfl⟩ := h
  exact (List.Sublist.refl X).append (sublist_cons_self e Y)

theorem Removed.length (h : Removed key es es') : es.length = es'.length + 1 := by
  obtain ⟨X, e, Y, rfl, -, rfl⟩ := h
  simp
  omega

theorem Removed.singleton {e : BTreeEntry} (h : Removed key [e] es') : e.hash = key ∧ es' = [] := by
  obtain ⟨X, c, Y, heq, hc, rfl⟩ := h
  cases X with
  | nil =>
    obtain ⟨rfl, rfl⟩ := List.cons.inj heq
    exact ⟨hc, rfl⟩
  | cons x X =>
    have := congrArg List.length heq
    simp at this

/-- What the search of the leaf finds. -/
theorem removed_eraseIdx {pos : Nat} (h : es.findIdx? (fun e => e.hash == key) = some pos) :
    Removed key es (es.eraseIdx pos) := by
  obtain ⟨hlt, hkey, -⟩ := findIdx?_eq_some_iff_getElem.mp h
  refine ⟨es.take pos, es[pos], es.drop (pos + 1), ?_, beq_iff_eq.mp hkey,
    eraseIdx_eq_take_drop_succ ..⟩
  rw [← drop_eq_getElem_cons hlt, take_append_drop]

/-- What a deletion does to the tree of height `H` and its blocks `bs`. -/
def DeleteSpec (v : Vol) (es : List BTreeEntry) (bs : List Nat) (H : Nat) (key : Hash)
    (root : Nat) (old : List Nat) (v' : Vol) : Prop :=
  ∃ es' A bs' H', Removed key es es' ∧ Cow v bs old A bs' v' ∧
    RootAt v'.blocks root H' es' bs' ∧ H' ≤ H ∧ (2 ≤ H → H' = H)

/-- The last entry of a root leaf: the call takes a block for the empty leaf and
then returns no root at all. -/
def EmptiesRoot (v : Vol) (key : Hash) (b : Nat) (es : List BTreeEntry) (root : Nat)
    (old : List Nat) (v' : Vol) : Prop :=
  (∃ e, es = [e] ∧ e.hash = key) ∧ root = 0 ∧ old = [b] ∧ ∃ n, v.Grew [n] v'

/-- How `delete` may fail: out of space, or the hash is not there. -/
def DeleteFault (v : Vol) (es : List BTreeEntry) (key : Hash) (e : Fault) (v' : Vol) : Prop :=
  OutOfSpace v e v' ∨ e = .fs .objectNotFound ∧ v' = v ∧ ∀ x ∈ es, x.hash ≠ key

variable {bs' : List Nat}

theorem wp_deleteLeaf (hinv : v.bm.Inv) (hctx : Ctx v.blocks H top path 0 lo hi before after bs)
    (htree : TreeAt v.blocks 0 lo hi b es bs') (hlo : lo ≤ key) (hhi : key < hi)
    (hused : v.Used (bs' ++ bs))
    (hkey : ∀ e, es = [e] → e.hash = key → ¬ KeylessParent v.blocks path) :
    wp (deleteLeaf checks b path es key) (fun r v' =>
        (path = [] ∧ EmptiesRoot v key b es r.1 r.2 v') ∨
        (¬ (path = [] ∧ es.length = 1) ∧
          DeleteSpec v (before ++ es ++ after) (bs' ++ bs) H key r.1 r.2 v'))
      (DeleteFault v (before ++ es ++ after) key) v := by
  obtain ⟨hb, ⟨hlt, hs, hlen, -⟩, rfl⟩ := htree
  obtain ⟨hbefore, hafter⟩ := hctx.bounds
  unfold deleteLeaf
  cases hfind : es.findIdx? fun e => e.hash == key with
  | none =>
    refine .inr ⟨rfl, rfl, forall_mem_append.mpr ⟨forall_mem_append.mpr
      ⟨fun x hx => Nat.ne_of_lt ((hbefore x hx).trans_le hlo), fun x hx => ?_⟩,
      fun x hx => Nat.ne_of_gt (hhi.trans_le (hafter x hx))⟩⟩
    simpa using findIdx?_eq_none_iff.mp hfind x hx
  | some pos =>
    have hrem := removed_eraseIdx hfind
    show wp (if es.length = 1 ∧ path ≠ [] then _ else _) _ _ _
    by_cases hone : es.length = 1 ∧ path ≠ []
    · rw [if_pos hone]
      -- the leaf goes altogether
      obtain ⟨e, rfl⟩ := length_eq_one_iff.mp hone.1
      obtain ⟨hekey, hnil⟩ := hrem.singleton
      cases path with
      | nil => exact absurd rfl hone.2
      | cons p path =>
        refine wp_mono (wp_removeFromParent hinv hctx hlt
          (fun x hx => hused x (mem_append_right _ hx)) (hkey e rfl hekey)) ?_
          fun e w he => .inl he
        rintro ⟨root, frees⟩ w ⟨A, bs₂, H', hgrew, hroot, hfrees, hle, hH, hperm⟩
        obtain rfl : frees = _ := hfrees
        exact .inr ⟨fun h => hone.2 h.1, _, _, bs₂, H', hrem.around,
          hctx.cow (.refl hinv) hgrew hperm, by simpa [hnil] using hroot, hle, hH⟩
    · rw [if_neg hone]
      refine wp_seq_mono (wp_writeFresh hinv _) (fun e w he => .inl he) ?_
      rintro n v' ⟨hgrew, hn⟩
      by_cases hroot : path = [] ∧ es.length = 1
      · rw [if_pos hroot]
        obtain ⟨e, rfl⟩ := length_eq_one_iff.mp hroot.2
        exact .inl ⟨hroot.1, ⟨e, rfl, hrem.singleton.1⟩, rfl, rfl, n, hgrew⟩
      · rw [if_neg hroot]
        -- at least one entry stays in the leaf
        have hne : es.eraseIdx pos ≠ [] := by
          intro hnil
          have := hrem.length
          rw [hnil] at this
          by_cases hpath : path = []
          · exact hroot ⟨hpath, this⟩
          · exact hone ⟨this, hpath⟩
        have hsub := hrem.sublist
        have hleaf : TreeAt v'.blocks 0 lo hi n (es.eraseIdx pos) [n] :=
          ⟨hn, ⟨hlt, ⟨hs.1.sublist hsub, fun e he => hs.2 e (hsub.subset he)⟩,
            hsub.length_le.trans hlen, hne⟩, rfl⟩
        obtain ⟨hctx', hused'⟩ := hctx.grown hgrew hused
        refine wp_mono (wp_fixupPath hgrew.inv hctx' hleaf hused') ?_
          fun e w he => .inl (he.of_grew hgrew)
        rintro ⟨root', frees⟩ w ⟨A, bs₂, hgrew₂, htree₂, hfrees, hperm⟩
        obtain rfl : frees = _ := hfrees
        exact .inr ⟨hroot, _, _, bs₂, H, hrem.around, hctx.cow hgrew hgrew₂ hperm,
          .inr ⟨top, htree₂⟩, Nat.le_refl H, fun _ => rfl⟩

/-! ## The whole call -/

variable {levels : Nat}

theorem descent_leaf (hb : blocks b = .node (.leaf es)) :
    descent blocks key levels b path = some (path, b, es) := by
  unfold descent
  rw [hb]

theorem descent_internal (hb : blocks b = .node (.internal nd)) :
    descent blocks key (levels + 1) b path = descent blocks key levels (nd.findChildWithIdx key).2
        ((b, (nd.findChildWithIdx key).1) :: path) := by
  rw [descent, hb]

/-- A tree whose leaf is reached in time is not too high. -/
theorem Search.height_le (hs : Search blocks H key path h b es bs)
    (hd : (descent blocks key levels b path).isSome) : h ≤ levels := by
  induction h generalizing levels b path with
  | zero => exact Nat.zero_le _
  | succ h ih =>
    obtain ⟨nd, hb, hs⟩ := hs.child
    cases levels with
    | zero =>
      unfold descent at hd
      rw [hb] at hd
      cases hd
    | succ levels =>
      rw [descent_internal hb] at hd
      exact Nat.succ_le_succ (ih hs hd)

/-- The descent ends at the leaf the hash belongs to, if the tree is not too
deep. -/
theorem wp_deleteFrom (hinv : v.bm.Inv) (hused : v.Used bs)
    (hs : Search v.blocks H key path h b es bs)
    (hkey : ∀ p leaf e, descent v.blocks key levels b path = some (p, leaf, [e]) → e.hash = key →
      ¬ KeylessParent v.blocks p) :
    wp (deleteFrom checks key levels b path) (fun r v' =>
        (path = [] ∧ h = 0 ∧ EmptiesRoot v key b es r.1 r.2 v') ∨
        (¬ (path = [] ∧ h = 0 ∧ es.length = 1) ∧ DeleteSpec v es bs H key r.1 r.2 v'))
      (fun e v' => DeleteFault v es key e v' ∨ e = .fs .treeTooDeep ∧ v' = v ∧ levels < h) v := by
  induction h generalizing levels b path with
  | zero =>
    obtain ⟨top, lo, hi, before, after, es', bs₁, bs₂, hctx, htree, hlo, hhi, rfl, hperm⟩ := hs
    unfold deleteFrom
    rw [wp_bind]
    refine wp_readNode htree.1 (wp_mono (wp_deleteLeaf hinv hctx htree hlo hhi (hused.perm hperm)
      fun e he => hkey path b e (he ▸ descent_leaf htree.1)) ?_ fun e v' he => .inl he)
    have hwhole : path = [] → before ++ es' ++ after = es' := by
      rintro rfl
      cases hctx
      simp
    rintro r v' (⟨hpath, hr⟩ | ⟨hne, es₂, A, bs₃, H', hrem, hcow, hroot, hH⟩)
    · exact .inl ⟨hpath, rfl, by rwa [hwhole hpath]⟩
    · refine .inr ⟨fun hc => hne ⟨hc.1, ?_⟩, es₂, A, bs₃, H', hrem, hcow.of_perm hperm, hroot, hH⟩
      rw [← hwhole hc.1]
      exact hc.2.2
  | succ h ih =>
    unfold deleteFrom
    rw [wp_bind]
    obtain ⟨nd, hb, hs⟩ := hs.child
    refine wp_readNode hb ?_
    cases levels with
    | zero => exact .inr ⟨rfl, rfl, Nat.succ_pos h⟩
    | succ levels =>
      rw [descent_internal hb] at hkey
      refine wp_mono (ih hs hkey) (fun r v' hr => .inr ⟨by simp, ?_⟩) fun e v' he => ?_
      · rcases hr with hr | hr
        · cases hr.1
        · exact hr.2
      · exact he.imp_right fun he => ⟨he.1, he.2.1, Nat.succ_lt_succ he.2.2⟩

/-- **`delete`**, where it does not underflow: the entry goes, or it was not
there; only from a root leaf with one entry it goes by another way. -/
theorem wp_delete {root : Nat} (checks : Bool) (h : TreeInv v root H es bs)
    (hfine : ¬ Underflows v.blocks root key) :
    wp (delete checks root key) (fun r v' =>
        (H = 0 ∧ EmptiesRoot v key root es r.1 r.2 v') ∨
        (¬ (H = 0 ∧ es.length = 1) ∧ DeleteSpec v es bs H key r.1 r.2 v'))
      (fun e v' => DeleteFault v es key e v' ∨
        e = .fs .treeTooDeep ∧ v' = v ∧ MAX_TREE_DEPTH - 1 < H) v := by
  unfold delete
  by_cases hroot : root = 0
  · rw [if_pos hroot]
    obtain ⟨-, rfl, -⟩ := h.tree_empty hroot
    exact .inl (.inr ⟨rfl, rfl, by simp⟩)
  · rw [if_neg hroot]
    have hkey : ∀ p leaf e, descent v.blocks key (MAX_TREE_DEPTH - 1) root [] =
        some (p, leaf, [e]) → e.hash = key → ¬ KeylessParent v.blocks p :=
      fun p leaf e hd he hk => hfine ⟨hroot, p, leaf, e, hd, he, hk⟩
    simpa using wp_deleteFrom h.inv h.used (h.search hroot key) hkey

end NopeekOS.Storage.BTree
