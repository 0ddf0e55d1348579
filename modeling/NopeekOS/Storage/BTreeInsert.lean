import NopeekOS.Storage.BTreeShape

/-!
# Insertion into the B-tree

A full leaf splits in two, and the split travels up the path until a parent has
room or the root itself splits. Parents look up the position of the new key by
its value: since separators are strictly ascending and a split key lies strictly
inside its child's bounds, that is the position of the child
(`splitPos_eq`), and `insertSplit` and `splitEntries` both produce the list
`splitUsed`.
-/

namespace NopeekOS.Storage.BTree

open Lib FaultState List

variable {blocks : Nat → Content} {h lo hi b : Nat} {es : List BTreeEntry} {bs : List Nat}
variable {nd : Internal} {lo₀ hi₀ idx : Nat} {eL eR : List BTreeEntry} {bN : List Nat}
variable {H top : Nat} {path : List (Nat × Nat)} {before after : List BTreeEntry}

/-! ## A parent takes a split child -/

/-- The slots and the rightmost child after child `idx` became `left` and `right`
with `key` between them. -/
def splitUsed (nd : Internal) (idx : Nat) (key : Hash) (left right : Nat) :
    List (Hash × Nat) × Nat :=
  match nd.used.drop idx with
  | [] => (nd.used ++ [(key, left)], right)
  | (k, _) :: R => (nd.used.take idx ++ (key, left) :: (k, right) :: R, nd.rightChild)

variable {key left right : Nat}

theorem splitUsed_last :
    splitUsed nd nd.used.length key left right = (nd.used ++ [(key, left)], right) := by
  simp [splitUsed]

variable {L R : List (Hash × Nat)} {k c : Nat}

theorem splitUsed_mid (hused : nd.used = L ++ (k, c) :: R) : splitUsed nd L.length key left right =
      (L ++ (key, left) :: (k, right) :: R, nd.rightChild) := by
  simp [splitUsed, hused]

theorem length_splitUsed : (splitUsed nd idx key left right).1.length = nd.used.length + 1 := by
  unfold splitUsed
  split
  · simp
  rename_i k c R hdrop
  have : (nd.used.drop idx).length = R.length + 1 := by rw [hdrop]; simp
  rw [length_drop] at this
  simp only [length_append, length_take, length_cons]
  omega

variable {e₁ e₂ : List BTreeEntry} {b₁ b₂ : List Nat}

/-- The two halves in the hole. -/
theorem Hole.plug_two (hhole : Hole blocks h nd lo₀ hi₀ idx lo hi eL eR bN) (hkey : lo < key)
    (hl : TreeAt blocks h lo key left e₁ b₁) (hr : TreeAt blocks h key hi right e₂ b₂) :
    ∃ bs', bs'.Perm (b₁ ++ b₂ ++ bN) ∧
      Chain (TreeAt blocks h) lo₀ hi₀ (splitUsed nd idx key left right).1
        (splitUsed nd idx key left right).2 (eL ++ (e₁ ++ e₂) ++ eR) bs' := by
  cases hhole with
  | last hseg =>
    rw [splitUsed_last]
    have hchain := (hseg.append (Segment.cons hkey hl (.nil key))).chain hr
    simp only [append_nil, append_assoc] at hchain ⊢
    refine ⟨_, ?_, hchain⟩
    refine perm_iff_count.mpr fun a => ?_
    simp only [count_append]
    omega
  | mid hused hseg hlt hchain =>
    rw [splitUsed_mid hused]
    have htail := Chain.cons_iff.mpr ⟨e₁, _, b₁, _, hkey, hl,
      Chain.cons_iff.mpr ⟨e₂, _, b₂, _, hr.lt, hr, hchain, rfl, rfl⟩, rfl, rfl⟩
    refine ⟨_, ?_, by simpa using hseg.append_chain htail⟩
    refine perm_iff_count.mpr fun a => ?_
    simp only [count_append]
    omega

/-- The shifting loop on slots cut at the hole and at the end of the used part. -/
theorem shiftRight_eq (L R rest : List (Hash × Nat)) (x y : Hash × Nat) :
    shiftRight (L ++ x :: R ++ y :: rest) L.length (L ++ x :: R).length =
      L ++ x :: x :: R ++ rest := by
  have h₁ : (L ++ x :: R ++ y :: rest).take (L.length + 1) = L ++ [x] := by
    rw [append_assoc, take_length_add_append]
    rfl
  have h₂ : (L ++ x :: R ++ y :: rest).drop ((L ++ x :: R).length + 1) = rest := by
    rw [drop_length_add_append]
    rfl
  rw [shiftRight, h₁, h₂, take_left', drop_left'] <;> simp

/-- The used slots of a node and, if it has room, the first one after them. -/
theorem exists_slot_of_room (hok : nd.Ok) (hroom : nd.count < MAX_INTERNAL_KEYS) :
    ∃ x rest, nd.slots = nd.used ++ x :: rest := by
  have hne : nd.slots.drop nd.count ≠ [] := by
    intro hnil
    have hlen := congrArg List.length hnil
    rw [length_drop, hok.2, length_nil] at hlen
    omega
  obtain ⟨x, rest, hrest⟩ := exists_cons_of_ne_nil hne
  exact ⟨x, rest, by rw [← hrest]; exact (take_append_drop _ _).symm⟩

/-- A parent with room. -/
theorem insertSplit_spec (left right : Nat) (hok : nd.Ok)
    (hhole : Hole blocks h nd lo₀ hi₀ idx lo hi eL eR bN) (hlo : lo < key) (hhi : key < hi)
    (hroom : nd.count < MAX_INTERNAL_KEYS) :
    (insertSplit nd left right key).Ok ∧
      (insertSplit nd left right key).used = (splitUsed nd idx key left right).1 ∧
      (insertSplit nd left right key).rightChild = (splitUsed nd idx key left right).2 := by
  obtain ⟨x, rest, hslots⟩ := exists_slot_of_room hok hroom
  have hlen := hok.length_used
  have hlen' := hok.2
  have hcount : ∀ nd' : Internal, nd'.numEntries = nd.count + 1 → nd'.count = nd.count + 1 := by
    intro nd' h'
    rw [Internal.count, h']
    exact Nat.min_eq_left hroom
  have hpos := hhole.splitPos_eq hok (Nat.le_of_lt hlo) hhi
  obtain ⟨L, R, hused, rfl, -⟩ := hhole.cut
  rcases R with - | ⟨⟨k, c⟩, R⟩
  · -- the key goes to the end: `right` becomes the rightmost child
    obtain rfl : nd.used = L := hused.trans (append_nil L)
    rw [splitUsed_last, insertSplit, hpos, if_pos hlen]
    refine ⟨⟨hroom, by simpa using hok.2⟩, ?_, rfl⟩
    show (nd.slots.set nd.count (key, left)).take _ = _
    rw [hcount _ rfl, ← hlen, hslots, set_append_right _ _ (Nat.le_refl _), Nat.sub_self,
      take_length_add_append]
    rfl
  · rw [hused] at hlen hslots
    have hLlt : L.length ≠ nd.count := by
      rw [← hlen]
      simp
    have hset : ((shiftRight nd.slots L.length nd.count).set L.length (key, left)).modify
        (L.length + 1) (fun slot => (slot.1, right)) =
        L ++ (key, left) :: (k, right) :: R ++ rest := by
      rw [← hlen, hslots, shiftRight_eq, append_assoc]
      have hL : L.length ≤ L.length + 1 := Nat.le_succ _
      simp [modify_eq_take_drop, take_append, drop_append,
        take_of_length_le hL, drop_of_length_le hL]
    rw [splitUsed_mid hused, insertSplit, hpos, if_neg hLlt]
    refine ⟨⟨hroom, ?_⟩, ?_, rfl⟩
    · show (modify _ _ _).length = _
      rw [hset, ← hlen', hslots]
      simp only [length_append, length_cons]
      omega
    · show (modify _ _ _).take _ = _
      rw [hcount _ rfl, hset, ← hlen]
      exact take_left' (by simp; omega)

/-! ## A full parent splits -/

section

variable (hL : ∀ s ∈ L, s.1 < key)

include hL

theorem mergeKey_eq (hR : ∀ s ∈ R, key < s.1) :
    mergeKey key left (L ++ R) = L ++ (key, left) :: R := by
  induction L with
  | nil =>
    cases R with
    | nil => rfl
    | cons s R => simp [mergeKey, hR s mem_cons_self]
  | cons s L ih =>
    obtain ⟨hs, hL⟩ := forall_mem_cons.mp hL
    simp [mergeKey, Nat.lt_asymm hs, ih hL]

theorem findIdx_key : ((L ++ (key, left) :: R).findIdx fun e => e.1 == key) = L.length := by
  have hnone : (L.findIdx fun e => e.1 == key) = L.length :=
    findIdx_eq_length.mpr fun s hs => beq_false_of_ne (Nat.ne_of_lt (hL s hs))
  simp [findIdx_append, hnone, findIdx_cons]

end

/-- A full parent: the slots `split_internal` distributes. -/
theorem splitEntries_eq (hhole : Hole blocks h nd lo₀ hi₀ idx lo hi eL eR bN) (hlo : lo < key)
    (hhi : key < hi) : splitEntries nd key left right = splitUsed nd idx key left right := by
  obtain ⟨L, R, hused, rfl, hL, hR⟩ := hhole.cut
  have hkeys : ∀ s ∈ L, s.1 < key := fun s hs => (hL s hs).trans_lt hlo
  have hslots : nd.slots.take nd.count = L ++ R := hused
  rw [splitEntries, hslots, mergeKey_eq hkeys fun s hs => hhi.trans_le (hR s hs),
    findIdx_key hkeys]
  rcases R with - | ⟨⟨k, c⟩, R⟩
  · obtain rfl : nd.used = L := hused.trans (append_nil L)
    rw [splitUsed_last, if_pos (by simp)]
  · have hL : L.length ≤ L.length + 1 := Nat.le_succ _
    rw [splitUsed_mid hused, if_neg (by simp)]
    simp [modify_eq_take_drop, take_append, drop_append,
      take_of_length_le hL, drop_of_length_le hL]

/-- A fresh node with at most as many slots as fit. -/
theorem freshInternal_spec {entries : List (Hash × Nat)} (right : Nat)
    (hlen : entries.length ≤ MAX_INTERNAL_KEYS) :
    (freshInternal entries right).Ok ∧ (freshInternal entries right).used = entries := by
  refine ⟨⟨hlen, ?_⟩, ?_⟩
  · show (entries ++ List.replicate _ _).length = _
    rw [length_append, length_replicate]
    omega
  · show (entries ++ List.replicate _ _).take (min entries.length _) = _
    rw [Nat.min_eq_left hlen]
    exact take_left

variable {v : Vol} {v' : Vol} {cs : List Nat}

/-- A chain cut at a separator, each part in a fresh node. -/
theorem halves {n₁ n₂ : Nat} (hgrew : v.Grew [n₁, n₂] v')
    (hchain : Chain (TreeAt v.blocks h) lo hi (L ++ (k, c) :: R) right es cs) (hused : v.Used cs)
    (hL : L.length ≤ MAX_INTERNAL_KEYS) (hR : R.length ≤ MAX_INTERNAL_KEYS)
    (hn₁ : v'.blocks n₁ = .node (.internal (freshInternal L c)))
    (hn₂ : v'.blocks n₂ = .node (.internal (freshInternal R right))) :
    ∃ f₁ f₂ c₁ c₂, lo < k ∧ k < hi ∧ TreeAt v'.blocks (h + 1) lo k n₁ f₁ c₁ ∧
      TreeAt v'.blocks (h + 1) k hi n₂ f₂ c₂ ∧ f₁ ++ f₂ = es ∧
      (c₁ ++ c₂).Perm (cs ++ [n₁, n₂]) := by
  obtain ⟨f₁, f₂, r₁, r₂, hleft, hright, rfl, rfl⟩ := hchain.cut
  have hframe := hgrew.frame_of_used hused
  have hleft' : Chain (TreeAt v'.blocks h) lo k L c f₁ r₁ :=
    hleft.imp fun _ _ _ _ _ hsub ht =>
      ht.frame fun x hx => hframe x (mem_append_left _ (hsub x hx))
  have hright' : Chain (TreeAt v'.blocks h) k hi R right f₂ r₂ :=
    hright.imp fun _ _ _ _ _ hsub ht =>
      ht.frame fun x hx => hframe x (mem_append_right _ (hsub x hx))
  obtain ⟨hok₁, hused₁⟩ := freshInternal_spec c hL
  obtain ⟨hok₂, hused₂⟩ := freshInternal_spec right hR
  refine ⟨f₁, f₂, n₁ :: r₁, n₂ :: r₂, hleft.lt fun _ _ _ _ _ h => h.lt,
    hright.lt fun _ _ _ _ _ h => h.lt, ⟨_, r₁, hn₁, hok₁, ?_, rfl⟩, ⟨_, r₂, hn₂, hok₂, ?_, rfl⟩,
    rfl, ?_⟩
  · rw [hused₁]
    exact hleft'
  · rw [hused₂]
    exact hright'
  · refine perm_iff_count.mpr fun a => ?_
    simp only [count_append, count_cons, count_nil]
    omega

/-- **`split_internal`**: two halves around the promoted key, on two fresh
blocks. -/
theorem wp_splitInternal (hinv : v.bm.Inv) (hok : nd.Ok) (hfull : ¬ nd.count < MAX_INTERNAL_KEYS)
    (hhole : Hole v.blocks h nd lo₀ hi₀ idx lo hi eL eR bN) (hlo : lo < key) (hhi : key < hi)
    (hl : TreeAt v.blocks h lo key left e₁ b₁) (hr : TreeAt v.blocks h key hi right e₂ b₂)
    (hused : v.Used (b₁ ++ b₂ ++ bN)) :
    wp (splitInternal nd key left right) (fun r v' => ∃ f₁ f₂ c₁ c₂,
        v.Grew [r.1, r.2.1] v' ∧ lo₀ < r.2.2 ∧ r.2.2 < hi₀ ∧
        TreeAt v'.blocks (h + 1) lo₀ r.2.2 r.1 f₁ c₁ ∧
        TreeAt v'.blocks (h + 1) r.2.2 hi₀ r.2.1 f₂ c₂ ∧
        f₁ ++ f₂ = eL ++ (e₁ ++ e₂) ++ eR ∧
        (c₁ ++ c₂).Perm (b₁ ++ b₂ ++ bN ++ [r.1, r.2.1])) (OutOfSpace v) v := by
  obtain ⟨cs, hperm, hchain⟩ := hhole.plug_two hlo hl hr
  have hlen : (splitUsed nd idx key left right).1.length = MAX_INTERNAL_KEYS + 1 := by
    have : nd.count ≤ MAX_INTERNAL_KEYS := Nat.min_le_right _ _
    rw [length_splitUsed, hok.length_used]
    omega
  unfold splitInternal
  rw [splitEntries_eq hhole hlo hhi]
  generalize splitUsed nd idx key left right = split at hchain hlen ⊢
  obtain ⟨entries, rightmost⟩ := split
  -- `promoted`, the slot in the middle, closes the left half
  have hmid : entries.length / 2 < entries.length := by
    rw [hlen]
    decide
  have hcut : entries = entries.take (entries.length / 2) ++
      ((entries.getD (entries.length / 2) (0, 0)).1, (entries.getD (entries.length / 2) (0, 0)).2)
        :: entries.drop (entries.length / 2 + 1) := by
    rw [Prod.mk.eta, getD_eq_getElem?_getD, getElem?_eq_getElem hmid,
      Option.getD_some, ← drop_eq_getElem_cons hmid, take_append_drop]
  refine wp_mono (wp_writePair hinv _ _ _) ?_ fun _ _ he => he
  rintro _ v' ⟨n₁, n₂, rfl, hgrew, hn₁, hn₂⟩
  have hchain' : Chain (TreeAt v.blocks h) lo₀ hi₀ _ rightmost _ cs := hcut ▸ hchain
  obtain ⟨f₁, f₂, c₁, c₂, hlo', hhi', ht₁, ht₂, he, hperm'⟩ :=
    halves hgrew hchain' (hused.perm hperm) (by rw [length_take, hlen]; decide)
      (by rw [length_drop, hlen]; decide) hn₁ hn₂
  exact ⟨f₁, f₂, c₁, c₂, hgrew, hlo', hhi', ht₁, ht₂, he,
    hperm'.trans (hperm.append_right _)⟩

/-- Fresh blocks leave the way to the root as it was. -/
theorem Ctx.grown {A : List Nat} (hctx : Ctx v.blocks H top path h lo hi before after bs)
    (hgrew : v.Grew A v') (hused : v.Used (cs ++ bs)) :
    Ctx v'.blocks H top path h lo hi before after bs ∧ v'.Used (A ++ bs) :=
  ⟨hctx.frame fun x hx => hgrew.frame_of_used hused x (mem_append_right _ hx),
    Vol.used_append.mpr ⟨hgrew.used_new, (Vol.used_append.mp (hgrew.used hused)).2⟩⟩

/-- The accounting of a call that replaces the leaf `b` and the nodes above it. -/
theorem Ctx.cow {w : Vol} {A A₂ bs₂ : List Nat}
    (hctx : Ctx v.blocks H top path h lo hi before after bs) (hgrew : v.Grew A v')
    (hgrew₂ : v'.Grew A₂ w) (hperm : (bs₂ ++ path.map Prod.fst).Perm (A ++ bs ++ A₂)) :
    Cow v ([b] ++ bs) ([b] ++ path.map Prod.fst) (A ++ A₂) bs₂ w := by
  refine ⟨hgrew.trans hgrew₂, hctx.retired_subset, perm_iff_count.mpr fun a => ?_⟩
  have := hperm.count_eq a
  simp only [count_append] at this ⊢
  omega

/-- **`fixup_path_split`**: around the two halves the whole tree is as before,
perhaps one level higher. -/
theorem wp_fixupPathSplit {old : List Nat} (hinv : v.bm.Inv)
    (hctx : Ctx v.blocks H top path h lo hi before after bs) (hlo : lo < key) (hhi : key < hi)
    (hl : TreeAt v.blocks h lo key left e₁ b₁) (hr : TreeAt v.blocks h key hi right e₂ b₂)
    (hused : v.Used (b₁ ++ b₂ ++ bs)) :
    wp (fixupPathSplit path left right key old) (fun r v' => ∃ A bs₂ H', v.Grew A v' ∧ H' ≤ H + 1 ∧
        TreeAt v'.blocks H' 0 top r.1 (before ++ (e₁ ++ e₂) ++ after) bs₂ ∧
        r.2 = old ++ path.map Prod.fst ∧
        (bs₂ ++ path.map Prod.fst).Perm (b₁ ++ b₂ ++ bs ++ A)) (OutOfSpace v) v := by
  induction path generalizing v key left right old e₁ e₂ b₁ b₂ h lo hi before after bs with
  | nil =>
    cases hctx
    -- the root itself was split
    refine wp_seq (wp_writeFresh hinv _) fun root v' hw => ?_
    obtain ⟨hgrew, hroot⟩ := hw
    have hframe := hgrew.frame_of_used hused
    have hl' := hl.frame fun x hx => hframe x (by simp [hx])
    have hr' := hr.frame fun x hx => hframe x (by simp [hx])
    have hone : [(key, left)].length ≤ MAX_INTERNAL_KEYS := by
      show 1 ≤ MAX_INTERNAL_KEYS
      decide
    obtain ⟨hok, hu⟩ := freshInternal_spec right hone
    refine ⟨[root], root :: (b₁ ++ b₂), H + 1, hgrew, Nat.le_refl _,
      ⟨_, _, hroot, hok, ?_, rfl⟩, by simp, ?_⟩
    · rw [hu]
      show Chain _ _ _ _ right _ _
      simpa using (Segment.cons hlo hl' (.nil key)).chain hr'
    · refine perm_iff_count.mpr fun a => ?_
      simp only [count_append, count_cons, count_nil, map_nil]
      omega
  | cons p path ih =>
    obtain ⟨parent, idx⟩ := p
    rw [fixupPathSplit, wp_bind]
    cases hctx with
    | @cons _ _ nd _ _ lo₀ hi₀ _ _ eL eR before₀ after₀ bN bs₀ hb hok hhole hctx =>
      refine wp_readInternal hb ?_
      by_cases hroom : nd.count < MAX_INTERNAL_KEYS
      · rw [if_pos hroom]
        refine wp_seq (wp_writeFresh hinv _) fun p' v' hw => ?_
        obtain ⟨hgrew, hp'⟩ := hw
        have hframe := hgrew.frame_of_used hused
        have hhole' := hhole.frame fun x hx => hframe x (by simp [hx])
        obtain ⟨cs, hperm, hchain⟩ := hhole'.plug_two hlo
          (hl.frame fun x hx => hframe x (by simp [hx]))
          (hr.frame fun x hx => hframe x (by simp [hx]))
        obtain ⟨hok', hu, hright⟩ := insertSplit_spec left right hok hhole hlo hhi hroom
        rw [← hu, ← hright] at hchain
        have hnode : (p' :: cs).Perm (b₁ ++ b₂ ++ bN ++ [p']) :=
          (hperm.cons p').trans (perm_append_singleton _ _).symm
        have hused' := used_rebuilt hgrew hused hnode.subset
        refine wp_mono (wp_fixupPath hgrew.inv
          (hctx.frame fun x hx => hframe x (by simp [hx]))
          ⟨_, cs, hp', hok', hchain, rfl⟩ hused') ?_ fun e w he => he.of_grew hgrew
        rintro r w ⟨A, bs₂, hgrew₂, htree₂, hold, hperm₂⟩
        exact ⟨p' :: A, bs₂, H, hgrew.trans hgrew₂, Nat.le_succ H, by simpa using htree₂,
          by simpa using hold, perm_rebuilt hnode hperm₂⟩
      · rw [if_neg hroom]
        refine wp_seq (wp_splitInternal hinv hok hroom hhole hlo hhi hl hr
          fun x hx => hused x ?_) ?_
        · simp only [mem_append] at hx ⊢
          tauto
        rintro ⟨n₁, n₂, k⟩ v' ⟨f₁, f₂, c₁, c₂, hgrew, hlo', hhi', ht₁, ht₂, he, hperm⟩
        have hused' := used_rebuilt hgrew hused hperm.subset
        have hctx' := hctx.frame fun x hx => hgrew.frame_of_used hused x (by simp [hx])
        refine wp_mono (ih hgrew.inv hctx' hlo' hhi' ht₁ ht₂ hused') ?_
          fun e w he => he.of_grew hgrew
        rintro r w ⟨A, bs₂, H', hgrew₂, hH, htree₂, hold, hperm₂⟩
        rw [he] at htree₂
        exact ⟨[n₁, n₂] ++ A, bs₂, H', hgrew.trans hgrew₂, hH, by simpa using htree₂,
          by simpa using hold, perm_rebuilt hperm hperm₂⟩

/-! ## The leaf -/

/-- `es'` is `es` with `new` at its place. -/
def Inserted (new : BTreeEntry) (es es' : List BTreeEntry) : Prop :=
  ∃ X Y, es = X ++ Y ∧ es' = X ++ new :: Y ∧ (∀ e ∈ X, e.hash < new.hash) ∧
    ∀ e ∈ Y, new.hash < e.hash

variable {new : BTreeEntry} {es' : List BTreeEntry}

theorem Inserted.around (h : Inserted new es es') (hbefore : ∀ e ∈ before, e.hash < new.hash)
    (hafter : ∀ e ∈ after, new.hash < e.hash) :
    Inserted new (before ++ es ++ after) (before ++ es' ++ after) := by
  obtain ⟨X, Y, rfl, rfl, hX, hY⟩ := h
  exact ⟨before ++ X, Y ++ after, by simp, by simp, forall_mem_append.mpr ⟨hbefore, hX⟩,
    forall_mem_append.mpr ⟨hY, hafter⟩⟩

theorem Inserted.length (h : Inserted new es es') : es'.length = es.length + 1 := by
  obtain ⟨X, Y, rfl, rfl, -, -⟩ := h
  simp
  omega

theorem Inserted.sorted (h : Inserted new es es') (hs : SortedWithin BTreeEntry.hash lo hi es)
    (hlo : lo ≤ new.hash) (hhi : new.hash < hi) : SortedWithin BTreeEntry.hash lo hi es' := by
  obtain ⟨X, Y, rfl, rfl, hX, hY⟩ := h
  obtain ⟨hsX, hsY, hXY⟩ := pairwise_append.mp hs.1
  constructor
  · exact pairwise_append.mpr ⟨hsX, pairwise_cons.mpr ⟨hY, hsY⟩,
      fun a ha => forall_mem_cons.mpr ⟨hX a ha, hXY a ha⟩⟩
  · obtain ⟨hbX, hbY⟩ := forall_mem_append.mp hs.2
    exact forall_mem_append.mpr ⟨hbX, forall_mem_cons.mpr ⟨⟨hlo, hhi⟩, hbY⟩⟩

/-- Both ways to place an entry, the one of a leaf with room and the one of a full
leaf, put it before the first greater hash. -/
theorem inserted_mergeEntry : ∀ {es : List BTreeEntry}, es.Pairwise (fun a c => a.hash < c.hash) →
      (∀ e ∈ es, e.hash ≠ new.hash) → Inserted new es (mergeEntry new es)
  | [], _, _ => ⟨[], [], rfl, rfl, by simp, by simp⟩
  | e :: es, hs, hne => by
    obtain ⟨he, hs⟩ := pairwise_cons.mp hs
    unfold mergeEntry
    by_cases hlt : new.hash < e.hash
    · rw [if_pos hlt]
      exact ⟨[], e :: es, rfl, rfl, by simp,
        forall_mem_cons.mpr ⟨hlt, fun c hc => hlt.trans (he c hc)⟩⟩
    · rw [if_neg hlt]
      obtain ⟨hne, hne'⟩ := forall_mem_cons.mp hne
      obtain ⟨X, Y, hes, hmerge, hX, hY⟩ := inserted_mergeEntry hs hne'
      exact ⟨e :: X, Y, by rw [hes]; rfl, by rw [hmerge]; rfl,
        forall_mem_cons.mpr ⟨Nat.lt_of_le_of_ne (Nat.le_of_not_lt hlt) hne, hX⟩, hY⟩

theorem insertIdx_leafInsertPos (new : BTreeEntry) :
    ∀ es : List BTreeEntry, es.insertIdx (leafInsertPos es new.hash) new = mergeEntry new es
  | [] => rfl
  | e :: es => by
    have ih := insertIdx_leafInsertPos new es
    unfold leafInsertPos at ih ⊢
    rw [findIdx?_cons, mergeEntry]
    by_cases hlt : new.hash < e.hash
    · rw [if_pos hlt, decide_eq_true hlt]
      rfl
    · rw [if_neg hlt, decide_eq_false hlt, ← ih]
      cases findIdx? (fun c => decide (new.hash < c.hash)) es <;> rfl

/-- **`split_leaf`**: two leaves around the first hash of the right one. -/
theorem wp_splitLeaf (hinv : v.bm.Inv) (hmerge : mergeEntry new es = es')
    (hs : SortedWithin BTreeEntry.hash lo hi es') (hlen : es'.length = MAX_LEAF_ENTRIES + 1) :
    wp (splitLeaf es new) (fun r v' => ∃ f₁ f₂, v.Grew [r.1, r.2.1] v' ∧ lo < r.2.2 ∧
        r.2.2 < hi ∧ TreeAt v'.blocks 0 lo r.2.2 r.1 f₁ [r.1] ∧
        TreeAt v'.blocks 0 r.2.2 hi r.2.1 f₂ [r.2.1] ∧ f₁ ++ f₂ = es') (OutOfSpace v) v := by
  have hmid : es'.length / 2 = 18 := by
    rw [hlen]
    decide
  have hlt : 18 < es'.length := by
    rw [hlen]
    decide
  have hcut : es' = es'.take 18 ++ es'[18] :: es'.drop 19 := by
    rw [← drop_eq_getElem_cons hlt, take_append_drop]
  have hhead : ((es'.drop 18).map BTreeEntry.hash).headD 0 = es'[18].hash := by
    rw [drop_eq_getElem_cons hlt]
    rfl
  unfold splitLeaf
  simp only [hmerge, hmid, hhead]
  rw [drop_eq_getElem_cons hlt]
  obtain ⟨hleft, hright⟩ := SortedWithin.cut (hcut ▸ hs)
  have hlen₁ : (es'.take 18).length = 18 := by
    rw [length_take, hlen]
    decide
  have hne : es'.take 18 ≠ [] := by
    intro h
    rw [h] at hlen₁
    cases hlen₁
  -- the left half is not empty, so the key is above the lower bound
  have hlo : lo < es'[18].hash := by
    obtain ⟨e, he⟩ := exists_mem_of_ne_nil _ hne
    exact (hleft.2 e he).1.trans_lt (hleft.2 e he).2
  have hhi : es'[18].hash < hi := (hright.2 _ mem_cons_self).2
  refine wp_mono (wp_writePair hinv _ _ _) ?_ fun _ _ he => he
  rintro _ v' ⟨n₁, n₂, rfl, hgrew, hn₁, hn₂⟩
  refine ⟨_, _, hgrew, hlo, hhi, ⟨hn₁, ⟨hlo, hleft, ?_, hne⟩, rfl⟩,
    ⟨hn₂, ⟨hhi, hright, ?_, cons_ne_nil _ _⟩, rfl⟩, hcut.symm⟩
  · rw [hlen₁]
    decide
  · rw [length_cons, length_drop, hlen]
    decide

/-! ## The whole call -/

/-- What an insertion that changes the tree does to it and its blocks `bs`. -/
def InsertSpec (v : Vol) (es : List BTreeEntry) (bs : List Nat) (H : Nat)
    (entry : BTreeEntry) (root : Nat) (old : List Nat) (v' : Vol) : Prop :=
  ∃ es' A bs' H', Inserted entry es es' ∧ Cow v bs old A bs' v' ∧
    RootAt v'.blocks root H' es' bs' ∧ H' ≤ H + 1

/-- How an insertion ends: the hash is there and nothing changes, or the entry goes to its
place. -/
def InsertOutcome (v : Vol) (es : List BTreeEntry) (bs : List Nat) (H root : Nat)
    (entry : BTreeEntry) (r : Nat × List Nat × Bool) (v' : Vol) : Prop :=
  (r = (root, [], false) ∧ v' = v ∧ ∃ e ∈ es, e.hash = entry.hash) ∨
    (r.2.2 = true ∧ InsertSpec v es bs H entry r.1 r.2.1 v')

variable {root : Nat} {entry : BTreeEntry} {bs' : List Nat}

theorem wp_insertLeaf (hinv : v.bm.Inv) (hctx : Ctx v.blocks H top path 0 lo hi before after bs)
    (htree : TreeAt v.blocks 0 lo hi b es bs') (hlo : lo ≤ entry.hash) (hhi : entry.hash < hi)
    (hused : v.Used (bs' ++ bs)) :
    wp (insertLeaf root b path es entry)
      (InsertOutcome v (before ++ es ++ after) (bs' ++ bs) H root entry) (OutOfSpace v) v := by
  obtain ⟨hb, ⟨-, hs, hlen, -⟩, rfl⟩ := htree
  unfold insertLeaf
  by_cases hany : (es.any fun e => e.hash == entry.hash) = true
  · rw [if_pos hany]
    obtain ⟨e, he, heq⟩ := any_eq_true.mp hany
    exact .inl ⟨rfl, rfl, e, by simp [he], beq_iff_eq.mp heq⟩
  rw [if_neg hany]
  have hne : ∀ e ∈ es, e.hash ≠ entry.hash := fun e he heq =>
    hany (any_eq_true.mpr ⟨e, he, beq_iff_eq.mpr heq⟩)
  have hins := inserted_mergeEntry hs.1 hne
  have hs' := hins.sorted hs hlo hhi
  have hlen' := hins.length
  have hne' : mergeEntry entry es ≠ [] := by
    intro hnil
    rw [hnil] at hlen'
    cases hlen'
  have hlohi : lo < hi := hlo.trans_lt hhi
  obtain ⟨hbefore, hafter⟩ := hctx.bounds
  have hins' := hins.around (fun e he => (hbefore e he).trans_le hlo)
    fun e he => hhi.trans_le (hafter e he)
  by_cases hroom : es.length < MAX_LEAF_ENTRIES
  · rw [if_pos hroom, insertIdx_leafInsertPos]
    refine wp_seq (wp_writeFresh hinv _) fun n v' hw => ?_
    obtain ⟨hgrew, hn⟩ := hw
    have hleaf : TreeAt v'.blocks 0 lo hi n (mergeEntry entry es) [n] :=
      ⟨hn, ⟨hlohi, hs', by rw [hlen']; exact hroom, hne'⟩, rfl⟩
    obtain ⟨hctx', hused'⟩ := hctx.grown hgrew hused
    refine wp_seq_mono (wp_fixupPath hgrew.inv hctx' hleaf hused')
      (fun e w he => he.of_grew hgrew) ?_
    rintro ⟨root', frees⟩ w ⟨A, bs₂, hgrew₂, htree₂, hfrees, hperm⟩
    obtain rfl : frees = _ := hfrees
    exact .inr ⟨rfl, _, _, bs₂, H, hins', hctx.cow hgrew hgrew₂ hperm, .inr ⟨top, htree₂⟩,
      Nat.le_succ H⟩
  · rw [if_neg hroom]
    have hfull : (mergeEntry entry es).length = MAX_LEAF_ENTRIES + 1 := by
      rw [hlen']
      omega
    refine wp_seq (wp_splitLeaf hinv rfl hs' hfull) ?_
    rintro ⟨n₁, n₂, k⟩ v' ⟨f₁, f₂, hgrew, hlo', hhi', ht₁, ht₂, he⟩
    obtain ⟨hctx', hused'⟩ := hctx.grown hgrew hused
    refine wp_seq_mono (wp_fixupPathSplit hgrew.inv hctx' hlo' hhi' ht₁ ht₂ hused')
      (fun e w he => he.of_grew hgrew) ?_
    rintro ⟨root', frees⟩ w ⟨A, bs₂, H', hgrew₂, hH, htree₂, hfrees, hperm⟩
    obtain rfl : frees = _ := hfrees
    rw [he] at htree₂
    exact .inr ⟨rfl, _, _, bs₂, H', hins', hctx.cow hgrew hgrew₂ hperm, .inr ⟨top, htree₂⟩, hH⟩

/-- The descent ends at the leaf the hash belongs to, if the tree is not too
deep. -/
theorem wp_insertFrom {levels : Nat} (hinv : v.bm.Inv) (hused : v.Used bs)
    (hs : Search v.blocks H entry.hash path h b es bs) :
    wp (insertFrom root entry levels b path) (InsertOutcome v es bs H root entry)
      (fun e v' => OutOfSpace v e v' ∨ e = .fs .treeTooDeep ∧ v' = v ∧ levels < h) v := by
  induction h generalizing levels b path with
  | zero =>
    obtain ⟨top, lo, hi, before, after, es', bs₁, bs₂, hctx, htree, hlo, hhi, rfl, hperm⟩ := hs
    unfold insertFrom
    rw [wp_bind]
    refine wp_readNode htree.1 (wp_mono (wp_insertLeaf hinv hctx htree hlo hhi (hused.perm hperm))
      (fun r v' hr => hr.imp_right fun hr => ⟨hr.1, ?_⟩) fun e v' he => .inl he)
    obtain ⟨es₂, A, bs₃, H', hins, hcow, hroot, hH⟩ := hr.2
    exact ⟨es₂, A, bs₃, H', hins, hcow.of_perm hperm, hroot, hH⟩
  | succ h ih =>
    unfold insertFrom
    rw [wp_bind]
    obtain ⟨nd, hb, hs⟩ := hs.child
    refine wp_readNode hb ?_
    cases levels with
    | zero => exact .inr ⟨rfl, rfl, Nat.succ_pos h⟩
    | succ levels =>
      refine wp_mono (ih hs) (fun r v' hr => hr) fun e v' he => ?_
      exact he.imp_right fun he => ⟨he.1, he.2.1, Nat.succ_lt_succ he.2.2⟩

/-- **`insert`**: a hash that is there changes nothing, a new one goes to its
place. -/
theorem wp_insert (entry : BTreeEntry) (h : TreeInv v root H es bs) :
    wp (insert root entry) (InsertOutcome v es bs H root entry)
      (fun e v' => OutOfSpace v e v' ∨
        e = .fs .treeTooDeep ∧ v' = v ∧ MAX_TREE_DEPTH - 1 < H) v := by
  unfold insert
  by_cases hroot : root = 0
  · rw [if_pos hroot]
    obtain ⟨rfl, rfl, rfl⟩ := h.tree_empty hroot
    refine wp_seq_mono (wp_writeFresh h.inv _) (fun e v' he => .inl he) ?_
    rintro n v' ⟨hgrew, hn⟩
    refine .inr ⟨rfl, [entry], [n], [n], 0, ⟨[], [], rfl, rfl, by simp, by simp⟩,
      ⟨hgrew, by simp, by simp⟩, .inr ⟨entry.hash + 1, hn, ?_, rfl⟩, Nat.zero_le _⟩
    exact ⟨Nat.succ_pos _, ⟨pairwise_singleton _ _, by simp⟩, Nat.succ_le_of_lt (by decide), by simp⟩
  · rw [if_neg hroot]
    exact wp_insertFrom h.inv h.used (h.search hroot entry.hash)

end NopeekOS.Storage.BTree
