import NopeekOS.Storage.BTreeInsert

/-!
# What a B-tree call costs

Two bounds that need no tree: how many blocks a call takes, whatever it finds on
the volume, and that the keys it writes are among those it reads or was given.
`Costs K n x φ` says so of a computation: started with `n` blocks to spare and no
key above `K` on the volume it does not run out of space, takes no more than `n`
blocks, leaves no key above `K`, and returns a value with `φ` or fails.
-/

namespace NopeekOS.Storage.BTree

open Lib FaultState List
open Nat (zero_le)

/-- No key of the node, in use or left over, is above `K`. -/
def KeysLe (K : Nat) : Node → Prop
  | .leaf entries => ∀ e ∈ entries, e.hash ≤ K
  | .internal nd => ∀ s ∈ nd.slots, s.1 ≤ K

/-- A volume with `n` blocks to spare and no key above `K`. -/
structure Bounded (K n : Nat) (v : Vol) : Prop where
  inv : v.bm.Inv
  space : n ≤ v.bm.freeCount
  keys : ∀ b n, v.blocks b = .node n → KeysLe K n

/-- The cost of a computation, in blocks. -/
def Costs {α : Type} (K n : Nat) (x : FsM α) (φ : α → Prop) : Prop :=
  ∀ m v, Bounded K (m + n) v →
    wp x (fun a v' => Bounded K m v' ∧ φ a) (fun e v' => Bounded K m v' ∧ e ≠ .fs .diskFull) v

variable {α β : Type} {K n n' : Nat} {φ : α → Prop} {ψ : β → Prop} {new : BTreeEntry}

theorem Bounded.mono {K' : Nat} {v : Vol} (h : Bounded K n v) (hK : K ≤ K') (hn : n' ≤ n) :
    Bounded K' n' v where
  inv := h.inv
  space := hn.trans h.space
  keys := by
    intro b c hb
    have := h.keys b c hb
    cases c with
    | leaf es => exact fun e he => (this e he).trans hK
    | internal nd => exact fun s hs => (this s hs).trans hK

/-! ## Rules -/

theorem Costs.pure {a : α} (h : φ a) : Costs K 0 (Pure.pure a : FsM α) φ :=
  fun _ _ hv => ⟨hv, h⟩

theorem Costs.fault {e : Fault} (h : e ≠ .fs .diskFull) :
    Costs K 0 (FaultState.fault e : FsM α) φ :=
  fun _ _ hv => ⟨hv, h⟩

variable {x : FsM α}

theorem Costs.bind {f : α → FsM β} (hx : Costs K n x φ) (hf : ∀ a, φ a → Costs K n' (f a) ψ) :
    Costs K (n' + n) (x >>= f) ψ := by
  intro m v hv
  rw [← Nat.add_assoc] at hv
  exact wp_seq_mono (hx (m + n') v hv)
    (fun e v' he => ⟨he.1.mono (Nat.le_refl K) (Nat.le_add_right m n'), he.2⟩)
    fun a v' ha => hf a ha.2 m v' ha.1

theorem Costs.le (hx : Costs K n x φ) (hn : n ≤ n') : Costs K n' x φ :=
  fun m v hv => hx m v ⟨hv.inv, (Nat.add_le_add_left hn m).trans hv.space, hv.keys⟩

theorem Costs.ite {c : Prop} [Decidable c] {y : FsM α} (hx : c → Costs K n x φ)
    (hy : ¬ c → Costs K n y φ) : Costs K n (if c then x else y) φ := by
  by_cases h : c
  · rw [if_pos h]
    exact hx h
  · rw [if_neg h]
    exact hy h

section

variable {m : Nat} {v v' : Vol} (hx : Costs K n x φ) (hv : Bounded K (m + n) v)

include hx hv

/-- A call with blocks to spare does not run out of space, and takes no more than its cost. -/
theorem Costs.result {r : Except Fault α} (hrun : x v = (r, v')) :
    r ≠ .error (.fs .diskFull) ∧ Bounded K m v' := by
  cases r with
  | ok a => exact ⟨nofun, (of_wp_ok (hx m v hv) hrun).1⟩
  | error e =>
    obtain ⟨hb, hspace⟩ := of_wp_error (hx m v hv) hrun
    exact ⟨fun h => hspace (Except.error.inj h), hb⟩

/-- It ends as its postconditions say. -/
theorem Costs.ends {Q : α → Vol → Prop} {E : Fault → Vol → Prop} (h : wp x Q E v) :
    (∃ a v', x v = (.ok a, v') ∧ Q a v' ∧ Bounded K m v') ∨
      ∃ e v', x v = (.error e, v') ∧ E e v' ∧ e ≠ .fs .diskFull := by
  rcases hrun : x v with ⟨e | a, v'⟩
  · have hspace := (hx.result hv hrun).1
    exact .inr ⟨e, v', rfl, of_wp_error h hrun, fun he => hspace (he ▸ rfl)⟩
  · exact .inl ⟨a, v', rfl, of_wp_ok h hrun, (hx.result hv hrun).2⟩

end

/-! ## Blocks and nodes -/

theorem costs_allocBlock : Costs K 1 allocBlock fun _ => True := by
  intro m v hv
  unfold wp allocBlock
  obtain ⟨⟨b, bm⟩, h⟩ := Bitmap.alloc_one hv.inv (Nat.lt_of_lt_of_le (Nat.succ_pos m) hv.space)
  rw [h]
  obtain ⟨-, -, hlo, hhi, hfree, rfl⟩ := Bitmap.alloc_ok hv.inv h
  refine ⟨⟨hv.inv.takeRun hlo hhi hfree, ?_, hv.keys⟩, trivial⟩
  exact Nat.le_sub_of_add_le hv.space

variable (block : Nat)

theorem costs_readNode : Costs K 0 (readNode block) (KeysLe K) := by
  intro m v hv
  unfold wp readNode
  cases h : v.blocks block with
  | node n => exact ⟨hv, hv.keys block n h⟩
  | other => exact ⟨hv, nofun⟩

theorem costs_writeNode {n : Node} (hn : KeysLe K n) :
    Costs K 0 (writeNode block n) fun _ => True := by
  intro m v hv
  refine ⟨⟨hv.inv, hv.space, fun b c hb => ?_⟩, trivial⟩
  by_cases heq : b = block
  · subst heq
    have : Content.node n = .node c := (Function.update_self ..).symm.trans hb
    cases this
    exact hn
  · exact hv.keys b c ((Function.update_of_ne heq ..).symm.trans hb)

theorem costs_writeFresh {n : Node} (hn : KeysLe K n) : Costs K 1 (writeFresh n) fun _ => True :=
  costs_allocBlock.bind fun b _ => (costs_writeNode b hn).bind fun _ _ => .pure trivial

theorem costs_readInternal : Costs K 0 (readInternal block) fun nd => ∀ s ∈ nd.slots, s.1 ≤ K := by
  refine (costs_readNode block).bind fun n hn => ?_
  cases n with
  | leaf _ => exact .fault (by simp)
  | internal nd => exact .pure hn

/-! ## The way back up -/

variable {nd : Internal} {key : Hash}

theorem keysLe_modify {slots : List (Hash × Nat)} (h : ∀ s ∈ slots, s.1 ≤ K) (i c : Nat) :
    ∀ s ∈ slots.modify i (fun slot => (slot.1, c)), s.1 ≤ K := by
  intro s hs
  obtain ⟨j, hj⟩ := mem_iff_getElem?.mp hs
  rw [getElem?_modify] at hj
  cases hslot : slots[j]? with
  | none =>
    rw [hslot] at hj
    cases hj
  | some t =>
    rw [hslot] at hj
    have ht := h t (mem_of_getElem? hslot)
    obtain rfl : (if i = j then (t.1, c) else t) = s := Option.some.inj hj
    split_ifs <;> exact ht

theorem keysLe_setChild (h : ∀ s ∈ nd.slots, s.1 ≤ K) (idx c : Nat) :
    KeysLe K (.internal (setChild nd idx c)) := by
  unfold setChild
  split_ifs
  · exact keysLe_modify h idx c
  · exact h

theorem costs_fixupPath (path : List (Nat × Nat)) (c : Nat) (old : List Nat) :
    Costs K path.length (fixupPath path c old) fun _ => True := by
  induction path generalizing c old with
  | nil => exact .pure trivial
  | cons p path ih =>
    exact (costs_readInternal p.1).bind fun nd hnd =>
      (costs_writeFresh (keysLe_setChild hnd p.2 c)).bind fun b _ => ih b _

section

variable {slots : List (Hash × Nat)} (h : ∀ s ∈ slots, s.1 ≤ K)

include h

theorem keysLe_set (hkey : key ≤ K) (i c : Nat) : ∀ s ∈ slots.set i (key, c), s.1 ≤ K := by
  intro s hs
  rcases mem_or_eq_of_mem_set hs with hs | rfl
  · exact h s hs
  · exact hkey

/-- Moving a part of the slots brings in no other. -/
theorem keysLe_moved (i j k l : Nat) :
    ∀ s ∈ slots.take i ++ (slots.take j).drop k ++ slots.drop l, s.1 ≤ K := by
  refine forall_mem_append.mpr ⟨forall_mem_append.mpr ⟨fun s hs => ?_, fun s hs => ?_⟩,
    fun s hs => h s (mem_of_mem_drop hs)⟩
  · exact h s (mem_of_mem_take hs)
  · exact h s (mem_of_mem_take (mem_of_mem_drop hs))

end

theorem keysLe_freshInternal {entries : List (Hash × Nat)} (h : ∀ s ∈ entries, s.1 ≤ K)
    (right : Nat) : KeysLe K (.internal (freshInternal entries right)) := by
  refine forall_mem_append.mpr ⟨h, fun s hs => ?_⟩
  rw [eq_of_mem_replicate hs]
  exact zero_le K

theorem keysLe_mergeKey (hkey : key ≤ K) (left : Nat) :
    ∀ {L : List (Hash × Nat)}, (∀ s ∈ L, s.1 ≤ K) → ∀ s ∈ mergeKey key left L, s.1 ≤ K
  | [], _ => forall_mem_singleton.mpr hkey
  | t :: L, h => by
    obtain ⟨ht, hL⟩ := forall_mem_cons.mp h
    unfold mergeKey
    split_ifs
    · exact forall_mem_cons.mpr ⟨hkey, h⟩
    · exact forall_mem_cons.mpr ⟨ht, keysLe_mergeKey hkey left hL⟩

section

variable (h : ∀ s ∈ nd.slots, s.1 ≤ K) (hkey : key ≤ K) (left right : Nat)

include h hkey left right

theorem keysLe_insertSplit : KeysLe K (.internal (insertSplit nd left right key)) := by
  unfold insertSplit
  simp only []
  split_ifs
  · exact keysLe_set h hkey _ _
  -- the shifted slots are among the old ones
  exact keysLe_modify (keysLe_set (keysLe_moved h _ _ _ _) hkey _ _) _ _

theorem keysLe_splitEntries : ∀ s ∈ (splitEntries nd key left right).1, s.1 ≤ K := by
  have htake : ∀ s ∈ nd.slots.take nd.count, s.1 ≤ K := fun s hs => h s (mem_of_mem_take hs)
  have hmerge := keysLe_mergeKey hkey left htake
  unfold splitEntries
  simp only []
  split_ifs
  · exact hmerge
  · exact keysLe_modify hmerge _ _

theorem costs_splitInternal : Costs K 2 (splitInternal nd key left right) fun r => r.2.2 ≤ K := by
  have hs := keysLe_splitEntries h hkey left right
  unfold splitInternal
  generalize splitEntries nd key left right = split at hs ⊢
  obtain ⟨entries, rightmost⟩ := split
  have hpromoted : (entries.getD (entries.length / 2) (0, 0)).1 ≤ K := by
    rw [getD_eq_getElem?_getD]
    cases hget : entries[entries.length / 2]? with
    | none => exact zero_le K
    | some s => exact hs s (mem_of_getElem? hget)
  refine costs_allocBlock.bind fun l _ => costs_allocBlock.bind fun r _ => ?_
  refine (costs_writeNode l (keysLe_freshInternal (fun s h => hs s (mem_of_mem_take h)) _)).bind
    fun _ _ => ?_
  refine (costs_writeNode r (keysLe_freshInternal (fun s h => hs s (mem_of_mem_drop h)) _)).bind
    fun _ _ => ?_
  exact .pure hpromoted

end

variable (path : List (Nat × Nat))

theorem costs_fixupPathSplit (left right : Nat) (hkey : key ≤ K) (old : List Nat) :
    Costs K (2 * path.length + 1) (fixupPathSplit path left right key old) fun _ => True := by
  induction path generalizing left right key old with
  | nil =>
    exact (costs_writeFresh (keysLe_freshInternal (forall_mem_singleton.mpr hkey) right)).bind
      fun _ _ => .pure trivial
  | cons p path ih =>
    have hlen : 2 * (p :: path).length + 1 = 2 * path.length + 3 := by
      rw [length_cons]
      omega
    rw [hlen]
    refine (costs_readInternal p.1).bind fun nd hnd => ?_
    refine .ite (fun _ => ?_) fun _ => ?_
    · refine Costs.le ((costs_writeFresh (keysLe_insertSplit hnd hkey left right)).bind fun b _ =>
        costs_fixupPath path b _) (by omega)
    · exact (costs_splitInternal hnd hkey left right).bind fun r hr => ih r.1 r.2.1 hr _

/-! ## Insert -/

variable {es : List BTreeEntry}

theorem keysLe_mergeEntry (hnew : new.hash ≤ K) (h : ∀ e ∈ es, e.hash ≤ K) :
    ∀ e ∈ mergeEntry new es, e.hash ≤ K := by
  rw [← insertIdx_leafInsertPos]
  intro e he
  rcases eq_or_mem_of_mem_insertIdx he with rfl | he
  · exact hnew
  · exact h e he

theorem costs_splitLeaf (hnew : new.hash ≤ K) (h : ∀ e ∈ es, e.hash ≤ K) :
    Costs K 2 (splitLeaf es new) fun r => r.2.2 ≤ K := by
  have hall := keysLe_mergeEntry hnew h
  unfold splitLeaf
  generalize mergeEntry new es = all at hall ⊢
  have hkey : ((all.drop (all.length / 2)).map BTreeEntry.hash).headD 0 ≤ K := by
    cases hdrop : all.drop (all.length / 2) with
    | nil => exact zero_le K
    | cons e rest =>
      exact hall e (mem_of_mem_drop (hdrop ▸ mem_cons_self))
  have hl : KeysLe K (.leaf (all.take (all.length / 2))) := fun e he =>
    hall e (mem_of_mem_take he)
  have hr : KeysLe K (.leaf (all.drop (all.length / 2))) := fun e he =>
    hall e (mem_of_mem_drop he)
  exact costs_allocBlock.bind fun l _ => costs_allocBlock.bind fun r _ =>
    (costs_writeNode l hl).bind fun _ _ => (costs_writeNode r hr).bind fun _ _ => .pure hkey

variable {entry : BTreeEntry}

theorem costs_insertLeaf (root block : Nat) (path : List (Nat × Nat)) (hnew : entry.hash ≤ K)
    (h : ∀ e ∈ es, e.hash ≤ K) :
    Costs K (2 * path.length + 3) (insertLeaf root block path es entry) fun _ => True := by
  have hmerge : KeysLe K (.leaf (mergeEntry entry es)) := keysLe_mergeEntry hnew h
  unfold insertLeaf
  rw [insertIdx_leafInsertPos]
  refine .ite (fun _ => Costs.le (.pure trivial) (zero_le _)) fun _ => ?_
  refine .ite (fun _ => ?_) fun _ => ?_
  · refine Costs.le ((costs_writeFresh hmerge).bind fun b _ =>
      (costs_fixupPath path b _).bind fun _ _ => .pure trivial) (by omega)
  · refine (costs_splitLeaf hnew h).bind fun ⟨left, right, splitKey⟩ hr => ?_
    refine Costs.le ((costs_fixupPathSplit path left right hr _).bind fun _ _ => .pure trivial) ?_
    omega

theorem costs_insertFrom (root : Nat) (hnew : entry.hash ≤ K) (levels block : Nat)
    (path : List (Nat × Nat)) :
    Costs K (2 * (path.length + levels) + 3) (insertFrom root entry levels block path)
      fun _ => True := by
  induction levels generalizing block path with
  | zero =>
    rw [insertFrom]
    refine (costs_readNode block).bind fun n hn => ?_
    cases n with
    | leaf es => exact costs_insertLeaf root block path hnew hn
    | internal nd => exact Costs.le (.fault (by simp)) (zero_le _)
  | succ levels ih =>
    rw [insertFrom]
    refine (costs_readNode block).bind fun n hn => ?_
    cases n with
    | leaf es => exact (costs_insertLeaf root block path hnew hn).le (by omega)
    | internal nd =>
      refine (ih (nd.findChildWithIdx entry.hash).2
        ((block, (nd.findChildWithIdx entry.hash).1) :: path)).le ?_
      rw [length_cons]
      omega

/-- **The cost of `insert`**: at most 17 blocks. -/
theorem costs_insert (root : Nat) (hnew : entry.hash ≤ K) :
    Costs K 17 (insert root entry) fun _ => True := by
  unfold insert
  refine .ite (fun _ => ?_) fun _ => ?_
  · refine Costs.le ((costs_writeFresh (n := .leaf [entry]) ?_).bind fun _ _ => .pure trivial)
      (by omega)
    exact forall_mem_singleton.mpr hnew
  · exact costs_insertFrom root hnew (MAX_TREE_DEPTH - 1) root []

/-! ## Delete -/

variable {checks : Bool}

theorem costs_decEntries (n : Nat) : Costs K 0 (decEntries checks n) fun _ => True :=
  .ite (fun _ => .ite (fun _ => .fault (by simp)) fun _ => .pure trivial) fun _ => .pure trivial

theorem costs_lastChild : Costs K 0 (lastChild checks nd) fun _ => True :=
  .ite (fun _ => .ite (fun _ => .fault (by simp)) fun _ => .pure trivial) fun _ => .pure trivial

theorem costs_removeChild (h : ∀ s ∈ nd.slots, s.1 ≤ K) (idx : Nat) :
    Costs K 0 (removeChild checks nd idx) fun nd' => ∀ s ∈ nd'.slots, s.1 ≤ K := by
  unfold removeChild
  refine .ite (fun _ => ?_) fun _ => ?_
  · exact (costs_decEntries _).bind fun _ _ => .pure (keysLe_moved h _ _ _ _)
  · exact costs_lastChild.bind fun _ _ => (costs_decEntries _).bind fun _ _ => .pure h

theorem costs_removeFromParent (old : List Nat) :
    Costs K path.length (removeFromParent checks path old) fun _ => True := by
  cases path with
  | nil => exact .pure trivial
  | cons p path =>
    refine (costs_readInternal p.1).bind fun nd hnd => ?_
    refine .ite (fun _ => Costs.le (.pure trivial) (zero_le _)) fun _ => ?_
    refine costs_allocBlock.bind fun b _ => (costs_removeChild hnd p.2).bind fun nd' hnd' => ?_
    have hkeys : KeysLe K (.internal nd') := hnd'
    exact (costs_writeNode b hkeys).bind fun _ _ => costs_fixupPath path b _

theorem costs_deleteLeaf (block : Nat) (path : List (Nat × Nat)) (h : ∀ e ∈ es, e.hash ≤ K) :
    Costs K (path.length + 1) (deleteLeaf checks block path es key) fun _ => True := by
  unfold deleteLeaf
  split
  · exact Costs.le (.fault (by simp)) (zero_le _)
  refine .ite (fun _ => (costs_removeFromParent path _).le (Nat.le_succ _)) fun _ => ?_
  have hkeys : ∀ pos, KeysLe K (.leaf (es.eraseIdx pos)) := fun pos e he =>
    h e (mem_of_mem_eraseIdx he)
  refine (costs_writeFresh (hkeys _)).bind fun b _ => ?_
  exact .ite (fun _ => Costs.le (.pure trivial) (zero_le _)) fun _ => costs_fixupPath path b _

theorem costs_deleteFrom (levels block : Nat) (path : List (Nat × Nat)) :
    Costs K (path.length + levels + 1) (deleteFrom checks key levels block path)
      fun _ => True := by
  induction levels generalizing block path with
  | zero =>
    rw [deleteFrom]
    refine (costs_readNode block).bind fun n hn => ?_
    cases n with
    | leaf es => exact costs_deleteLeaf block path hn
    | internal nd => exact Costs.le (.fault (by simp)) (zero_le _)
  | succ levels ih =>
    rw [deleteFrom]
    refine (costs_readNode block).bind fun n hn => ?_
    cases n with
    | leaf es => exact (costs_deleteLeaf block path hn).le (by omega)
    | internal nd =>
      refine (ih (nd.findChildWithIdx key).2
        ((block, (nd.findChildWithIdx key).1) :: path)).le ?_
      rw [length_cons]
      omega

/-- **The cost of `delete`**: at most 8 blocks. -/
theorem costs_delete (checks : Bool) (key : Hash) (root : Nat) :
    Costs K 8 (delete checks root key) fun _ => True := by
  unfold delete
  refine .ite (fun _ => Costs.le (.fault (by simp)) (zero_le _)) fun _ => ?_
  exact costs_deleteFrom (MAX_TREE_DEPTH - 1) root []

end NopeekOS.Storage.BTree
