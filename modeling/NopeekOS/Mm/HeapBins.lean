import NopeekOS.Lib.LinkedList
import NopeekOS.Mm.Heap

/-!
# The free lists of the heap

Every bin is a doubly linked list through the words of its nodes. `BinsOk` says
which nodes are on which list; pushing and removing a node change the lists in the
way of lists, and of memory only words of nodes (`LinkWord`). Nodes lie eight bytes
behind a multiple of 16, so the words of different nodes are different.
-/

namespace NopeekOS.Mm

open Lib Function List

/-- The nodes of every bin, in order. -/
abbrev BinLists := Nat → List Nat

/-- Following a bin from its head visits `l`. -/
structure BinAt (mem : Words) (head : Nat) (l : List Nat) : Prop where
  head : head = l.headD 0
  seg : Seg mem (fun n => mem (n + 8)) 0 l 0
  nodup : l.Nodup
  ne_zero : 0 ∉ l

/-- The bins hold the nodes of `lists`. -/
structure BinsOk (mem : Words) (bins : Nat → Nat) (lists : BinLists) : Prop where
  at_ : ∀ i, BinAt mem (bins i) (lists i)
  mod : ∀ i, ∀ n ∈ lists i, n % 16 = 8
  unique : ∀ i j n, n ∈ lists i → n ∈ lists j → i = j

/-- A word that holds a pointer of some list. -/
def LinkWord (lists : BinLists) (w : Nat) : Prop := ∃ i, ∃ n ∈ lists i, w = n ∨ w = n + 8

variable {mem mem' : Words} {bins : Nat → Nat} {lists : BinLists} {head node i : Nat} {l : List Nat}

/-- The list as the library has it; the last node is not kept by the heap. -/
theorem BinAt.linked (h : BinAt mem head l) :
    Linked 0 ⟨head, l.getLastD 0, mem, fun n => mem (n + 8)⟩ l :=
  ⟨h.head, rfl, h.seg, h.nodup, h.ne_zero⟩

theorem BinAt.of_linked {d : Links} (h : Linked 0 d l) (hhead : head = d.head)
    (hprev : ∀ n ∈ l, mem n = d.prev n) (hnext : ∀ n ∈ l, mem (n + 8) = d.next n) :
    BinAt mem head l :=
  ⟨hhead.trans h.head, h.seg.congr hprev hnext, h.nodup, h.nil_notMem⟩

/-- A list depends on the words of its nodes only. -/
theorem BinAt.frame (h : BinAt mem head l)
    (hsame : ∀ n ∈ l, mem' n = mem n ∧ mem' (n + 8) = mem (n + 8)) : BinAt mem' head l :=
  ⟨h.head, h.seg.congr (fun n hn => (hsame n hn).1) fun n hn => (hsame n hn).2, h.nodup, h.ne_zero⟩

theorem BinsOk.frame (h : BinsOk mem bins lists)
    (hsame : ∀ w, LinkWord lists w → mem' w = mem w) : BinsOk mem' bins lists :=
  ⟨fun i => (h.at_ i).frame fun n hn => ⟨hsame n ⟨i, n, hn, .inl rfl⟩, hsame _ ⟨i, n, hn, .inr rfl⟩⟩,
    h.mod, h.unique⟩

/-- The words of nodes are different. -/
theorem BinsOk.ne_add {j n m : Nat} (h : BinsOk mem bins lists) (hn : n ∈ lists i)
    (hm : m ∈ lists j) : n ≠ m + 8 := by
  have := h.mod i n hn
  have := h.mod j m hm
  omega

/-- One list is replaced by `l`, and only words of its nodes and of `node` are written. -/
theorem BinsOk.replace {bins' : Nat → Nat} (h : BinsOk mem bins lists) (hmod : node % 16 = 8)
    (honly : ∀ j, node ∈ lists j → j = i) (hl : l ⊆ node :: lists i)
    (hhere : BinAt mem' (bins' i) l) (hbins : ∀ j ≠ i, bins' j = bins j)
    (hsame : ∀ w, (∀ n ∈ node :: lists i, w ≠ n ∧ w ≠ n + 8) → mem' w = mem w) :
    BinsOk mem' bins' (update lists i l) := by
  have hnode (n : Nat) (hn : n ∈ node :: lists i) : n % 16 = 8 ∧ ∀ j, n ∈ lists j → j = i := by
    rcases mem_cons.mp hn with rfl | hn
    · exact ⟨hmod, honly⟩
    · exact ⟨h.mod i n hn, fun j hj => h.unique j i n hj hn⟩
  have hold {j n : Nat} (hn : n ∈ update lists i l j) : j = i ∧ n ∈ l ∨ j ≠ i ∧ n ∈ lists j := by
    by_cases hj : j = i
    · subst hj
      rw [update_self] at hn
      exact .inl ⟨rfl, hn⟩
    · rw [update_of_ne hj] at hn
      exact .inr ⟨hj, hn⟩
  refine ⟨fun j => ?_, fun j n hn => ?_, fun j k n hj hk => ?_⟩
  · by_cases hj : j = i
    · subst hj
      rwa [update_self]
    · rw [update_of_ne hj, hbins j hj]
      -- Nodes are 16 bytes apart, so another list has other words.
      have hother (n : Nat) (hn : n ∈ lists j) (m : Nat) (hm : m ∈ node :: lists i) :
          n ≠ m ∧ n % 16 = 8 ∧ m % 16 = 8 := by
        refine ⟨?_, h.mod j n hn, (hnode m hm).1⟩
        rintro rfl
        exact hj ((hnode n hm).2 j hn)
      refine (h.at_ j).frame fun n hn => ⟨hsame n fun m hm => ?_, hsame _ fun m hm => ?_⟩
      · have := hother n hn m hm
        omega
      · have := hother n hn m hm
        omega
  · rcases hold hn with ⟨-, hn⟩ | ⟨-, hn⟩
    · exact (hnode n (hl hn)).1
    · exact h.mod j n hn
  · rcases hold hj with ⟨rfl, hj'⟩ | ⟨-, hj'⟩ <;> rcases hold hk with ⟨rfl, hk'⟩ | ⟨-, hk'⟩
    · rfl
    · exact ((hnode n (hl hj')).2 k hk').symm
    · exact (hnode n (hl hk')).2 j hj'
    · exact h.unique j k n hj' hk'

theorem BinAt.head_mem (h : BinAt mem head l) (hne : head ≠ 0) : head ∈ l := by
  rw [h.head] at hne ⊢
  exact headD_mem hne

/-- The neighbours of a node on its list. -/
theorem BinAt.neighbours (h : BinAt mem head l) (hn : node ∈ l) :
    (mem node = 0 ∨ mem node ∈ l) ∧ (mem (node + 8) = 0 ∨ mem (node + 8) ∈ l) := by
  obtain ⟨xs, ys, rfl⟩ := append_of_mem hn
  have hprev : mem node = xs.getLastD 0 := h.linked.prev_eq
  have hnext : mem (node + 8) = ys.headD 0 := h.linked.next_eq
  rw [hprev, hnext]
  constructor
  · by_cases hz : xs.getLastD 0 = 0
    · exact .inl hz
    · exact .inr (mem_append_left _ (getLastD_mem hz))
  · by_cases hz : ys.headD 0 = 0
    · exact .inl hz
    · exact .inr (mem_append_right _ (mem_cons_of_mem _ (headD_mem hz)))

namespace Heap

variable {h : Heap} {block size : Nat}

section

variable (hb : BinsOk h.mem h.bins lists)

include hb

/-- Of memory `bin_remove` changes words of nodes of the list only. -/
theorem binRemove_mem (hn : block + TAG ∈ lists (binOf size)) {w : Nat}
    (hw : ∀ n ∈ lists (binOf size), w ≠ n ∧ w ≠ n + 8) :
    (h.binRemove block size).mem w = h.mem w := by
  obtain ⟨hp, hq⟩ := (hb.at_ (binOf size)).neighbours hn
  have hprev (hz : h.mem (block + TAG) ≠ 0) := (hw _ (hp.resolve_left hz)).2
  have hnext (hz : h.mem (block + TAG + 8) ≠ 0) := (hw _ (hq.resolve_left hz)).1
  simp only [binRemove]
  split_ifs with h₁ h₂ h₂
  · rfl
  · exact update_of_ne (hprev h₂) ..
  · exact update_of_ne (hnext h₁) ..
  · rw [update_of_ne (hnext h₁), update_of_ne (hprev h₂)]

/-- **`bin_remove`** takes the node off its list. -/
theorem binsOk_binRemove (hn : block + TAG ∈ lists (binOf size)) :
    BinsOk (h.binRemove block size).mem (h.binRemove block size).bins
      (update lists (binOf size) ((lists (binOf size)).erase (block + TAG))) := by
  set b := binOf size with hbin
  set node := block + TAG with hnode
  obtain ⟨xs, ys, hsplit⟩ := append_of_mem hn
  have hat := hb.at_ b
  have hnodup := hat.nodup
  rw [hsplit] at hat hnodup
  have hnot : node ∉ xs := fun hx => (nodup_append.mp hnodup).2.2 node hx node (by simp) rfl
  have herase : (lists b).erase node = xs ++ ys := by
    rw [hsplit, erase_append_right _ hnot, erase_cons_head]
  have hsub (n : Nat) (hnm : n ∈ xs ++ ys) : n ∈ lists b := by
    rw [hsplit]
    rcases mem_append.mp hnm with hx | hy
    · exact mem_append_left _ hx
    · exact mem_append_right _ (mem_cons_of_mem _ hy)
  obtain ⟨hp, hq⟩ := (hb.at_ b).neighbours hn
  rw [herase]
  refine hb.replace (hb.mod b node hn) (fun j hj => hb.unique j b node hj hn)
    (fun n hnm => mem_cons_of_mem _ (hsub n hnm))
    (BinAt.of_linked hat.linked.unlink ?_ (fun n hnm => ?_) fun n hnm => ?_) (fun j hj => ?_)
    fun w hw => binRemove_mem hb hn (forall_mem_cons.mp hw).2
  · simp only [binRemove, Links.unlink, ← hnode, ← hbin]
    split_ifs
    · exact update_self ..
    · rfl
  · have hne (hz : h.mem node ≠ 0) := hb.ne_add (hsub n hnm) (hp.resolve_left hz)
    simp only [binRemove, Links.unlink, ← hnode]
    split_ifs <;> simp_all [update_apply]
  · have hne (hz : h.mem (node + 8) ≠ 0) := (hb.ne_add (hq.resolve_left hz) (hsub n hnm)).symm
    simp only [binRemove, Links.unlink, ← hnode]
    split_ifs <;> simp_all [update_apply]
  · simp only [binRemove]
    split_ifs
    · exact update_of_ne hj ..
    · rfl

/-- Of memory `bin_push` changes the words of the node, and words of nodes of the list. -/
theorem binPush_mem {w : Nat} (hw : ∀ n ∈ (block + TAG) :: lists (binOf size), w ≠ n ∧ w ≠ n + 8) :
    (h.binPush block size).mem w = h.mem w := by
  obtain ⟨⟨h₁, h₂⟩, hlist⟩ := forall_mem_cons.mp hw
  simp only [binPush]
  split_ifs with hz
  · rw [update_of_ne (hlist _ ((hb.at_ _).head_mem hz)).1, update_of_ne h₂, update_of_ne h₁]
  · rw [update_of_ne h₂, update_of_ne h₁]

/-- **`bin_push`** puts a node in front of the list of its size. -/
theorem binsOk_binPush (hmod : block % 16 = 0) (hnew : ∀ i, block + TAG ∉ lists i) :
    BinsOk (h.binPush block size).mem (h.binPush block size).bins
      (update lists (binOf size) ((block + TAG) :: lists (binOf size))) := by
  set b := binOf size with hbin
  set node := block + TAG with hnode
  have hnmod : node % 16 = 8 := by
    show (block + 8) % 16 = 8
    omega
  have hat := hb.at_ b
  have hmods (n : Nat) (hn : n ∈ node :: lists b) : n % 16 = 8 :=
    (mem_cons.mp hn).elim (fun heq => heq ▸ hnmod) (hb.mod _ n)
  refine hb.replace hnmod (fun j hj => absurd hj (hnew j)) (Subset.refl _)
    (BinAt.of_linked (hat.linked.pushFront (hnew _) (by omega)) (update_self ..) (fun n hn => ?_)
      fun n hn => ?_) (fun j hj => update_of_ne hj ..) fun w hw => binPush_mem hb hw
  · have hnm := hmods n hn
    have hne : n ≠ node + 8 := by omega
    simp only [binPush, Links.pushFront, ← hnode, ← hbin]
    split_ifs <;> simp_all [update_apply]
  · have hnm := hmods n hn
    have hne (hz : h.bins b ≠ 0) : n + 8 ≠ h.bins b := by
      have := hb.mod b _ (hat.head_mem hz)
      omega
    have hcell : n + 8 ≠ node := by omega
    simp only [binPush, Links.pushFront, ← hnode, ← hbin]
    split_ifs with hz
    · simp [update_apply, hne hz, hcell]
    · simp [update_apply, hcell]

end

end Heap

end NopeekOS.Mm
