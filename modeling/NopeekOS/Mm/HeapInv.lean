import NopeekOS.Mm.HeapLayout

/-!
# The invariant of the heap

`HeapInv h rs`: the memory of `h` holds the regions `rs`. The parts of an operation
are specified on the way: lists (`Binned`), tags (`setTags`), and at the end the
replacement of the blocks at one place (`HeapInv.retile`).
-/

namespace NopeekOS.Mm

open Lib Function Zipper List

/-- A node of a bin: eight bytes into a free block of that size. -/
def FreeNode (bs : List Block) (i n : Nat) : Prop :=
  ∃ b ∈ bs, b.use = none ∧ n = b.start + 8 ∧ i = binOf b.size

/-- The bins hold exactly the free blocks of `bs`, each once and in the bin of its
size. -/
def Binned (mem : Words) (bins : Nat → Nat) (bs : List Block) : Prop :=
  ∃ lists, BinsOk mem bins lists ∧ ∀ i n, n ∈ lists i ↔ FreeNode bs i n

/-- A word that holds a list pointer of some block. -/
def LinkOf (bs : List Block) (w : Nat) : Prop := ∃ b ∈ bs, b.Link w

/-- The bytes of the allocated blocks. -/
def usedBytes (bs : List Block) : Nat := (bs.map fun b => if b.use.isSome then b.size else 0).sum

/-- What holds between any two calls. -/
structure HeapInv (h : Heap) (rs : List Region) : Prop where
  regions : h.regions = rs.map fun r => (r.base, r.last)
  total : h.totalSize = (rs.map fun r => r.last - r.base).sum
  layout : RegionsOk rs
  sentinels : ∀ r ∈ rs, r.Sentinels h.mem
  blocks : ∀ b ∈ blocksOf rs, b.At h.mem
  bins : Binned h.mem h.bins (blocksOf rs)
  bytes : h.allocatedBytes = usedBytes (blocksOf rs)

/-! ## Bins and blocks -/

section

variable {mem mem' : Words} {bins : Nat → Nat} {bs cs : List Block}

theorem linkWord_iff {lists : BinLists} (hfree : ∀ i n, n ∈ lists i ↔ FreeNode bs i n) (w : Nat) :
    LinkWord lists w ↔ LinkOf bs w := by
  constructor
  · rintro ⟨i, n, hn, hw⟩
    obtain ⟨b, hb, huse, rfl, -⟩ := (hfree i n).mp hn
    exact ⟨b, hb, huse, hw.imp id fun hw => by omega⟩
  · rintro ⟨b, hb, huse, hw⟩
    refine ⟨binOf b.size, b.start + 8, (hfree _ _).mpr ⟨b, hb, huse, rfl, rfl⟩, ?_⟩
    exact hw.imp id fun hw => by omega

section

variable (h : Binned mem bins bs)

include h

theorem Binned.frame (hsame : ∀ w, LinkOf bs w → mem' w = mem w) : Binned mem' bins bs := by
  obtain ⟨lists, hok, hfree⟩ := h
  exact ⟨lists, hok.frame fun w hw => hsame w ((linkWord_iff hfree w).mp hw), hfree⟩

/-- Only the free blocks count. -/
theorem Binned.congr (hsame : ∀ b, b.use = none → (b ∈ bs ↔ b ∈ cs)) : Binned mem bins cs := by
  obtain ⟨lists, hok, hfree⟩ := h
  refine ⟨lists, hok, fun i n => (hfree i n).trans ?_⟩
  constructor
  · rintro ⟨b, hb, huse, hn⟩
    exact ⟨b, (hsame b huse).mp hb, huse, hn⟩
  · rintro ⟨b, hb, huse, hn⟩
    exact ⟨b, (hsame b huse).mpr hb, huse, hn⟩

/-- An allocated block is on no list. -/
theorem Binned.used {b : Block} (huse : b.use ≠ none) : Binned mem bins (b :: bs) := by
  refine h.congr fun c hc => ?_
  have hne : c ≠ b := fun heq => huse (heq ▸ hc)
  simp [hne]

end

namespace Heap

variable {h : Heap} {b : Block}

/-- Taking a free block off its list. -/
theorem binned_binRemove (hb : Binned h.mem h.bins (b :: bs)) (huse : b.use = none)
    (hnew : ¬ LinkOf bs (b.start + 8)) :
    Binned (h.binRemove b.start b.size).mem (h.binRemove b.start b.size).bins bs ∧
      ∀ w, ¬ LinkOf (b :: bs) w → (h.binRemove b.start b.size).mem w = h.mem w := by
  obtain ⟨lists, hok, hfree⟩ := hb
  have hn : b.start + TAG ∈ lists (binOf b.size) :=
    (hfree _ _).mpr ⟨b, mem_cons_self, huse, rfl, rfl⟩
  refine ⟨⟨_, binsOk_binRemove hok hn, fun i n => ?_⟩, fun w hw => ?_⟩
  · have hmem : n ∈ update lists (binOf b.size)
        ((lists (binOf b.size)).erase (b.start + TAG)) i ↔ n ∈ lists i ∧ n ≠ b.start + TAG := by
      by_cases hi : i = binOf b.size
      · subst hi
        rw [update_self, (hok.at_ _).nodup.mem_erase_iff, and_comm]
      rw [update_of_ne hi]
      refine ⟨fun h => ⟨h, ?_⟩, And.left⟩
      rintro rfl
      exact hi (hok.unique _ _ _ h hn)
    rw [hmem, hfree]
    constructor
    · rintro ⟨⟨c, hc, hcuse, rfl, rfl⟩, hne⟩
      rcases mem_cons.mp hc with rfl | hc
      · exact absurd rfl hne
      · exact ⟨c, hc, hcuse, rfl, rfl⟩
    · rintro ⟨c, hc, hcuse, rfl, rfl⟩
      exact ⟨⟨c, mem_cons_of_mem _ hc, hcuse, rfl, rfl⟩,
        fun heq => hnew ⟨c, hc, hcuse, .inl heq.symm⟩⟩
  · refine binRemove_mem hok hn fun n hnm => not_or.mp fun heq => hw ?_
    exact (linkWord_iff hfree w).mp ⟨_, n, hnm, heq⟩

/-- Putting a new free block on its list. -/
theorem binned_binPush (hb : Binned h.mem h.bins bs) (huse : b.use = none)
    (hmod : b.start % 16 = 0) (hnew : ¬ LinkOf bs (b.start + 8)) :
    Binned (h.binPush b.start b.size).mem (h.binPush b.start b.size).bins (b :: bs) ∧
      ∀ w, w ≠ b.start + 8 → w ≠ b.start + 16 → ¬ LinkOf bs w →
        (h.binPush b.start b.size).mem w = h.mem w := by
  obtain ⟨lists, hok, hfree⟩ := hb
  have hfresh (i : Nat) : b.start + TAG ∉ lists i := by
    intro hn
    obtain ⟨c, hc, hcuse, hstart, -⟩ := (hfree _ _).mp hn
    exact hnew ⟨c, hc, hcuse, .inl hstart⟩
  refine ⟨⟨_, binsOk_binPush hok hmod hfresh, fun i n => ?_⟩, fun w h₁ h₂ hw => ?_⟩
  · have hmem : n ∈ update lists (binOf b.size)
        ((b.start + TAG) :: lists (binOf b.size)) i ↔
          n ∈ lists i ∨ n = b.start + TAG ∧ i = binOf b.size := by
      by_cases hi : i = binOf b.size
      · subst hi
        rw [update_self, mem_cons]
        tauto
      · rw [update_of_ne hi]
        tauto
    rw [hmem, hfree]
    constructor
    · rintro (⟨c, hc, hrest⟩ | ⟨rfl, rfl⟩)
      · exact ⟨c, mem_cons_of_mem _ hc, hrest⟩
      · exact ⟨b, mem_cons_self, huse, rfl, rfl⟩
    · rintro ⟨c, hc, hcuse, rfl, rfl⟩
      rcases mem_cons.mp hc with rfl | hc
      · exact .inr ⟨rfl, rfl⟩
      · exact .inl ⟨c, hc, hcuse, rfl, rfl⟩
  · refine binPush_mem hok (forall_mem_cons.mpr ⟨⟨h₁, h₂⟩, fun n hnm => not_or.mp fun heq => hw ?_⟩)
    exact (linkWord_iff hfree w).mp ⟨_, n, hnm, heq⟩

end Heap

end

/-! ## Tags -/

namespace Heap

variable {mem : Words} {block size w : Nat}

theorem or_freeBit (hsize : size % 16 = 0) (free : Bool) :
    (size ||| if free then FREE_BIT else 0) = if free then size + 1 else size := by
  cases free with
  | false => exact Nat.or_zero size
  | true =>
    have hadd := Nat.two_pow_add_eq_or_of_lt (i := 1) (b := 1) (by decide) (size / 2)
    have heven : 2 ^ 1 * (size / 2) = size := by omega
    rw [heven] at hadd
    exact hadd.symm

theorem setTags_header (hsize : size % 16 = 0) (hmin : 16 ≤ size) (free : Bool) :
    setTags mem block size free block = if free then size + 1 else size := by
  have hne : block ≠ block + size - TAG := by
    show block ≠ block + size - 8
    omega
  rw [setTags, update_of_ne hne, update_self, or_freeBit hsize]

theorem setTags_footer (free : Bool) : setTags mem block size free (block + size - 8) = size :=
  update_self ..

theorem setTags_of_ne (free : Bool) (h₁ : w ≠ block) (h₂ : w ≠ block + size - 8) :
    setTags mem block size free w = mem w := by
  rw [setTags, update_of_ne h₂, update_of_ne h₁]

/-- Reading a header back. -/
theorem sizeOfBlock_of (hsize : size % 16 = 0) (hbound : size < 2 ^ 63)
    (h : mem block = size ∨ mem block = size + 1) : sizeOfBlock mem block = size := by
  have hdown := alignDown_two_pow (x := mem block) (by omega) 1
  unfold sizeOfBlock tagOf
  rw [show FREE_BIT + 1 = 2 ^ 1 from rfl, hdown]
  omega

theorem isFree_eq (mem : Words) (block : Nat) : isFree mem block = decide (mem block % 2 = 1) := by
  unfold isFree tagOf
  rw [show FREE_BIT = 1 from rfl, Nat.and_one_is_mod]
  have := Nat.mod_two_eq_zero_or_one (mem block)
  rcases this with h | h <;> simp [h]

end Heap

open Heap in
/-- **A free block is laid out**: its tags are written and it goes on the list of its size. Around
it only list pointers of the others change. -/
theorem Binned.layFree {bs : List Block} {h : Heap} {start size : Nat}
    (hb : Binned h.mem h.bins bs) (hstart : start % 16 = 0) (hsize : size % 16 = 0)
    (hmin : 32 ≤ size) (hout : ∀ w, LinkOf bs w → w < start ∨ start + size ≤ w) :
    let h' := binPush { h with mem := setTags h.mem start size true } start size
    Block.At h'.mem ⟨start, size, none⟩ ∧ Binned h'.mem h'.bins (⟨start, size, none⟩ :: bs) ∧
      ∀ w, w < start ∨ start + size ≤ w → ¬ LinkOf bs w → h'.mem w = h.mem w := by
  have hbins : Binned (setTags h.mem start size true) h.bins bs := hb.frame fun w hw => by
    have := hout w hw
    exact setTags_of_ne _ (by omega) (by omega)
  have hin (w : Nat) (hlo : start ≤ w) (hhi : w < start + size) : ¬ LinkOf bs w := fun hw => by
    have := hout w hw
    omega
  obtain ⟨hbins', hmem⟩ := @binned_binPush bs { h with mem := setTags h.mem start size true }
    ⟨start, size, none⟩ hbins rfl hstart (hin _ (Nat.le_add_right _ _) (by dsimp only; omega))
  dsimp only at hmem
  refine ⟨⟨?_, ?_, nofun⟩, hbins', fun w hw hlink => ?_⟩
  · rw [hmem start (by omega) (by omega) (hin _ (by omega) (by omega))]
    exact setTags_header hsize (by omega) true
  · show (binPush _ _ _).mem (start + size - 8) = size
    rw [hmem _ (by omega) (by omega) (hin _ (by omega) (by omega))]
    exact setTags_footer true
  · rw [hmem w (by omega) (by omega) hlink, setTags_of_ne _ (by omega) (by omega)]

/-! ## Replacing the blocks at a place -/

section

variable {rs : List Region} (h : RegionsOk rs)

include h

/-- In the range of a block only its own list pointers are list pointers. -/
theorem RegionsOk.not_linkOf {b : Block} (hb : b ∈ blocksOf rs) {w : Nat} (hlo : b.start ≤ w)
    (hhi : w < b.last) (hw : ¬ b.Link w) : ¬ LinkOf (blocksOf rs) w := by
  rintro ⟨c, hc, hlink⟩
  by_cases heq : c = b
  · exact hw (heq ▸ hlink)
  · have hrange := hlink.mem_range (h.blockOk hc)
    have hapart : c.Apart b := h.pairwise.forall hc hb heq
    rcases hapart with hapart | hapart <;> omega

theorem RegionsOk.tag_not_linkOf {b : Block} (hb : b ∈ blocksOf rs) {w : Nat}
    (hw : w = b.start ∨ w = b.last - 8) : ¬ LinkOf (blocksOf rs) w := by
  have hmin := (h.blockOk hb).min
  have hlast : b.last = b.start + b.size := rfl
  refine h.not_linkOf hb (by omega) (by omega) fun hl => ?_
  rcases hl.2 with h | h <;> omega

theorem RegionsOk.sentinel_not_linkOf {r : Region} (hr : r ∈ rs) {w : Nat} (hw : r.SentinelAt w) :
    ¬ LinkOf (blocksOf rs) w := by
  rintro ⟨b, hb, hlink⟩
  exact sentinel_apart h hr hb hw (hlink.mem_range (h.blockOk hb))

end

theorem Zipper.sentinel_not_span {z : Zipper} {mid : List Block} (h : RegionsOk (z.fill mid))
    {s e : Nat} (hspan : z.Span s e) {r : Region} (hr : r ∈ z.fill mid) {w : Nat}
    (hw : r.SentinelAt w) : ¬ (s ≤ w ∧ w < e) := by
  have hother (hr : r ∈ z.left ∨ r ∈ z.right) : ¬ (s ≤ w ∧ w < e) := by
    obtain ⟨hok, hapart⟩ := other_apart h hspan hr
    have := hok.sentinel_range hw
    omega
  rcases mem_append.mp hr with hr | hr
  · exact hother (.inl hr)
  · rcases mem_cons.mp hr with rfl | hr
    · have hle := hspan.before.le
      have hge := hspan.after.le
      unfold Region.SentinelAt at hw
      dsimp only at hw
      omega
    · exact hother (.inr hr)

theorem usedBytes_append (xs ys : List Block) :
    usedBytes (xs ++ ys) = usedBytes xs + usedBytes ys := by
  simp [usedBytes]

theorem usedBytes_fill (z : Zipper) (mid : List Block) :
    usedBytes (blocksOf (z.fill mid)) = usedBytes mid + usedBytes z.rest := by
  rw [← usedBytes_append]
  exact ((blocksOf_perm mid).map _).sum_nat

/-- **Replacing blocks**: the new ones are in memory and binned with the rest, and
nothing was written outside of the place but list pointers. -/
theorem HeapInv.retile {h h' : Heap} {z : Zipper} {mid mid' : List Block} {s e : Nat}
    (hinv : HeapInv h (z.fill mid)) (hspan : z.Span s e) (hlayout : RegionsOk (z.fill mid'))
    (hregions : h'.regions = h.regions) (htotal : h'.totalSize = h.totalSize)
    (hmem : ∀ w, ¬ (s ≤ w ∧ w < e) → ¬ LinkOf (blocksOf (z.fill mid)) w → h'.mem w = h.mem w)
    (hmid : ∀ b ∈ mid', b.At h'.mem) (hbins : Binned h'.mem h'.bins (mid' ++ z.rest))
    (hbytes : h'.allocatedBytes + usedBytes mid = h.allocatedBytes + usedBytes mid') :
    HeapInv h' (z.fill mid') := by
  have hsize (mid : List Block) : (z.fill mid).map (fun r => r.last - r.base) =
      ((z.fill mid).map fun r => (r.base, r.last)).map fun p => p.2 - p.1 := by
    rw [map_map]
    rfl
  refine ⟨?_, ?_, hlayout, fun r hr => ?_, fun b hb => ?_, ?_, ?_⟩
  · rw [hregions, hinv.regions, map_fill mid mid']
  · rw [htotal, hinv.total, hsize, hsize, map_fill mid mid']
  · -- The region was there before, with other blocks at most.
    have hpair : (r.base, r.last) ∈ (z.fill mid).map fun r => (r.base, r.last) := by
      rw [map_fill mid mid']
      exact mem_map_of_mem hr
    obtain ⟨r₀, hr₀, heq⟩ := mem_map.mp hpair
    obtain ⟨hbase, hlast⟩ := Prod.mk.inj heq
    obtain ⟨hheader, hfooter, hendHeader, hendFooter⟩ := (hinv.sentinels r₀ hr₀).frame fun w hw =>
      hmem w (sentinel_not_span hinv.layout hspan hr₀ hw) (hinv.layout.sentinel_not_linkOf hr₀ hw)
    rw [hbase] at hheader hfooter
    rw [hlast] at hendHeader hendFooter
    exact ⟨hheader, hfooter, hendHeader, hendFooter⟩
  · rcases mem_blocksOf.mp hb with hb | hb
    · exact hmid b hb
    have hbold : b ∈ blocksOf (z.fill mid) := mem_blocksOf.mpr (.inr hb)
    have hapart := rest_apart hinv.layout hspan hb
    refine (hinv.blocks b hbold).frame (hinv.layout.blockOk hbold) fun w hlo hhi hw _ => ?_
    exact hmem w (fun hin => by rcases hapart with h | h <;> omega)
      (hinv.layout.not_linkOf hbold hlo hhi hw)
  · refine hbins.congr fun b _ => ?_
    rw [mem_blocksOf, mem_append]
  · have := hinv.bytes
    rw [usedBytes_fill] at this ⊢
    omega

namespace HeapInv

variable {h : Heap} {rs : List Region}

section

variable {b : Block} (hinv : HeapInv h rs) (hb : b ∈ blocksOf rs)

include hinv hb

theorem size_lt : b.last ≤ IDENTITY_MAX := by
  obtain ⟨r, hr, hbr⟩ := mem_flatMap.mp hb
  have := (hinv.layout.ok r hr).mem_range hbr
  have := (hinv.layout.ok r hr).bound
  omega

/-- Reading the tag of a block. -/
theorem sizeOfBlock : Heap.sizeOfBlock h.mem b.start = b.size := by
  have hheader := (hinv.blocks b hb).header
  have hlt := hinv.size_lt hb
  unfold Block.last IDENTITY_MAX at hlt
  refine Heap.sizeOfBlock_of (hinv.layout.blockOk hb).size (by omega) ?_
  rw [hheader]
  split_ifs
  · exact .inr rfl
  · exact .inl rfl

theorem isFree : Heap.isFree h.mem b.start = b.use.isNone := by
  have hsize := (hinv.layout.blockOk hb).size
  rw [Heap.isFree_eq, (hinv.blocks b hb).header]
  split_ifs with hnone
  · rw [hnone, decide_eq_true_eq]
    omega
  · have hfalse : b.use.isNone = false := Bool.eq_false_iff.mpr hnone
    rw [hfalse, decide_eq_false_iff_not]
    omega

end

end HeapInv

end NopeekOS.Mm
