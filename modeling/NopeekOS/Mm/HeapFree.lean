import NopeekOS.Mm.HeapOps

/-!
# Releasing memory and adding regions

A release merges the block with its free neighbours. Between taking a neighbour off
its list and writing the tags of the merged block the memory is not that of any
layout; `Lifted` says what holds in between.
-/

namespace NopeekOS.Mm

open Lib List Heap Zipper

variable {h h₁ : Heap} {rs : List Region} {z : Zipper} {b : Block} {mid : List Block} {bytes : Nat}

/-- Before anything is merged. -/
theorem HeapInv.lifted (hinv : HeapInv h (z.fill [b])) (huse : b.use ≠ none) (bytes : Nat) :
    Lifted h (z.fill [b]) z [b] bytes { h with allocatedBytes := bytes } := by
  refine ⟨rfl, hinv.bins.congr fun c hc => ?_, fun _ _ => rfl, rfl, rfl, rfl⟩
  have hne : c ≠ b := fun heq => huse (heq ▸ hc)
  rw [mem_blocksOf]
  simp [hne]

variable {c : Block}

section

variable (hm : Lifted h rs z mid bytes h₁)

include hm

section

variable (hinv : HeapInv h rs) (hc : c ∈ blocksOf rs)

include hinv hc

/-- The header of a block is still there. -/
theorem Lifted.header : h₁.mem c.start = h.mem c.start := by
  exact hm.mem _ (hinv.layout.tag_not_linkOf hc (.inl rfl))

theorem Lifted.isFree : Heap.isFree h₁.mem c.start = c.use.isNone := by
  rw [← hinv.isFree hc, isFree_eq, isFree_eq, hm.header hinv hc]

theorem Lifted.sizeOfBlock : Heap.sizeOfBlock h₁.mem c.start = c.size := by
  rw [← hinv.sizeOfBlock hc]
  unfold Heap.sizeOfBlock Heap.tagOf
  rw [hm.header hinv hc]

end

/-- A word of a sentinel is still there. -/
theorem Lifted.sentinel (hinv : HeapInv h rs) {r : Region} (hr : r ∈ rs) {w : Nat}
    (hw : r.SentinelAt w) : h₁.mem w = h.mem w :=
  hm.mem w (hinv.layout.sentinel_not_linkOf hr hw)

end

/-- The blocks from `b` on are ready to be merged, with an allocated block behind. -/
def MergedNext (h : Heap) (rs : List Region) (before : List Block) (b : Block) (bytes : Nat)
    (r : Nat × Heap) : Prop :=
  ∃ z mid, Lifted h rs z (b :: mid) bytes r.2 ∧ r.1 = spanSize (b :: mid) ∧ z.before = before ∧
    (∀ y ∈ z.after.head?, y.use ≠ none) ∧ ∀ c ∈ mid, c.use = none

/-- **Merging with the block behind**: it is taken in if it is free. -/
theorem Lifted.coalesceNext (hm : Lifted h rs z [b] bytes h₁) (hinv : HeapInv h rs) :
    MergedNext h rs z.before b bytes (h₁.coalesceNext b.start b.size) := by
  have hfill := hm.fill
  have hlayout : RegionsOk (z.fill [b]) := hfill ▸ hinv.layout
  obtain ⟨s, e, hspan, hstart, hlast⟩ := exists_span hlayout
  have hend : b.start + b.size = e := hlast
  have hafter := hspan.after
  have hself (hfree : Heap.isFree h₁.mem e = false) (hy : ∀ y ∈ z.after.head?, y.use ≠ none) :
      MergedNext h rs z.before b bytes (h₁.coalesceNext b.start b.size) := by
    unfold Heap.coalesceNext
    dsimp only
    rw [hend, hfree]
    exact ⟨z, [], hm, by simp [spanSize], rfl, hy, by simp⟩
  cases hz : z.after with
  | nil =>
    -- The end sentinel is not free.
    rw [hz] at hafter
    have hsent : h₁.mem e = SENTINEL := by
      have hr : (⟨z.base, z.last, z.before ++ [b] ++ z.after⟩ : Region) ∈ rs :=
        hfill ▸ mem_append_right _ mem_cons_self
      have he : e = z.last - 16 := hafter
      rw [he, hm.sentinel hinv hr (.inr (.inr (.inl rfl)))]
      exact (hinv.sentinels _ hr).endHeader
    exact hself (by rw [isFree_eq, hsent]; rfl) (by simp [hz])
  | cons n after =>
    rw [hz] at hafter
    have hn : n.start = e := hafter.1
    have hnmem : n ∈ blocksOf rs := by
      rw [hfill, mem_blocksOf]
      exact .inr (by simp [rest, hz])
    by_cases huse : n.use = none
    · -- The neighbour is taken in.
      let z' : Zipper := ⟨z.left, z.base, z.last, z.before, after, z.right⟩
      have hfill' : rs = z'.fill [b, n] := by rw [hfill]; simp [Zipper.fill, hz, z']
      -- Behind a free block there is an allocated one.
      obtain ⟨-, -, -, hused⟩ := @Coalesced.around (z.before ++ [b]) after n
        (by simpa [hz] using (Zipper.here_ok hlayout).coalesced) huse
      unfold Heap.coalesceNext
      dsimp only
      rw [hend, ← hn, hm.isFree hinv hnmem, hm.sizeOfBlock hinv hnmem, huse]
      refine ⟨z', [n], hm.remove hinv.layout hfill' huse (by simp) ?_, by simp [spanSize],
        rfl, hused, fun c hc => ?_⟩
      · intro x
        simp only [rest, hz, z', mem_append, mem_cons]
        grind
      · rwa [mem_singleton.mp hc]
    · refine hself ?_ ?_
      · rw [← hn, hm.isFree hinv hnmem]
        simpa [Option.isSome_iff_ne_none] using huse
      · intro y hy
        rw [hz] at hy
        obtain rfl := Option.mem_some_iff.mp hy
        exact huse

/-- The blocks `pre ++ b :: mid` are ready to be merged, with allocated blocks around. -/
def MergedBoth (h : Heap) (rs : List Region) (b : Block) (bytes : Nat) (r : Nat × Nat × Heap) :
    Prop :=
  ∃ z pre mid, Lifted h rs z (pre ++ b :: mid) bytes r.2.2 ∧ r.2.1 = spanSize (pre ++ b :: mid) ∧
    (∀ c ∈ (pre ++ b :: mid).head?, c.start = r.1) ∧ (∀ x ∈ z.before.getLast?, x.use ≠ none) ∧
    (∀ y ∈ z.after.head?, y.use ≠ none) ∧ ∀ c ∈ pre ++ mid, c.use = none

/-- **Merging with the block in front.** -/
theorem Lifted.coalescePrev (hm : Lifted h rs z (b :: mid) bytes h₁) (hinv : HeapInv h rs)
    (hafter : ∀ y ∈ z.after.head?, y.use ≠ none) (hmid : ∀ c ∈ mid, c.use = none) :
    MergedBoth h rs b bytes (h₁.coalescePrev b.start (spanSize (b :: mid))) := by
  have hfill := hm.fill
  have hlayout : RegionsOk (z.fill (b :: mid)) := hfill ▸ hinv.layout
  obtain ⟨s, e, hspan, hstart, hrest⟩ := exists_span hlayout
  have hbefore := hspan.before
  have hself (hps : ¬ (Heap.prevSize h₁.mem b.start ≠ SENTINEL ∧
        Heap.isFree h₁.mem (b.start - Heap.prevSize h₁.mem b.start) = true))
      (hx : ∀ x ∈ z.before.getLast?, x.use ≠ none) :
      MergedBoth h rs b bytes (h₁.coalescePrev b.start (spanSize (b :: mid))) := by
    unfold Heap.coalescePrev
    rw [if_neg hps]
    exact ⟨z, [], mid, hm, rfl, by simp, hx, hafter, hmid⟩
  rcases eq_nil_or_concat z.before with hz | ⟨before, p, hz⟩
  · -- The start sentinel ends in front of the first block.
    rw [hz] at hbefore
    have hsent : Heap.prevSize h₁.mem b.start = SENTINEL := by
      have hr : (⟨z.base, z.last, z.before ++ b :: mid ++ z.after⟩ : Region) ∈ rs :=
        hfill ▸ mem_append_right _ mem_cons_self
      have hs : z.base + 32 = s := hbefore
      have hword : b.start - TAG = z.base + 24 := by
        show b.start - 8 = z.base + 24
        omega
      rw [Heap.prevSize, hword, hm.sentinel hinv hr (.inr (.inl rfl))]
      exact (hinv.sentinels _ hr).footer
    exact hself (fun h => h.1 hsent) (by simp [hz])
  · rw [concat_eq_append] at hz
    rw [hz] at hbefore
    obtain ⟨m, -, hpm, hplast⟩ := tiled_append.mp hbefore
    have hplast' : p.last = s := hplast
    have hpmem : p ∈ blocksOf rs := by
      rw [hfill, mem_blocksOf]
      exact .inr (by simp [rest, hz])
    have hpok := hinv.layout.blockOk hpmem
    have hpmin := hpok.min
    have hpend : p.start + p.size = b.start := by
      have : p.last = p.start + p.size := rfl
      omega
    -- The footer of the block in front is still there.
    have hps : Heap.prevSize h₁.mem b.start = p.size := by
      have hword : b.start - TAG = p.last - 8 := by
        show b.start - 8 = p.last - 8
        omega
      rw [Heap.prevSize, hword, hm.mem _ (hinv.layout.tag_not_linkOf hpmem (.inr rfl))]
      exact (hinv.blocks p hpmem).footer
    have hpstart : b.start - p.size = p.start := by omega
    by_cases huse : p.use = none
    · let z' : Zipper := ⟨z.left, z.base, z.last, before, z.after, z.right⟩
      have hfill' : rs = z'.fill ([p] ++ b :: mid) := by rw [hfill]; simp [Zipper.fill, hz, z']
      obtain ⟨-, -, hused, -⟩ := @Coalesced.around before (b :: mid ++ z.after) p
        (by simpa [hz] using (Zipper.here_ok hlayout).coalesced) huse
      have hcond : p.size ≠ SENTINEL ∧ Heap.isFree h₁.mem p.start = true := by
        rw [hm.isFree hinv hpmem, huse]
        exact ⟨by show p.size ≠ 16; omega, rfl⟩
      unfold Heap.coalescePrev
      dsimp only
      rw [hps, hpstart, if_pos hcond]
      refine ⟨z', [p], mid, hm.remove hinv.layout hfill' huse (by simp) ?_, ?_, by simp,
        hused, hafter, forall_mem_cons.mpr ⟨huse, hmid⟩⟩
      · intro x
        simp only [rest, hz, z', mem_append, mem_singleton]
        grind
      · simp [spanSize]
        omega
    · refine hself ?_ ?_
      · rw [hps, hpstart, hm.isFree hinv hpmem]
        simp [huse]
      · intro x hx
        rw [hz, getLast?_concat] at hx
        obtain rfl := Option.mem_some_iff.mp hx
        exact huse

variable {bs : List Block}

theorem dvd_spanSize (h : ∀ b ∈ bs, b.size % 16 = 0) : 16 ∣ spanSize bs :=
  dvd_sum (forall_mem_map.mpr fun b hb => Nat.dvd_of_mod_eq_zero (h b hb))

/-- **Writing the merged block** and putting it on its list. -/
theorem Lifted.finish {s e : Nat} (hm : Lifted h rs z mid bytes h₁) (hinv : HeapInv h rs)
    (hspan : z.Span s e) (htiled : Tiled s e mid) (hne : mid ≠ [])
    (hbefore : ∀ x ∈ z.before.getLast?, x.use ≠ none) (hafter : ∀ y ∈ z.after.head?, y.use ≠ none)
    (hbytes : bytes + usedBytes mid = h.allocatedBytes) :
    HeapInv (binPush { h₁ with mem := setTags h₁.mem s (e - s) true } s (e - s))
      (z.fill [⟨s, e - s, none⟩]) := by
  have hfill := hm.fill
  subst hfill
  have hlayout := hinv.layout
  have hcoal := (Zipper.here_ok hlayout).coalesced
  obtain ⟨c, mid', hmid⟩ := exists_cons_of_ne_nil hne
  have hcok := hlayout.blockOk (mem_blocksOf.mpr (.inl (hmid ▸ mem_cons_self)))
  have hsizes := dvd_spanSize fun b (hb : b ∈ mid) =>
    (hlayout.blockOk (mem_blocksOf.mpr (.inl hb))).size
  have hsize := htiled.size_eq
  have hcs : c.start = s := by rw [hmid] at htiled; exact htiled.1
  have hce : c.start + c.size ≤ e := by rw [hmid] at htiled; exact htiled.2.le
  have hs16 : s % 16 = 0 := hcs ▸ hcok.start
  have hmin := hcok.min
  have hfree : Block.Ok ⟨s, e - s, none⟩ := by
    refine ⟨hs16, ?_, ?_, nofun⟩ <;> dsimp only <;> omega
  obtain ⟨hat, hbins, hmem⟩ := hm.bins.layFree hs16 hfree.size hfree.min fun w hw => by
    have := rest_not_link hlayout hspan hw
    dsimp only
    omega
  refine hinv.retile hspan ?_ hm.regions hm.total (fun w hout hw => ?_) (fun b hb => ?_) hbins ?_
  · refine regionsOk_fill hlayout hspan ⟨rfl, ?_⟩ (forall_mem_singleton.mpr hfree) ?_
    · show s + (e - s) = e
      omega
    · obtain ⟨hleft, hright, -⟩ := isChain_append.mp hcoal
      refine Coalesced.between (isChain_append.mp hleft).1 (.singleton _) hright
        (fun x hx _ _ => .inl (hbefore x hx)) (fun _ _ y hy => .inr (hafter y hy)) (by simp)
  · rw [hmem w (by dsimp only; omega) fun ⟨c, hc, hl⟩ => hw ⟨c, mem_blocksOf.mpr (.inr hc), hl⟩]
    exact hm.mem w hw
  · rwa [mem_singleton.mp hb]
  · have hnone : usedBytes [⟨s, e - s, none⟩] = 0 := rfl
    have hsame : h₁.allocatedBytes + usedBytes mid = h.allocatedBytes := by
      rw [hm.bytes]
      exact hbytes
    rw [hnone]
    exact hsame

theorem HeapInv.contains (hinv : HeapInv h rs) {r : Region} (hr : r ∈ rs) {addr : Nat}
    (hlo : r.base ≤ addr) (hhi : addr < r.last) : h.contains addr = true := by
  unfold Heap.contains
  rw [hinv.regions, any_eq_true]
  exact ⟨_, mem_map_of_mem hr, by simp [hlo, hhi]⟩

theorem usedBytes_of_free (h : ∀ c ∈ bs, c.use = none) : usedBytes bs = 0 :=
  sum_eq_zero (forall_mem_map.mpr fun c hc => by simp [h c hc])

/-- **A release** gives the block of the pointer back. -/
theorem HeapInv.deallocate (hinv : HeapInv h rs) {u : Use} (hu : u ∈ usesOf (blocksOf rs)) :
    ∃ rs', HeapInv (h.deallocate u.ptr) rs' ∧
      (usesOf (blocksOf rs)).Perm (u :: usesOf (blocksOf rs')) := by
  obtain ⟨b, hb, huse⟩ := mem_filterMap.mp hu
  obtain ⟨hge, hle, -, -⟩ := (hinv.layout.blockOk hb).use u huse
  have hat := (hinv.blocks b hb).use u huse
  -- The pointer and its block are in the region.
  obtain ⟨r, hr, hbr⟩ := mem_flatMap.mp hb
  have hrange := (hinv.layout.ok r hr).mem_range hbr
  have hlast : b.last = b.start + b.size := rfl
  have hmin := (hinv.layout.blockOk hb).min
  have hblock : h.mem (u.ptr - HEADER_SIZE) = b.start := hat.1
  have hsize : h.mem (u.ptr - HEADER_SIZE + 8) = b.size := by
    have hword : u.ptr - HEADER_SIZE + 8 = u.ptr - 8 := by
      show u.ptr - 16 + 8 = u.ptr - 8
      omega
    rw [hword]
    exact hat.2
  have hptr : h.contains u.ptr = true := hinv.contains hr (by omega) (by omega)
  have hstart : h.contains b.start = true := hinv.contains hr (by omega) (by omega)
  obtain ⟨z, rfl⟩ := exists_of_mem hb
  have husedb : b.use ≠ none := by rw [huse]; exact Option.some_ne_none u
  have hnext := (hinv.lifted husedb (h.allocatedBytes - b.size)).coalesceNext hinv
  rcases hrun₁ : Heap.coalesceNext { h with allocatedBytes := h.allocatedBytes - b.size } b.start
    b.size with ⟨size₁, h₁⟩
  rw [hrun₁] at hnext
  obtain ⟨z₁, mid₁, hm₁, rfl, -, hafter₁, hmid₁⟩ := hnext
  have hprev := hm₁.coalescePrev hinv hafter₁ hmid₁
  rcases hrun₂ : h₁.coalescePrev b.start (spanSize (b :: mid₁)) with ⟨block₂, size₂, h₂⟩
  rw [hrun₂] at hprev
  obtain ⟨z₂, pre, mid, hm₂, rfl, hhead, hbefore, hafter, hfree⟩ := hprev
  have hfill := hm₂.fill
  have hlayout : RegionsOk (z₂.fill (pre ++ b :: mid)) := hfill ▸ hinv.layout
  obtain ⟨s, e, hspan, htiled⟩ := exists_span hlayout
  have hspansize := htiled.size_eq
  obtain ⟨hpre, hmid⟩ := forall_mem_append.mp hfree
  have hused : usedBytes (pre ++ b :: mid) = b.size := by
    rw [usedBytes_append, usedBytes_of_free hpre]
    have : usedBytes (b :: mid) = b.size + usedBytes mid := by simp [usedBytes, huse]
    rw [this, usedBytes_of_free hmid]
    omega
  have huses : usesOf (pre ++ b :: mid) = [u] := by
    rw [usesOf, filterMap_append, filterMap_cons_some huse, filterMap_eq_nil_iff.mpr hpre,
      filterMap_eq_nil_iff.mpr hmid]
    rfl
  have hbytes : h.allocatedBytes - b.size + usedBytes (pre ++ b :: mid) = h.allocatedBytes := by
    have hbound := hinv.bytes
    rw [hfill, usedBytes_fill, hused] at hbound
    omega
  have hdone := hm₂.finish hinv hspan htiled (by simp) hbefore hafter hbytes
  -- What the source calls `block` and `size` at the end.
  have hblock₂ : block₂ = s := by
    cases pre with
    | nil => exact (hhead b rfl).symm.trans htiled.1
    | cons p pre => exact (hhead p rfl).symm.trans htiled.1
  have hsize₂ : spanSize (pre ++ b :: mid) = e - s := by omega
  have hrun : h.deallocate u.ptr =
      binPush { h₂ with mem := setTags h₂.mem s (e - s) true } s (e - s) := by
    have hne : u.ptr ≠ 0 := by omega
    simp only [deallocate, hne, hptr, hblock, hstart, hsize, Bool.not_true,
      Bool.false_eq_true, if_false, hrun₁, hrun₂, hblock₂, hsize₂]
  rw [hrun]
  refine ⟨_, hdone, ?_⟩
  rw [hfill]
  refine (usesOf_fill z₂ _).trans ?_
  rw [huses]
  have hrest : (usesOf (blocksOf (z₂.fill [⟨s, e - s, none⟩]))).Perm (usesOf z₂.rest) :=
    usesOf_fill z₂ _
  exact hrest.symm.cons u

/-! ## New regions -/

/-- A region that can be added: aligned, large enough for one block, and apart from
the others. -/
structure Fresh (regions : List (Nat × Nat)) (base size : Nat) : Prop where
  pos : 0 < base
  baseMod : base % 16 = 0
  sizeMod : size % 16 = 0
  min : 80 ≤ size
  bound : base + size ≤ IDENTITY_MAX
  apart : ∀ r ∈ regions, r.2 ≤ base ∨ base + size ≤ r.1

variable {base size : Nat}

/-- A region of one free block. -/
def freshRegion (base size : Nat) : Region :=
  ⟨base, base + size, [⟨base + 32, size - 48, none⟩]⟩

section

variable (hinv : HeapInv h rs) (hf : Fresh h.regions base size)

include hinv hf

theorem HeapInv.fresh_apart : ∀ r ∈ rs, r.last ≤ base ∨ base + size ≤ r.base := by
  intro r hr
  refine hf.apart (r.base, r.last) ?_
  rw [hinv.regions]
  exact mem_map_of_mem hr

theorem HeapInv.layout_fresh : RegionsOk (freshRegion base size :: rs) := by
  have hmin := hf.min
  have hsize := hf.sizeMod
  have hbase := hf.baseMod
  refine ⟨forall_mem_cons.mpr ⟨⟨hf.pos, hbase, ?_, ⟨rfl, ?_⟩,
    forall_mem_singleton.mpr ⟨?_, ?_, ?_, nofun⟩, .singleton _, hf.bound⟩, hinv.layout.ok⟩,
    pairwise_cons.mpr ⟨fun r hr => (hinv.fresh_apart hf r hr).symm, hinv.layout.apart⟩⟩
  · show base + 48 ≤ base + size
    omega
  · show base + 32 + (size - 48) = base + size - 16
    omega
  · show (base + 32) % 16 = 0
    omega
  · show (size - 48) % 16 = 0
    omega
  · show 32 ≤ size - 48
    omega

/-- **Adding a region.** -/
theorem HeapInv.addRegion : HeapInv (h.addRegion base size) (freshRegion base size :: rs) := by
  have hmin := hf.min
  have hlayout := hinv.layout_fresh hf
  have hapart := hinv.fresh_apart hf
  have hbase := hf.baseMod
  have hsize := hf.sizeMod
  set mem₁ := setTags (setTags h.mem (base + 16) 16 false) (base + size - 16) 16 false with hmem₁
  set h₁ : Heap := { h with
    mem := mem₁
    regions := (base, base + size) :: h.regions
    totalSize := h.totalSize + size }
  set h₂ := binPush { h₁ with mem := setTags mem₁ (base + 32) (size - 48) true } (base + 32)
    (size - 48)
  have hrun : h.addRegion base size = h₂ := by
    have hbody : size - REGION_HDR - 2 * SENTINEL = size - 48 := by
      show size - 16 - 2 * 16 = size - 48
      omega
    have hlast : base + REGION_HDR + SENTINEL + (size - 48) = base + size - 16 := by
      show base + 16 + 16 + (size - 48) = base + size - 16
      omega
    unfold Heap.addRegion
    dsimp only
    rw [hbody, hlast]
    rfl
  -- Old blocks are outside of the region, so their words are as before.
  have hold (w : Nat) (hw : w < base ∨ base + size ≤ w) : mem₁ w = h.mem w := by
    rw [hmem₁, setTags_of_ne _ (by omega) (by omega), setTags_of_ne _ (by omega) (by omega)]
  have hout (b : Block) (hb : b ∈ blocksOf rs) (w : Nat) (hlo : b.start ≤ w) (hhi : w < b.last) :
      w < base ∨ base + size ≤ w := by
    obtain ⟨r, hr, hbr⟩ := mem_flatMap.mp hb
    have hrange := (hinv.layout.ok r hr).mem_range hbr
    rcases hapart r hr with h | h <;> omega
  have hlinkout (w : Nat) (hw : LinkOf (blocksOf rs) w) : w < base ∨ base + size ≤ w := by
    obtain ⟨b, hb, hl⟩ := hw
    have := hl.mem_range (hinv.layout.blockOk hb)
    exact hout b hb w this.1 this.2
  have hbins₁ : Binned mem₁ h₁.bins (blocksOf rs) :=
    hinv.bins.frame fun w hw => hold w (hlinkout w hw)
  obtain ⟨hat, hbins₂, hmem₂⟩ := @Binned.layFree (blocksOf rs) h₁ (base + 32) (size - 48) hbins₁
    (by omega) (by omega) (by omega) fun w hw => by
      have := hlinkout w hw
      omega
  have hnew (w : Nat) (hw : base ≤ w ∧ (w < base + 32 ∨ base + size - 16 ≤ w) ∧ w < base + size) :
      h₂.mem w = mem₁ w := by
    refine hmem₂ w (by omega) fun hl => ?_
    have := hlinkout w hl
    omega
  have hkeep (w : Nat) (hw : w < base ∨ base + size ≤ w) (hl : ¬ LinkOf (blocksOf rs) w) :
      h₂.mem w = h.mem w :=
    (hmem₂ w (by omega) hl).trans (hold w hw)
  rw [hrun]
  refine ⟨?_, ?_, hlayout, fun r hr => ?_, fun b hb => ?_, hbins₂, ?_⟩
  · show (base, base + size) :: h.regions = _
    rw [hinv.regions]
    rfl
  · show h.totalSize + size = _
    rw [hinv.total, map_cons, sum_cons]
    show _ = base + size - base + _
    omega
  · rcases mem_cons.mp hr with rfl | hr
    · refine ⟨?_, ?_, ?_, ?_⟩
      · show h₂.mem (base + 16) = 16
        rw [hnew _ (by omega), hmem₁, setTags_of_ne _ (by omega) (by omega)]
        exact setTags_header rfl (by omega) false
      · show h₂.mem (base + 24) = 16
        rw [hnew _ (by omega), hmem₁, setTags_of_ne _ (by omega) (by omega),
          show base + 24 = base + 16 + 16 - 8 by omega]
        exact setTags_footer false
      · show h₂.mem (base + size - 16) = 16
        rw [hnew _ (by omega), hmem₁]
        exact setTags_header rfl (by omega) false
      · show h₂.mem (base + size - 8) = 16
        rw [hnew _ (by omega), hmem₁, show base + size - 8 = base + size - 16 + 16 - 8 by omega]
        exact setTags_footer false
    · refine (hinv.sentinels r hr).frame fun w hw => ?_
      have hrange := (hinv.layout.ok r hr).sentinel_range hw
      refine hkeep w ?_ (hinv.layout.sentinel_not_linkOf hr hw)
      rcases hapart r hr with h | h <;> omega
  · rcases mem_cons.mp hb with rfl | hb
    · exact hat
    · refine (hinv.blocks b hb).frame (hinv.layout.blockOk hb) fun w hlo hhi hw _ => ?_
      exact hkeep w (hout b hb w hlo hhi) (hinv.layout.not_linkOf hb hlo hhi hw)
  · show h.allocatedBytes = _
    rw [hinv.bytes]
    show _ = usedBytes ([⟨base + 32, size - 48, none⟩] ++ blocksOf rs)
    rw [usedBytes_append]
    exact (Nat.zero_add _).symm

end

/-- The first region. -/
theorem heapInv_init (mem : Words) (hf : Fresh [] base size) :
    HeapInv ((empty mem).init base size) [freshRegion base size] := by
  have hempty : HeapInv (empty mem) [] := by
    refine ⟨rfl, rfl, ⟨by simp, .nil⟩, by simp, by simp [blocksOf], ?_, rfl⟩
    refine ⟨fun _ => [], ⟨fun i => ⟨rfl, trivial, .nil, by simp⟩, by simp, by simp⟩, fun i n => ?_⟩
    simp [FreeNode, blocksOf]
  exact hempty.addRegion hf

end NopeekOS.Mm
