import NopeekOS.Mm.HeapRun

/-!
# Growing the heap

When no free block is large enough, `allocate` asks `grow` for a region and tries again. An
attempt succeeds exactly if some free block serves it (`HeapInv.tryAllocate_ne_none`), so what
matters is whether the one block of the new region does.

It need not. `allocate` adds the alignment of the layout to the size it asks for
(heap.rs:242), but payloads are aligned to 16 at least and start 32 bytes into a block: for
alignments below 8 the request can be up to seven bytes short, and if the region has no more
than was asked for the second attempt fails with the region added.
-/

namespace NopeekOS.Mm

open Lib List Heap

/-! ## The source -/

/-- `GROW_CHUNK` (heap.rs:25). -/
abbrev GROW_CHUNK : Nat := 64 * 1024 * 1024

/-- The size that `allocate` asks for (heap.rs:242). -/
def Layout.needed (layout : Layout) : Nat :=
  layout.size + TAG + HEADER_SIZE + layout.align + TAG

/-- The frames that `grow` settles for (heap.rs:325). -/
def leastFrames (minSize : Nat) : Nat := (minSize + REGION_HDR + 2 * SENTINEL + 4095) / 4096

/-- The loop of `grow` (heap.rs:331): the region it gets. `offer n` is where the frame allocator
has `n` frames in one piece above the reserve; it is asked for each number once. -/
def growLoop (offer : Nat → Option Nat) (need : Nat) : (fuel frames : Nat) → Option (Nat × Nat)
  | 0, _ => none
  | fuel + 1, frames =>
    match offer frames with
    | some base => some (base, frames * 4096)
    | none => if frames = need then none else growLoop offer need fuel (max (frames / 2) need)

/-- `grow` (heap.rs:324). -/
def grow (offer : Nat → Option Nat) (minSize : Nat) : Option (Nat × Nat) :=
  let need := leastFrames minSize
  let frames := max need (GROW_CHUNK / 4096)
  growLoop offer need frames frames

/-! ## Bins -/

theorem binFrom_range (size n b s : Nat) : b ≤ binFrom size n b s ∧ binFrom size n b s ≤ b + n := by
  induction n generalizing b s with
  | zero => exact ⟨Nat.le_refl b, Nat.le_refl b⟩
  | succ n ih =>
    rw [binFrom]
    split
    · have := ih (b + 1) (s * 2)
      omega
    · omega

theorem binFrom_mono {x y : Nat} (h : x ≤ y) (n b s : Nat) : binFrom x n b s ≤ binFrom y n b s := by
  induction n generalizing b s with
  | zero => exact Nat.le_refl b
  | succ n ih =>
    rw [binFrom, binFrom]
    by_cases hx : s * 2 ≤ x
    · rw [if_pos hx, if_pos (hx.trans h)]
      exact ih ..
    · rw [if_neg hx]
      split
      · exact (Nat.le_succ b).trans (binFrom_range ..).1
      · exact Nat.le_refl b

theorem binOf_mono {x y : Nat} (h : x ≤ y) : binOf x ≤ binOf y := by
  unfold binOf
  split
  · split
    · exact Nat.div_le_div_right h
    · have := (binFrom_range y (NBINS - 1 - 32) 32 512).1
      omega
  · rw [if_neg (by omega)]
    exact binFrom_mono h ..

theorem binOf_lt (size : Nat) : binOf size < NBINS := by
  unfold binOf
  split
  · show size / 16 < 52
    omega
  · exact Nat.lt_of_le_of_lt (binFrom_range ..).2 (by decide)

/-! ## Attempts -/

variable {h : Heap} {rs : List Region} {base size : Nat}

/-- A block that an attempt takes if it gets to it. -/
def Block.Takes (layout : Layout) (c : Block) : Prop :=
  c.use = none ∧ binOf (needFor 0 layout.size (max layout.align BLOCK_ALIGN)).2 ≤ binOf c.size ∧
    (needFor c.start layout.size (max layout.align BLOCK_ALIGN)).2 ≤ c.size

/-- **An attempt fails** only if no block serves it. -/
theorem HeapInv.tryAllocate_ne_none (hinv : HeapInv h rs) (layout : Layout) :
    (h.tryAllocate layout).1 ≠ none ↔ ∃ c ∈ blocksOf rs, c.Takes layout := by
  set first := binOf (needFor 0 layout.size (max layout.align BLOCK_ALIGN)).2
  obtain ⟨hfound, hnone⟩ := hinv.walkBins layout.size (max layout.align BLOCK_ALIGN)
    (NBINS - first) first
  unfold Heap.tryAllocate
  dsimp only
  split
  next hfind =>
    refine ⟨fun hne => absurd rfl hne, ?_⟩
    rintro ⟨c, hc, huse, hbin, hfits⟩
    refine absurd ⟨huse, hbin, ?_, hfits⟩ (hnone hfind c hc)
    have := binOf_lt c.size
    omega
  next block hfind =>
    obtain ⟨c, hc, ⟨huse, hbin, -, hfits⟩, -⟩ := hfound block hfind
    exact ⟨fun _ => ⟨c, hc, huse, hbin, hfits⟩, fun _ => Option.some_ne_none _⟩

/-- **The block of a new region** of the size asked for serves, unless it is a few bytes short. -/
theorem takes_freshRegion (hf : Fresh h.regions base size) (layout : Layout)
    (hsize : layout.needed + 48 ≤ size) :
    Block.Takes layout ⟨base + 32, size - 48, none⟩ ↔ layout.size + 88 ≤ size := by
  have hbase := hf.baseMod
  have hsize16 := hf.sizeMod
  have hbound := hf.bound
  have hmin := hf.min
  change layout.size + 8 + 16 + layout.align + 8 + 48 ≤ size at hsize
  obtain ⟨hplaced, hle⟩ := @needFor_spec (base + 32) (by omega) layout
  constructor
  · rintro ⟨-, -, hfits⟩
    have hheader := hplaced.header
    have hfooter := hplaced.footer
    have heven := hplaced.even
    dsimp only at hfits
    omega
  · intro hroom
    -- From 16 on the alignment is in the request.
    have hbody : layout.size + 24 + max layout.align 16 ≤ size - 48 := by
      rcases Nat.le_total layout.align 16 with h | h
      · rw [Nat.max_eq_right h]
        omega
      · rw [Nat.max_eq_left h]
        omega
    have hbody16 : (size - 48) % 16 = 0 := by omega
    refine ⟨rfl, binOf_mono ?_, hle _ (by omega) hbody16 hbody⟩
    exact (needFor_spec (Nat.zero_le _) layout).2 _ rfl hbody16 hbody

/-- What the loop gets are at least the frames it settles for, and it gives up only if it does
not get those. -/
theorem growLoop_spec (offer : Nat → Option Nat) {need fuel frames : Nat} (hpos : 0 < need)
    (hneed : need ≤ frames) (hfuel : frames ≤ fuel) :
    (∀ base size, growLoop offer need fuel frames = some (base, size) →
      ∃ n, need ≤ n ∧ offer n = some base ∧ size = n * 4096) ∧
    (growLoop offer need fuel frames = none → offer need = none) := by
  induction fuel generalizing frames with
  | zero => omega
  | succ fuel ih =>
    rw [growLoop]
    cases hoffer : offer frames with
    | some base =>
      refine ⟨fun base' size hsome => ?_, nofun⟩
      cases hsome
      exact ⟨frames, hneed, hoffer, rfl⟩
    | none =>
      dsimp only
      split
      next heq => exact ⟨nofun, fun _ => heq ▸ hoffer⟩
      next hne => exact ih (Nat.le_max_right _ _) (by omega)

/-- **Growing is enough exactly if the region is not a few bytes short.** In every state reached,
after `grow` got a region the attempt succeeds if and only if it would have before, or the
region has 88 bytes more than the payload. And `grow` gets one if the frame allocator has the
frames it settles for. -/
theorem grow_enough_iff {mem : Words} {start length : Nat} {calls : List HeapCall}
    {s : HeapState} (hf : Fresh [] start length)
    (hrun : Run HeapStep ⟨(Heap.empty mem).init start length, []⟩ calls s) (layout : Layout)
    (offer : Nat → Option Nat)
    (hoffer : ∀ n base, offer n = some base → Fresh s.heap.regions base (n * 4096)) :
    (∀ base size, grow offer layout.needed = some (base, size) →
      (((s.heap.addRegion base size).tryAllocate layout).1 ≠ none ↔
        (s.heap.tryAllocate layout).1 ≠ none ∨ layout.size + 88 ≤ size)) ∧
    (grow offer layout.needed = none → offer (leastFrames layout.needed) = none) := by
  have hstart : HeapState.Ok ⟨(Heap.empty mem).init start length, []⟩ :=
    ⟨_, heapInv_init mem hf, .refl _⟩
  obtain ⟨rs, hinv, -⟩ := hrun.invariant (fun _ _ _ hs hstep => hstep.ok hs) hstart
  have hpos : 0 < leastFrames layout.needed := Nat.div_pos (Nat.le_add_left _ _) (by decide)
  obtain ⟨hsome, hnone⟩ := growLoop_spec offer hpos (Nat.le_max_left _ _)
    (Nat.le_refl (max (leastFrames layout.needed) (GROW_CHUNK / 4096)))
  refine ⟨fun base size hgrow => ?_, hnone⟩
  obtain ⟨n, hn, hbase, rfl⟩ := hsome base size hgrow
  have hfresh := hoffer n base hbase
  have hsize : layout.needed + 48 ≤ n * 4096 := by
    change (layout.needed + 16 + 2 * 16 + 4095) / 4096 ≤ n at hn
    omega
  rw [(hinv.addRegion hfresh).tryAllocate_ne_none, hinv.tryAllocate_ne_none, or_comm,
    ← takes_freshRegion hfresh layout hsize]
  exact exists_mem_cons_iff _ _ (blocksOf rs)

/-- Only `n` frames at `base` are to be had. -/
def onlyOffer (n base : Nat) : Nat → Option Nat := fun m => if m = n then some base else none

/-- One page with an allocation in it has no room for 4000 bytes; with a chunk behind it it has. -/
theorem grow_enough_iff_chunk :
    let h := (((Heap.empty fun _ => 0).init 4096 4096).allocate hundredBytes none).2
    let layout : Layout := ⟨4000, 1, ⟨0, rfl⟩, by decide⟩
    (h.tryAllocate layout).1 = none ∧
      grow (onlyOffer 16384 8192) layout.needed = some (8192, GROW_CHUNK) ∧
      ((h.addRegion 8192 GROW_CHUNK).tryAllocate layout).1 ≠ none := by
  intro h layout
  have hregions : h.regions = [(4096, 8192)] := by decide +kernel
  have hrun : Run HeapStep ⟨(Heap.empty fun _ => 0).init 4096 4096, []⟩
      [.allocate hundredBytes none] _ := .single (.allocate hundredBytes none (by simp))
  have hgrow : grow (onlyOffer 16384 8192) layout.needed = some (8192, GROW_CHUNK) := by decide
  refine ⟨by decide +kernel, hgrow, ?_⟩
  refine ((grow_enough_iff ?_ hrun layout (onlyOffer 16384 8192) fun n base hn => ?_).1 8192
    GROW_CHUNK hgrow).mpr (.inr (by decide))
  · exact ⟨by decide, by decide, by decide, by decide, by decide, by simp⟩
  · unfold onlyOffer at hn
    split at hn
    next heq =>
      cases hn
      rw [heq]
      refine ⟨by decide, by decide, by decide, by decide, by decide, fun r hr => .inl ?_⟩
      have hmem : r ∈ [(4096, 8192)] := hregions ▸ hr
      rw [mem_singleton.mp hmem]
    next => cases hn

/-- The first 64 MiB are too small for 81919919 bytes. With tag, header, alignment 1, footer and
what a region takes these are 20000 frames. `grow` gets them, and the attempt still fails. -/
theorem grow_not_enough : let h := (Heap.empty fun _ => 0).init (2 ^ 24) (2 ^ 26)
    let layout : Layout := ⟨81919919, 1, ⟨0, rfl⟩, by decide⟩
    grow (onlyOffer 20000 (2 ^ 28)) layout.needed = some (2 ^ 28, 20000 * 4096) ∧
      (h.allocate layout (grow (onlyOffer 20000 (2 ^ 28)) layout.needed)).1 = none := by
  decide +kernel

end NopeekOS.Mm
