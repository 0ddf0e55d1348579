import NopeekOS.Mm.FrameAllocator
import NopeekOS.Mm.HeapBins

/-!
# Regions and their blocks

What the memory of the heap stands for: regions, each tiled by blocks between two
sentinels. A block is free or holds an allocation. `Zipper` singles out some
neighbouring blocks of one region; every operation replaces these by others that
tile the same span, and leaves the rest (`Zipper.rest`) alone.
-/

namespace NopeekOS.Mm

open Lib List

/-- An allocation in a block. -/
structure Use where
  ptr : Nat
  layout : Layout

/-- A block; without a use it is free. -/
structure Block where
  start : Nat
  size : Nat
  use : Option Use

/-- A word of the payload. -/
def Use.Covers (u : Use) (w : Nat) : Prop := u.ptr ≤ w ∧ w < u.ptr + u.layout.size

namespace Block

def last (b : Block) : Nat := b.start + b.size

/-- Sizes are multiples of 16 and at least 32; the payload lies behind tag and header and
before the footer, aligned as asked. -/
structure Ok (b : Block) : Prop where
  start : b.start % 16 = 0
  size : b.size % 16 = 0
  min : 32 ≤ b.size
  use : ∀ u ∈ b.use, b.start + 24 ≤ u.ptr ∧ u.ptr + u.layout.size + 8 ≤ b.last ∧
    u.ptr % 16 = 0 ∧ u.layout.align ∣ u.ptr

/-- The words of a block: header, footer and the way back from the payload. -/
structure At (mem : Words) (b : Block) : Prop where
  header : mem b.start = if b.use.isNone then b.size + 1 else b.size
  footer : mem (b.last - 8) = b.size
  use : ∀ u ∈ b.use, mem (u.ptr - 16) = b.start ∧ mem (u.ptr - 8) = b.size

/-- The words of a free block that hold list pointers. -/
def Link (b : Block) (w : Nat) : Prop := b.use = none ∧ (w = b.start + 8 ∨ w = b.start + 16)

theorem Link.mem_range {b : Block} (hb : b.Ok) {w : Nat} (h : b.Link w) :
    b.start ≤ w ∧ w < b.last := by
  have := hb.min
  unfold last
  rcases h.2 with rfl | rfl <;> omega

/-- The tags and headers of a block depend on its own words only, and not on its list
pointers or its payload. -/
theorem At.frame {b : Block} {mem mem' : Words} (h : b.At mem) (hb : b.Ok)
    (hsame : ∀ w, b.start ≤ w → w < b.last → ¬ b.Link w → (∀ u ∈ b.use, ¬ u.Covers w) →
      mem' w = mem w) : b.At mem' := by
  have hmin := hb.min
  have hlast : b.last = b.start + b.size := rfl
  have htag (w : Nat) (hw : w = b.start ∨ w = b.last - 8) : mem' w = mem w := by
    refine hsame w (by omega) (by omega) (fun hl => by rcases hl.2 with h | h <;> omega)
      fun u hu hcov => ?_
    have := hb.use u hu
    unfold Use.Covers at hcov
    omega
  refine ⟨(htag _ (.inl rfl)).trans h.header, (htag _ (.inr rfl)).trans h.footer, fun u hu => ?_⟩
  have hin := hb.use u hu
  have hback (w : Nat) (hw : w = u.ptr - 16 ∨ w = u.ptr - 8) : mem' w = mem w := by
    refine hsame w (by omega) (by omega) (fun hl => by rw [hl.1] at hu; cases hu) fun v hv hcov => ?_
    obtain rfl := Option.mem_unique hu hv
    unfold Use.Covers at hcov
    omega
  exact ⟨(hback _ (.inl rfl)).trans (h.use u hu).1, (hback _ (.inr rfl)).trans (h.use u hu).2⟩

end Block

/-! ## Tiling -/

/-- The blocks follow each other from `lo` to `hi`. -/
def Tiled : Nat → Nat → List Block → Prop
  | lo, hi, [] => lo = hi
  | lo, hi, b :: bs => b.start = lo ∧ Tiled b.last hi bs

variable {lo hi : Nat}

theorem tiled_append {xs ys : List Block} :
    Tiled lo hi (xs ++ ys) ↔ ∃ m, Tiled lo m xs ∧ Tiled m hi ys := by
  induction xs generalizing lo with
  | nil => simp [Tiled]
  | cons b xs ih =>
    rw [cons_append, Tiled, ih]
    constructor
    · rintro ⟨hb, m, hxs, hys⟩
      exact ⟨m, ⟨hb, hxs⟩, hys⟩
    · rintro ⟨m, ⟨hb, hxs⟩, hys⟩
      exact ⟨hb, m, hxs, hys⟩

variable {bs : List Block}

/-- The number of bytes from the first block to the end of the last. -/
def spanSize (mid : List Block) : Nat := (mid.map Block.size).sum

section

variable (h : Tiled lo hi bs)

include h

theorem Tiled.size_eq : lo + spanSize bs = hi := by
  induction bs generalizing lo with
  | nil => exact h
  | cons b bs ih =>
    have hrest := ih h.2
    have hstart : b.start = lo := h.1
    simp only [spanSize, map_cons, sum_cons, Block.last] at hrest ⊢
    omega

theorem Tiled.le : lo ≤ hi := Nat.le.intro h.size_eq

/-- The blocks lie between the ends. -/
theorem Tiled.mem : ∀ b ∈ bs, lo ≤ b.start ∧ b.last ≤ hi := by
  intro b hb
  obtain ⟨xs, ys, rfl⟩ := append_of_mem hb
  obtain ⟨m, hxs, hm, hys⟩ := tiled_append.mp h
  exact ⟨hm ▸ hxs.le, hys.le⟩

/-- Two blocks that do not overlap. -/
def Block.Apart (a b : Block) : Prop := a.last ≤ b.start ∨ b.last ≤ a.start

instance : Std.Symm Block.Apart := ⟨fun _ _ => Or.symm⟩

theorem Tiled.pairwise : bs.Pairwise Block.Apart := by
  induction bs generalizing lo with
  | nil => exact .nil
  | cons b bs ih => exact .cons (fun c hc => .inl (h.2.mem c hc).1) (ih h.2)

end

/-! ## Regions -/

/-- A region and its blocks. -/
structure Region where
  base : Nat
  last : Nat
  blocks : List Block

/-- No two neighbours are both free. -/
def Coalesced (bs : List Block) : Prop := bs.IsChain fun a b => a.use ≠ none ∨ b.use ≠ none

namespace Region

/-- A region is tiled by good blocks between header and sentinels. -/
structure Ok (r : Region) : Prop where
  pos : 0 < r.base
  base : r.base % 16 = 0
  room : r.base + 48 ≤ r.last
  tiled : Tiled (r.base + 32) (r.last - 16) r.blocks
  blocks : ∀ b ∈ r.blocks, b.Ok
  coalesced : Coalesced r.blocks
  bound : r.last ≤ IDENTITY_MAX

/-- Two regions that do not overlap. -/
def Apart (r s : Region) : Prop := r.last ≤ s.base ∨ s.last ≤ r.base

instance : Std.Symm Apart := ⟨fun _ _ => Or.symm⟩

/-- The sentinels at both ends, with their footers. -/
structure Sentinels (mem : Words) (r : Region) : Prop where
  header : mem (r.base + 16) = SENTINEL
  footer : mem (r.base + 24) = SENTINEL
  endHeader : mem (r.last - 16) = SENTINEL
  endFooter : mem (r.last - 8) = SENTINEL

/-- The words of the sentinels. -/
def SentinelAt (r : Region) (w : Nat) : Prop :=
  w = r.base + 16 ∨ w = r.base + 24 ∨ w = r.last - 16 ∨ w = r.last - 8

variable {r : Region}

theorem Sentinels.frame {mem mem' : Words} (h : r.Sentinels mem)
    (hsame : ∀ w, r.SentinelAt w → mem' w = mem w) : r.Sentinels mem' where
  header := (hsame _ (.inl rfl)).trans h.header
  footer := (hsame _ (.inr (.inl rfl))).trans h.footer
  endHeader := (hsame _ (.inr (.inr (.inl rfl)))).trans h.endHeader
  endFooter := (hsame _ (.inr (.inr (.inr rfl)))).trans h.endFooter

theorem Ok.sentinel_range (h : r.Ok) {w : Nat} (hw : r.SentinelAt w) : r.base ≤ w ∧ w < r.last := by
  have := h.room
  unfold SentinelAt at hw
  omega

end Region

/-- All blocks. -/
def blocksOf (rs : List Region) : List Block := rs.flatMap Region.blocks

/-- Good regions that do not overlap. -/
structure RegionsOk (rs : List Region) : Prop where
  ok : ∀ r ∈ rs, r.Ok
  apart : rs.Pairwise Region.Apart

theorem RegionsOk.blockOk {rs : List Region} (h : RegionsOk rs) {b : Block}
    (hb : b ∈ blocksOf rs) : b.Ok := by
  obtain ⟨r, hr, hbr⟩ := mem_flatMap.mp hb
  exact (h.ok r hr).blocks b hbr

/-- A block lies inside its region, between the sentinels. -/
theorem Region.Ok.mem_range {r : Region} (h : r.Ok) {b : Block} (hb : b ∈ r.blocks) :
    r.base + 32 ≤ b.start ∧ b.last + 16 ≤ r.last := by
  have hroom := h.room
  have := h.tiled.mem b hb
  omega

/-- No two blocks overlap. -/
theorem RegionsOk.pairwise {rs : List Region} (h : RegionsOk rs) :
    (blocksOf rs).Pairwise Block.Apart := by
  refine pairwise_flatMap.mpr ⟨fun r hr => (h.ok r hr).tiled.pairwise, ?_⟩
  refine (pairwise_iff_forall_sublist.mpr ?_)
  intro r s hsub b hb c hc
  have hr := h.ok r (hsub.subset (by simp))
  have hs := h.ok s (hsub.subset (by simp))
  have hrs : r.Apart s := pairwise_iff_forall_sublist.mp h.apart hsub
  have hb' := hr.mem_range hb
  have hc' := hs.mem_range hc
  rcases hrs with hrs | hrs
  · exact .inl (by omega)
  · exact .inr (by omega)

/-! ## Replacing neighbouring blocks -/

/-- A place in one region, with what is around it. -/
structure Zipper where
  left : List Region
  base : Nat
  last : Nat
  before : List Block
  after : List Block
  right : List Region

namespace Zipper

variable (z : Zipper) {rs : List Region}

/-- The regions with the blocks `mid` at the place. -/
def fill (mid : List Block) : List Region :=
  z.left ++ ⟨z.base, z.last, z.before ++ mid ++ z.after⟩ :: z.right

/-- All other blocks. -/
def rest : List Block := blocksOf z.left ++ (z.before ++ z.after) ++ blocksOf z.right

variable {z} {mid : List Block} {b : Block}

theorem mem_blocksOf : b ∈ blocksOf (z.fill mid) ↔ b ∈ mid ∨ b ∈ z.rest := by
  simp only [blocksOf, fill, rest, flatMap_append, flatMap_cons, mem_append]
  tauto

theorem blocksOf_perm (mid : List Block) : (blocksOf (z.fill mid)).Perm (mid ++ z.rest) := by
  rw [← Multiset.coe_eq_coe]
  simp only [blocksOf, fill, rest, flatMap_append, flatMap_cons, ← Multiset.coe_add]
  abel

/-- Every block of the regions has its place. -/
theorem exists_of_mem (hb : b ∈ blocksOf rs) : ∃ z : Zipper, rs = z.fill [b] := by
  obtain ⟨r, hr, hbr⟩ := mem_flatMap.mp hb
  obtain ⟨left, right, rfl⟩ := append_of_mem hr
  obtain ⟨before, after, hblocks⟩ := append_of_mem hbr
  refine ⟨⟨left, r.base, r.last, before, after, right⟩, ?_⟩
  simp [fill, ← hblocks]

/-- The regions keep their places. -/
theorem map_fill (mid mid' : List Block) : (z.fill mid).map (fun r => (r.base, r.last)) =
    (z.fill mid').map fun r => (r.base, r.last) := by
  simp [fill]

/-- Where the place begins and ends. -/
structure Span (z : Zipper) (s e : Nat) : Prop where
  before : Tiled (z.base + 32) s z.before
  after : Tiled e (z.last - 16) z.after
  le : s ≤ e

section

variable (h : RegionsOk (z.fill mid))

include h

theorem exists_span : ∃ s e, z.Span s e ∧ Tiled s e mid := by
  have htiled := (h.ok _ (mem_append_right _ mem_cons_self)).tiled
  rw [tiled_append] at htiled
  obtain ⟨e, hbm, hafter⟩ := htiled
  obtain ⟨s, hbefore, hmid⟩ := tiled_append.mp hbm
  exact ⟨s, e, ⟨hbefore, hafter, hmid.le⟩, hmid⟩

/-- The region of the place. -/
theorem here_ok : Region.Ok ⟨z.base, z.last, z.before ++ mid ++ z.after⟩ :=
  h.ok _ (mem_append_right _ mem_cons_self)

variable {s e : Nat} (hspan : z.Span s e)

include hspan

/-- Other regions do not overlap the place. -/
theorem other_apart {r : Region} (hr : r ∈ z.left ∨ r ∈ z.right) :
    r.Ok ∧ (r.last ≤ s ∨ e ≤ r.base) := by
  have hle := hspan.before.le
  have hge := hspan.after.le
  obtain ⟨-, hright, hleft⟩ := pairwise_append.mp h.apart
  rcases hr with hr | hr
  · have hapart : r.last ≤ z.base ∨ z.last ≤ r.base := hleft r hr _ mem_cons_self
    exact ⟨h.ok r (mem_append_left _ hr), by omega⟩
  · have hapart : z.last ≤ r.base ∨ r.last ≤ z.base := rel_of_pairwise_cons hright hr
    exact ⟨h.ok r (mem_append_right _ (mem_cons_of_mem _ hr)), by omega⟩

/-- The other blocks do not overlap the place. -/
theorem rest_apart (hb : b ∈ z.rest) : b.last ≤ s ∨ e ≤ b.start := by
  have hother (r : Region) (hr : r ∈ z.left ∨ r ∈ z.right) (hbr : b ∈ r.blocks) :
      b.last ≤ s ∨ e ≤ b.start := by
    obtain ⟨hok, hapart⟩ := other_apart h hspan hr
    have := hok.mem_range hbr
    omega
  simp only [rest, mem_append] at hb
  rcases hb with (hb | hb | hb) | hb
  · obtain ⟨r, hr, hbr⟩ := mem_flatMap.mp hb
    exact hother r (.inl hr) hbr
  · exact .inl (hspan.before.mem b hb).2
  · exact .inr (hspan.after.mem b hb).1
  · obtain ⟨r, hr, hbr⟩ := mem_flatMap.mp hb
    exact hother r (.inr hr) hbr

/-- **Replacing** the blocks at a place by others that tile the same span. -/
theorem regionsOk_fill {mid' : List Block} (htiled : Tiled s e mid') (hok : ∀ b ∈ mid', b.Ok)
    (hcoal : Coalesced (z.before ++ mid' ++ z.after)) : RegionsOk (z.fill mid') := by
  have hhere := here_ok h
  constructor
  · obtain ⟨hleft, hright⟩ := forall_mem_append.mp h.ok
    refine forall_mem_append.mpr ⟨hleft, forall_mem_cons.mpr ⟨⟨hhere.pos, hhere.base, hhere.room,
      ?_, ?_, hcoal, hhere.bound⟩, (forall_mem_cons.mp hright).2⟩⟩
    · exact tiled_append.mpr ⟨e, tiled_append.mpr ⟨s, hspan.before, htiled⟩, hspan.after⟩
    · obtain ⟨hbefore, hafter⟩ := forall_mem_append.mp hhere.blocks
      exact forall_mem_append.mpr
        ⟨forall_mem_append.mpr ⟨(forall_mem_append.mp hbefore).1, hok⟩, hafter⟩
  · obtain ⟨hleft, hright, hcross⟩ := pairwise_append.mp h.apart
    obtain ⟨hhd, htl⟩ := pairwise_cons.mp hright
    refine pairwise_append.mpr ⟨hleft, pairwise_cons.mpr ⟨hhd, htl⟩, fun r hr => ?_⟩
    obtain ⟨hself, hlater⟩ := forall_mem_cons.mp (hcross r hr)
    exact forall_mem_cons.mpr ⟨hself, hlater⟩

end

/-- The words of the sentinels are in no block and not at the place. -/
theorem sentinel_apart (h : RegionsOk rs) {r : Region} (hr : r ∈ rs)
    (hb : b ∈ blocksOf rs) {w : Nat} (hw : r.SentinelAt w) : ¬ (b.start ≤ w ∧ w < b.last) := by
  unfold Region.SentinelAt at hw
  obtain ⟨r', hr', hbr⟩ := mem_flatMap.mp hb
  have hroom := (h.ok r hr).room
  have hin := (h.ok r' hr').mem_range hbr
  by_cases heq : r = r'
  · subst heq
    omega
  · have hapart : r.Apart r' := h.apart.forall hr hr' heq
    rcases hapart with hapart | hapart <;> omega

end Zipper

end NopeekOS.Mm
