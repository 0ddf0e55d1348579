import NopeekOS.Lib.Run
import NopeekOS.Mm.HeapFree

/-!
# The heap over whole runs

The search of an allocation visits bins; every node it looks at is a free block, so a
block that it takes can be placed (`HeapInv.place`). With `HeapInv.deallocate` and
`HeapInv.addRegion` every call keeps `HeapInv`, and the uses of the blocks are the
allocations that are live. The owners of live allocations write into them, and the
rest of the machine writes outside of the regions; neither touches a word the heap
relies on.
-/

namespace NopeekOS.Mm

open Lib List

variable {h : Heap} {rs : List Region}

/-! ## The search -/

/-- The walk over a bin is a search in its list. -/
theorem Heap.walkBin_eq_find? (size align : Nat) {l : List Nat} {p : Nat}
    (hseg : Seg h.mem (fun n => h.mem (n + 8)) p l 0) (hz : 0 ∉ l) {fuel : Nat}
    (hfuel : l.length ≤ fuel) :
    h.walkBin size align fuel (l.headD 0) = (l.map (· - TAG)).find? fun block =>
      decide ((needFor block size align).2 ≤ sizeOfBlock h.mem block) := by
  induction l generalizing p fuel with
  | nil => cases fuel <;> rfl
  | cons n l ih =>
    obtain ⟨-, hnext, hrest⟩ := hseg
    obtain ⟨fuel, rfl⟩ : ∃ k, fuel = k + 1 := Nat.exists_eq_succ_of_ne_zero (by
      intro h0
      simp [h0] at hfuel)
    have hn : n ≠ 0 := fun h0 => hz (h0 ▸ mem_cons_self)
    have hfuel' : l.length ≤ fuel := Nat.le_of_succ_le_succ hfuel
    show h.walkBin size align (fuel + 1) n = _
    rw [walkBin, if_neg hn, map_cons, find?_cons]
    by_cases hfit : (needFor (n - TAG) size align).2 ≤ sizeOfBlock h.mem (n - TAG)
    · simp only [hfit, if_pos, decide_true]
    simp only [hfit, if_false, decide_false]
    have hhead : h.mem (n + 8) = l.headD 0 := hnext
    rw [hhead]
    exact ih hrest (fun h0 => hz (mem_cons_of_mem _ h0)) hfuel'

theorem length_le_spanSize {bs : List Block} (h : ∀ b ∈ bs, b.Ok) : bs.length ≤ spanSize bs := by
  have hsize := length_le_sum_of_one_le (bs.map Block.size)
    (forall_mem_map.mpr fun b hb => Nat.le_trans (by decide) (h b hb).min)
  rwa [length_map] at hsize

/-- There are fewer blocks than bytes. -/
theorem HeapInv.length_le (hinv : HeapInv h rs) : (blocksOf rs).length ≤ h.totalSize := by
  rw [hinv.total, blocksOf, length_flatMap]
  refine sum_le_sum fun r hr => ?_
  have hr := hinv.layout.ok r hr
  have := length_le_spanSize hr.blocks
  have := hr.tiled.size_eq
  have := hr.room
  omega

/-- A free block with room in one of `n` bins from `b` on. -/
def Block.Serves (size align b n : Nat) (c : Block) : Prop :=
  c.use = none ∧ b ≤ binOf c.size ∧ binOf c.size < b + n ∧
    (Heap.needFor c.start size align).2 ≤ c.size

section

variable (hinv : HeapInv h rs) (size align : Nat)

include hinv

/-- The walk over a bin finds a free block with room, if there is one. -/
theorem HeapInv.walkBin (b : Nat) :
    (∀ block, h.walkBin size align h.totalSize (h.bins b) = some block →
      ∃ c ∈ blocksOf rs, c.Serves size align b 1 ∧ c.start = block) ∧
    (h.walkBin size align h.totalSize (h.bins b) = none →
      ∀ c ∈ blocksOf rs, ¬ c.Serves size align b 1) := by
  obtain ⟨lists, hok, hfree⟩ := hinv.bins
  have hat := hok.at_ b
  -- The nodes of the list are blocks, so the walk does not run out.
  have hsub : lists b ⊆ (blocksOf rs).map fun c => c.start + 8 := by
    intro n hn
    obtain ⟨c, hc, -, rfl, -⟩ := (hfree b n).mp hn
    exact mem_map_of_mem hc
  have hlen : (lists b).length ≤ h.totalSize := by
    have := (hat.nodup.subperm hsub).length_le
    rw [length_map] at this
    exact Nat.le_trans this hinv.length_le
  rw [hat.head, Heap.walkBin_eq_find? size align hat.seg hat.ne_zero hlen]
  refine ⟨fun block hfind => ?_, fun hfind c hc => ?_⟩
  · obtain ⟨n, hn, rfl⟩ := mem_map.mp (mem_of_find?_eq_some hfind)
    obtain ⟨c, hc, huse, rfl, rfl⟩ := (hfree b n).mp hn
    have hstart : c.start + 8 - TAG = c.start := Nat.add_sub_cancel ..
    have hfits := find?_some hfind
    rw [decide_eq_true_eq, hstart, hinv.sizeOfBlock hc] at hfits
    exact ⟨c, hc, ⟨huse, Nat.le_refl _, Nat.lt_succ_self _, hfits⟩, hstart.symm⟩
  · rintro ⟨huse, hle, hlt, hfits⟩
    have hn : c.start + 8 ∈ lists b := (hfree b _).mpr ⟨c, hc, huse, rfl, by omega⟩
    have hno := find?_eq_none.mp hfind c.start (mem_map.mpr ⟨_, hn, Nat.add_sub_cancel ..⟩)
    rw [decide_eq_true_eq, hinv.sizeOfBlock hc] at hno
    exact hno hfits

theorem HeapInv.walkBins (n b : Nat) : (∀ block, h.walkBins size align n b = some block →
      ∃ c ∈ blocksOf rs, c.Serves size align b n ∧ c.start = block) ∧
    (h.walkBins size align n b = none → ∀ c ∈ blocksOf rs, ¬ c.Serves size align b n) := by
  induction n generalizing b with
  | zero =>
    refine ⟨nofun, fun _ c _ ⟨_, hle, hlt, _⟩ => ?_⟩
    omega
  | succ n ih =>
    rw [Heap.walkBins]
    obtain ⟨hhere, hnone⟩ := hinv.walkBin size align b
    obtain ⟨hlater, hnone'⟩ := ih (b + 1)
    refine ⟨fun block hfind => ?_, fun hfind c hc ⟨huse, hle, hlt, hfits⟩ => ?_⟩
    · rcases Option.or_eq_some_iff.mp hfind with hfind | ⟨-, hfind⟩
      · obtain ⟨c, hc, ⟨huse, hle, hlt, hfits⟩, hstart⟩ := hhere block hfind
        exact ⟨c, hc, ⟨huse, hle, by omega, hfits⟩, hstart⟩
      · obtain ⟨c, hc, ⟨huse, hle, hlt, hfits⟩, hstart⟩ := hlater block hfind
        exact ⟨c, hc, ⟨huse, by omega, by omega, hfits⟩, hstart⟩
    · obtain ⟨hfind, hfind'⟩ := Option.or_eq_none_iff.mp hfind
      by_cases hbin : binOf c.size = b
      · exact hnone hfind c hc ⟨huse, hle, by omega, hfits⟩
      · exact hnone' hfind' c hc ⟨huse, by omega, by omega, hfits⟩

end

/-! ## Allocating -/

/-- The live allocations after an allocation. -/
def keepLive (layout : Layout) (live : List Use) : Option Nat → List Use
  | none => live
  | some ptr => ⟨ptr, layout⟩ :: live

/-- **One attempt.** -/
theorem HeapInv.tryAllocate (hinv : HeapInv h rs) (layout : Layout) :
    ∃ rs', HeapInv (h.tryAllocate layout).2 rs' ∧
      (keepLive layout (usesOf (blocksOf rs)) (h.tryAllocate layout).1).Perm
        (usesOf (blocksOf rs')) := by
  unfold Heap.tryAllocate
  dsimp only
  split
  next => exact ⟨rs, hinv, .refl _⟩
  next block hfind =>
    obtain ⟨c, hc, ⟨huse, -, -, hfit⟩, rfl⟩ := (hinv.walkBins _ _ _ _).1 block hfind
    obtain ⟨z, rfl⟩ := Zipper.exists_of_mem hc
    obtain ⟨mid, hmid, hinv'⟩ := hinv.place huse layout hfit
    refine ⟨z.fill mid, hinv', ?_⟩
    have hold : (usesOf (blocksOf (z.fill [c]))).Perm (usesOf z.rest) := by
      refine (usesOf_fill z [c]).trans (.of_eq ?_)
      simp [usesOf, huse]
    refine List.Perm.trans ?_ (usesOf_fill z mid).symm
    rw [hmid]
    exact hold.cons _

/-- The regions after an attempt are those before. -/
theorem HeapInv.regions_tryAllocate (h : Heap) (layout : Layout) :
    (h.tryAllocate layout).2.regions = h.regions := by
  unfold Heap.tryAllocate Heap.place
  dsimp only
  split
  · rfl
  · split <;> rfl

/-- **Allocating**, from a region that the frame allocator gave if need be. -/
theorem HeapInv.allocate (hinv : HeapInv h rs) (layout : Layout) {grown : Option (Nat × Nat)}
    (hgrown : ∀ g ∈ grown, Fresh h.regions g.1 g.2) :
    ∃ rs', HeapInv (h.allocate layout grown).2 rs' ∧
      (keepLive layout (usesOf (blocksOf rs)) (h.allocate layout grown).1).Perm
        (usesOf (blocksOf rs')) := by
  obtain ⟨rs₁, hinv₁, hlive₁⟩ := hinv.tryAllocate layout
  have hsame := HeapInv.regions_tryAllocate h layout
  unfold Heap.allocate
  generalize h.tryAllocate layout = r at hinv₁ hlive₁ hsame ⊢
  obtain ⟨_ | ptr, h₁⟩ := r
  · cases grown with
    | none => exact ⟨rs₁, hinv₁, hlive₁⟩
    | some g =>
      obtain ⟨base, size⟩ := g
      have hfresh : Fresh h₁.regions base size := hsame ▸ hgrown _ rfl
      obtain ⟨rs₂, hinv₂, hlive₂⟩ := (hinv₁.addRegion hfresh).tryAllocate layout
      refine ⟨rs₂, hinv₂, List.Perm.trans ?_ hlive₂⟩
      -- The new region brings no use.
      have huses : usesOf (blocksOf (freshRegion base size :: rs₁)) = usesOf (blocksOf rs₁) := rfl
      rw [huses]
      cases ((h₁.addRegion base size).tryAllocate layout).1 with
      | none => exact hlive₁
      | some ptr => exact hlive₁.cons _
  · exact ⟨rs₁, hinv₁, hlive₁⟩


/-! ## What others write -/

/-- Payloads that do not overlap. -/
def Use.Apart (u v : Use) : Prop :=
  u.ptr + u.layout.size ≤ v.ptr ∨ v.ptr + v.layout.size ≤ u.ptr

instance : Std.Symm Use.Apart := ⟨fun _ _ => Or.symm⟩

/-- The words that writes of others do not touch: those of the regions outside of the
live payloads. -/
def SameOutside (h : Heap) (live : List Use) (mem : Words) : Prop :=
  ∀ r ∈ h.regions, ∀ w, r.1 ≤ w → w < r.2 → (∀ u ∈ live, ¬ u.Covers w) → mem w = h.mem w

/-- A word of a block is in no payload but its own. -/
theorem HeapInv.not_covers (hinv : HeapInv h rs) {b : Block} (hb : b ∈ blocksOf rs) {w : Nat}
    (hlo : b.start ≤ w) (hhi : w < b.last) (hown : ∀ u ∈ b.use, ¬ u.Covers w) :
    ∀ u ∈ usesOf (blocksOf rs), ¬ u.Covers w := by
  intro u hu hcov
  obtain ⟨c, hc, huse⟩ := mem_filterMap.mp hu
  by_cases heq : c = b
  · exact hown u (heq ▸ huse) hcov
  obtain ⟨hge, hle, -, -⟩ := (hinv.layout.blockOk hc).use u huse
  have hapart : c.Apart b := hinv.layout.pairwise.forall hc hb heq
  unfold Use.Covers at hcov
  rcases hapart with h | h <;> omega

/-- **Writes of others** keep the invariant. -/
theorem HeapInv.write (hinv : HeapInv h rs) {mem : Words}
    (hsame : SameOutside h (usesOf (blocksOf rs)) mem) : HeapInv { h with mem := mem } rs := by
  have hregion {r : Region} (hr : r ∈ rs) : (r.base, r.last) ∈ h.regions := by
    rw [hinv.regions]
    exact mem_map_of_mem hr
  -- A word of a block outside of its own payload.
  have hblock {b : Block} (hb : b ∈ blocksOf rs) {w : Nat} (hlo : b.start ≤ w) (hhi : w < b.last)
      (hown : ∀ u ∈ b.use, ¬ u.Covers w) : mem w = h.mem w := by
    obtain ⟨r, hr, hbr⟩ := mem_flatMap.mp hb
    have hrange := (hinv.layout.ok r hr).mem_range hbr
    refine hsame _ (hregion hr) w ?_ ?_ (hinv.not_covers hb hlo hhi hown)
    · exact Nat.le_trans (by omega) hlo
    · exact Nat.lt_of_lt_of_le hhi (by omega)
  refine ⟨hinv.regions, hinv.total, hinv.layout, fun r hr => ?_, fun b hb => ?_, ?_, hinv.bytes⟩
  · -- Sentinels are outside of all blocks.
    refine (hinv.sentinels r hr).frame fun w hw => ?_
    have hrange := (hinv.layout.ok r hr).sentinel_range hw
    refine hsame _ (hregion hr) w hrange.1 hrange.2 fun u hu hcov => ?_
    obtain ⟨b, hb, huse⟩ := mem_filterMap.mp hu
    obtain ⟨hge, hle, -, -⟩ := (hinv.layout.blockOk hb).use u huse
    unfold Use.Covers at hcov
    exact Zipper.sentinel_apart hinv.layout hr hb hw (by omega)
  · exact (hinv.blocks b hb).frame (hinv.layout.blockOk hb) fun w hlo hhi _ => hblock hb hlo hhi
  · -- The list pointers are in free blocks.
    refine hinv.bins.frame fun w hw => ?_
    obtain ⟨b, hb, hlink⟩ := hw
    have hrange := hlink.mem_range (hinv.layout.blockOk hb)
    refine hblock hb hrange.1 hrange.2 fun u hu => ?_
    rw [hlink.1] at hu
    cases hu

/-! ## Runs -/

/-- The heap with the allocations that are live. -/
structure HeapState where
  heap : Heap
  live : List Use

/-- The calls, with what the frame allocator gave and what others wrote. -/
inductive HeapCall
  | allocate (layout : Layout) (grown : Option (Nat × Nat))
  | deallocate (u : Use)
  | grow (base size : Nat)
  | write (mem : Words)

/-- One call. A freed pointer is a live one. -/
inductive HeapStep : HeapState → HeapCall → HeapState → Prop
  | allocate {h : Heap} {live : List Use} (layout : Layout) (grown : Option (Nat × Nat))
      (hgrown : ∀ g ∈ grown, Fresh h.regions g.1 g.2) :
      HeapStep ⟨h, live⟩ (.allocate layout grown)
        ⟨(h.allocate layout grown).2, keepLive layout live (h.allocate layout grown).1⟩
  | deallocate {h : Heap} {live rest : List Use} (u : Use) (hu : live.Perm (u :: rest)) :
      HeapStep ⟨h, live⟩ (.deallocate u) ⟨h.deallocate u.ptr, rest⟩
  | grow {h : Heap} {live : List Use} (base size : Nat) (hf : Fresh h.regions base size) :
      HeapStep ⟨h, live⟩ (.grow base size) ⟨h.addRegion base size, live⟩
  | write {h : Heap} {live : List Use} (mem : Words) (hsame : SameOutside h live mem) :
      HeapStep ⟨h, live⟩ (.write mem) ⟨{ h with mem := mem }, live⟩

/-- The invariant of runs: the uses of the blocks are the live allocations. -/
def HeapState.Ok (s : HeapState) : Prop :=
  ∃ rs, HeapInv s.heap rs ∧ s.live.Perm (usesOf (blocksOf rs))

/-- **One call** keeps the invariant. -/
theorem HeapStep.ok {s s' : HeapState} {call : HeapCall} (hstep : HeapStep s call s')
    (hs : s.Ok) : s'.Ok := by
  obtain ⟨rs, hinv, hlive⟩ := hs
  cases hstep with
  | allocate layout grown hgrown =>
    obtain ⟨rs', hinv', hlive'⟩ := hinv.allocate layout hgrown
    refine ⟨rs', hinv', List.Perm.trans ?_ hlive'⟩
    cases (Heap.allocate _ layout grown).1 with
    | none => exact hlive
    | some ptr => exact hlive.cons _
  | deallocate u hu =>
    have hperm := hu.symm.trans hlive
    obtain ⟨rs', hinv', hlive'⟩ := hinv.deallocate (hperm.mem_iff.mp mem_cons_self)
    exact ⟨rs', hinv', (hperm.trans hlive').cons_inv⟩
  | grow base size hf => exact ⟨_, hinv.addRegion hf, hlive⟩
  | write mem hsame =>
    refine ⟨rs, hinv.write fun r hr w hlo hhi hout => ?_, hlive⟩
    exact hsame r hr w hlo hhi fun u hu => hout u (hlive.mem_iff.mp hu)

/-- The payloads of blocks do not overlap. -/
theorem HeapInv.uses_apart (hinv : HeapInv h rs) : (usesOf (blocksOf rs)).Pairwise Use.Apart := by
  refine (List.Pairwise.and_mem.mp hinv.layout.pairwise).filterMap _ ?_
  rintro b c ⟨hb, hc, hbc⟩ u hu v hv
  obtain ⟨hge, hle, -, -⟩ := (hinv.layout.blockOk hb).use u hu
  obtain ⟨hge', hle', -, -⟩ := (hinv.layout.blockOk hc).use v hv
  rcases hbc with h | h
  · exact .inl (by omega)
  · exact .inr (by omega)

/-- A live allocation in the blocks `bs`: aligned as asked, and in one block behind tag
and header and before the footer. -/
def Use.In (bs : List Block) (u : Use) : Prop :=
  u.layout.align ∣ u.ptr ∧
    ∃ b ∈ bs, b.use = some u ∧ b.start + 24 ≤ u.ptr ∧ u.ptr + u.layout.size + 8 ≤ b.last

/-- **Main result.** From any first region and after any calls, the heap has the blocks
of `HeapInv`: they tile the regions, the free ones are those of the bins, no two
neighbours are free, and the bytes are counted right. The live allocations are the uses
of the blocks, each in its own block and aligned, and no two overlap. -/
theorem heap_run {mem : Words} {base size : Nat} {calls : List HeapCall} {s : HeapState}
    (hf : Fresh [] base size)
    (hrun : Run HeapStep ⟨(Heap.empty mem).init base size, []⟩ calls s) :
    ∃ rs, HeapInv s.heap rs ∧ s.live.Perm (usesOf (blocksOf rs)) ∧
      (∀ u ∈ s.live, u.In (blocksOf rs)) ∧ s.live.Pairwise Use.Apart := by
  have hstart : HeapState.Ok ⟨(Heap.empty mem).init base size, []⟩ :=
    ⟨_, heapInv_init mem hf, .refl _⟩
  obtain ⟨rs, hinv, hlive⟩ := hrun.invariant (fun _ _ _ hs hstep => hstep.ok hs) hstart
  refine ⟨rs, hinv, hlive, fun u hu => ?_, (hlive.pairwise_iff Or.symm).mpr hinv.uses_apart⟩
  obtain ⟨b, hb, huse⟩ := mem_filterMap.mp (hlive.mem_iff.mp hu)
  obtain ⟨hge, hle, -, halign⟩ := (hinv.layout.blockOk hb).use u huse
  exact ⟨halign, b, hb, huse, hge, hle⟩

/-- A layout of 100 bytes at 64. -/
def hundredBytes : Layout := ⟨100, 64, ⟨6, rfl⟩, by decide⟩

/-- One page, with 100 bytes of it allocated. -/
theorem heap_run_onePage :
    ((((Heap.empty fun _ => 0).init 4096 4096).allocate hundredBytes none).1 = some 4160) ∧
      ∃ rs, HeapInv (((Heap.empty fun _ => 0).init 4096 4096).allocate hundredBytes none).2 rs ∧
        [⟨4160, hundredBytes⟩].Perm (usesOf (blocksOf rs)) := by
  have hptr : (((Heap.empty fun _ => 0).init 4096 4096).allocate hundredBytes none).1 = some 4160 := by
    decide +kernel
  have hfresh : Fresh [] 4096 4096 :=
    ⟨by decide, by decide, by decide, by decide, by decide, by simp⟩
  obtain ⟨rs, hinv, hlive, -, -⟩ := @heap_run (fun _ => 0) 4096 4096 _ _ hfresh
    (.cons (.allocate hundredBytes none (by simp)) (.nil _))
  refine ⟨hptr, rs, hinv, ?_⟩
  rw [hptr] at hlive
  exact hlive

end NopeekOS.Mm
