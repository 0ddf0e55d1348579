import NopeekOS.Mm.HeapInv

/-!
# The operations of the heap keep its invariant

Each operation is shown to replace the blocks at one place: allocation a free block
by an allocated one and what is left of it, release an allocated block and its free
neighbours by one free block. Adding a region adds one that is all one free block.
-/

namespace NopeekOS.Mm

open Lib Function Zipper List Heap

/-- The allocations in some blocks. -/
def usesOf (bs : List Block) : List Use := bs.filterMap Block.use

theorem usesOf_fill (z : Zipper) (mid : List Block) :
    (usesOf (blocksOf (z.fill mid))).Perm (usesOf mid ++ usesOf z.rest) := by
  unfold usesOf
  rw [← filterMap_append]
  exact (blocksOf_perm mid).filterMap _

/-! ## Payloads -/

/-- The alignment that is used: at least that of blocks. -/
theorem max_align (layout : Layout) :
    ∃ k, max layout.align BLOCK_ALIGN = 2 ^ k ∧ 4 ≤ k ∧ layout.align ∣ 2 ^ k := by
  obtain ⟨j, hj⟩ := layout.pow
  rw [hj]
  rcases Nat.le_total j 4 with h | h
  · refine ⟨4, ?_, Nat.le_refl 4, Nat.pow_dvd_pow 2 h⟩
    exact Nat.max_eq_right (Nat.pow_le_pow_right (by decide) h)
  · refine ⟨j, ?_, h, Nat.dvd_refl _⟩
    exact Nat.max_eq_left (Nat.pow_le_pow_right (n := 2) (by decide) h)

/-- A payload that `need_for` chose, and the size of its block. -/
structure Placed (block : Nat) (layout : Layout) (data need : Nat) : Prop where
  header : block + 24 ≤ data
  footer : data + layout.size + 8 ≤ block + need
  even : data % 16 = 0
  align : layout.align ∣ data
  size : need % 16 = 0
  min : 32 ≤ need

variable {block : Nat} {before after : List Block}

/-- **`need_for`** places the payload, and takes no more than the alignment calls for. -/
theorem needFor_spec (hblock : block ≤ IDENTITY_MAX) (layout : Layout) :
    Placed block layout (needFor block layout.size (max layout.align BLOCK_ALIGN)).1
      (needFor block layout.size (max layout.align BLOCK_ALIGN)).2 ∧
    ∀ body, block % 16 = 0 → body % 16 = 0 → layout.size + 24 + max layout.align 16 ≤ body →
      (needFor block layout.size (max layout.align BLOCK_ALIGN)).2 ≤ body := by
  obtain ⟨k, hk, hk4, hdvd⟩ := max_align layout
  have hbound := layout.bound
  have hmax : 2 ^ k ≤ layout.align + 16 := by
    rw [← hk]
    exact Nat.max_le.mpr ⟨Nat.le_add_right _ _, Nat.le_add_left _ _⟩
  have h16 : 16 ∣ 2 ^ k := Nat.pow_dvd_pow 2 hk4
  unfold IDENTITY_MAX at hblock
  rw [hk]
  obtain ⟨hle, hlt, halign⟩ := alignUp_two_pow (x := block + TAG + HEADER_SIZE) (k := k)
    (by show block + 8 + 16 + 2 ^ k ≤ 2 ^ 64; omega)
  change block + 8 + 16 ≤ _ at hle
  change _ < block + 8 + 16 + 2 ^ k at hlt
  dsimp only [needFor]
  generalize alignUp (block + TAG + HEADER_SIZE) (2 ^ k) = data at *
  obtain ⟨hge, hless, hsize⟩ := alignUp_two_pow (x := data - block + layout.size + TAG) (k := 4)
    (by show _ + 8 + 2 ^ 4 ≤ 2 ^ 64; omega)
  change data - block + layout.size + 8 ≤ alignUp (data - block + layout.size + TAG) 16 at hge
  change alignUp (data - block + layout.size + TAG) 16 < data - block + layout.size + 8 + 16 at hless
  change 16 ∣ alignUp (data - block + layout.size + TAG) 16 at hsize
  generalize alignUp (data - block + layout.size + TAG) 16 = total at *
  have h16data : 16 ∣ data := h16.trans halign
  constructor
  · refine ⟨by omega, by omega, Nat.mod_eq_zero_of_dvd h16data, hdvd.trans halign, ?_, by omega⟩
    rcases Nat.le_total total 32 with h | h
    · rw [Nat.max_eq_right h]
    · rw [Nat.max_eq_left h]
      exact Nat.mod_eq_zero_of_dvd hsize
  · intro body hblock16 hbody16 hroom
    show max total 32 ≤ body
    omega

/-! ## Allocation -/

/-- A free block has allocated neighbours. -/
theorem Coalesced.around {b : Block} (h : Coalesced (before ++ [b] ++ after)) (hb : b.use = none) :
    Coalesced before ∧ Coalesced after ∧ (∀ x ∈ before.getLast?, x.use ≠ none) ∧
      ∀ y ∈ after.head?, y.use ≠ none := by
  obtain ⟨hbb, hafter, hright⟩ := isChain_append.mp h
  obtain ⟨hbefore, -, hleft⟩ := isChain_append.mp hbb
  refine ⟨hbefore, hafter, fun x hx => ?_, fun y hy => ?_⟩
  · exact (hleft x hx b rfl).resolve_right (fun hne => hne hb)
  · exact (hright b (by simp) y hy).resolve_left (fun hne => hne hb)

variable {mid : List Block}

/-- Putting blocks between neighbours that are not free. -/
theorem Coalesced.between (hbefore : Coalesced before)
    (hmid : Coalesced mid) (hafter : Coalesced after)
    (hleft : ∀ x ∈ before.getLast?, ∀ y ∈ mid.head?, x.use ≠ none ∨ y.use ≠ none)
    (hright : ∀ x ∈ mid.getLast?, ∀ y ∈ after.head?, x.use ≠ none ∨ y.use ≠ none) (hne : mid ≠ []) :
    Coalesced (before ++ mid ++ after) := by
  refine isChain_append.mpr ⟨isChain_append.mpr ⟨hbefore, hmid, hleft⟩, hafter, ?_⟩
  intro x hx y hy
  rw [getLast?_append_of_ne_nil _ hne] at hx
  exact hright x hx y hy

/-- The writes to a block that leave the list pointers of the others alone. -/
theorem Zipper.rest_not_link {z : Zipper} (h : RegionsOk (z.fill mid)) {s e : Nat}
    (hspan : z.Span s e) {w : Nat} (hw : LinkOf z.rest w) : w < s ∨ e ≤ w := by
  obtain ⟨b, hb, hlink⟩ := hw
  have hrange := hlink.mem_range (h.blockOk (mem_blocksOf.mpr (.inr hb)))
  rcases rest_apart h hspan hb with h | h <;> omega

variable {h h₁ : Heap} {z : Zipper} {rs : List Region} {bytes : Nat}

/-- The blocks `mid` are about to be replaced: none of them is on a list, and of memory
only list pointers have changed. -/
structure Lifted (h : Heap) (rs : List Region) (z : Zipper) (mid : List Block) (bytes : Nat)
    (h₁ : Heap) : Prop where
  fill : rs = z.fill mid
  bins : Binned h₁.mem h₁.bins z.rest
  mem : ∀ w, ¬ LinkOf (blocksOf rs) w → h₁.mem w = h.mem w
  regions : h₁.regions = h.regions
  total : h₁.totalSize = h.totalSize
  bytes : h₁.allocatedBytes = bytes

/-- Taking a free block off its list on the way. -/
theorem Lifted.remove (hm : Lifted h rs z mid bytes h₁) {z' : Zipper} {mid' : List Block}
    {c : Block} (hlayout : RegionsOk rs) (hfill : rs = z'.fill mid') (huse : c.use = none)
    (hc : c ∈ mid') (hrest : ∀ x, x ∈ z.rest ↔ x = c ∨ x ∈ z'.rest) :
    Lifted h rs z' mid' bytes (h₁.binRemove c.start c.size) := by
  have hbins : Binned h₁.mem h₁.bins (c :: z'.rest) :=
    hm.bins.congr fun x _ => (hrest x).trans mem_cons.symm
  obtain ⟨s, e, hspan, htiled⟩ := exists_span (hfill ▸ hlayout)
  have hin := htiled.mem c hc
  have hmin := (hlayout.blockOk (hfill ▸ mem_blocksOf.mpr (.inl hc))).min
  have hlast : c.last = c.start + c.size := rfl
  obtain ⟨hbins', hmem'⟩ := binned_binRemove hbins huse fun hw => by
    have := rest_not_link (hfill ▸ hlayout) hspan hw
    omega
  refine ⟨hfill, hbins', fun w hw => ?_, hm.regions, hm.total, hm.bytes⟩
  rw [hmem' w, hm.mem w hw]
  rintro ⟨x, hx, hlink⟩
  refine hw ⟨x, ?_, hlink⟩
  rw [hfill, mem_blocksOf]
  rcases mem_cons.mp hx with rfl | hx
  · exact .inl hc
  · exact .inr hx

/-- Taking a free block off its list, before it is written to. -/
theorem HeapInv.unbin {b : Block} (hinv : HeapInv h (z.fill [b])) (huse : b.use = none) :
    Lifted h (z.fill [b]) z [b] h.allocatedBytes (h.binRemove b.start b.size) := by
  let z₀ : Zipper := { z with after := b :: z.after }
  have hfill : z.fill [b] = z₀.fill [] := by simp [Zipper.fill, z₀]
  have hbins : Binned h.mem h.bins z₀.rest :=
    hinv.bins.congr fun c _ => by rw [hfill, mem_blocksOf]; simp
  have hnone : Lifted h (z.fill [b]) z₀ [] h.allocatedBytes h :=
    ⟨hfill, hbins, fun _ _ => rfl, rfl, rfl, rfl⟩
  refine hnone.remove hinv.layout rfl huse mem_cons_self fun x => ?_
  simp only [rest, z₀, mem_append, mem_cons]
  grind

/-- The layout after an allocation. -/
theorem HeapInv.layout_place {b u : Block} {s e : Nat} (hinv : HeapInv h (z.fill [b]))
    (huse : b.use = none) (hspan : z.Span s e) (htiled : Tiled s e (u :: mid))
    (hok : ∀ c ∈ u :: mid, c.Ok) (hu : u.use ≠ none) (hmid : Coalesced mid) :
    RegionsOk (z.fill (u :: mid)) := by
  obtain ⟨hbefore, hafter, -, hright⟩ := (here_ok hinv.layout).coalesced.around huse
  refine regionsOk_fill hinv.layout hspan htiled hok ?_
  refine hbefore.between (isChain_cons.mpr ⟨fun _ _ => .inl hu, hmid⟩) hafter (fun _ _ c hc => ?_)
    (fun _ _ y hy => .inr (hright y hy)) (cons_ne_nil _ _)
  obtain rfl := Option.mem_some_iff.mp hc
  exact .inr hu

/-- Putting the way back in front of a payload. -/
def Heap.writeBack (mem : Words) (data block size : Nat) : Words :=
  update (update mem (data - HEADER_SIZE) block) (data - HEADER_SIZE + 8) size

variable {mem : Words} {size : Nat}

theorem Heap.writeBack_of_ne {data w : Nat} (h₁ : w ≠ data - 16) (h₂ : w ≠ data - 16 + 8) :
    writeBack mem data block size w = mem w := by
  rw [writeBack, update_of_ne h₂, update_of_ne h₁]

theorem Heap.writeBack_block {data : Nat} : writeBack mem data block size (data - 16) = block := by
  rw [writeBack, update_of_ne (Nat.ne_of_lt (Nat.lt_add_of_pos_right (by decide))),
    update_self]

theorem Heap.writeBack_size {data : Nat} (h : 16 ≤ data) :
    writeBack mem data block size (data - 8) = size := by
  rw [show data - 8 = data - 16 + 8 by omega]
  exact update_self ..

variable {layout : Layout} {data : Nat}

/-- An allocated block whose tags and way back have been written. -/
theorem Block.at_used (hplaced : Placed block layout data size) (hheader : mem block = size)
    (hfooter : mem (block + size - 8) = size) :
    Block.At (writeBack mem data block size) ⟨block, size, some ⟨data, layout⟩⟩ := by
  have hfront := hplaced.header
  have hback := hplaced.footer
  have hfirst : writeBack mem data block size block = size := by
    rw [writeBack_of_ne (by omega) (by omega), hheader]
  have hlast : writeBack mem data block size (block + size - 8) = size := by
    rw [writeBack_of_ne (by omega) (by omega), hfooter]
  refine ⟨hfirst, hlast, fun v hv => ?_⟩
  obtain rfl := Option.mem_some_iff.mp hv
  exact ⟨writeBack_block, writeBack_size (by omega)⟩

theorem Placed.blockOk (hplaced : Placed block layout data size) (hblock : block % 16 = 0) :
    Block.Ok ⟨block, size, some ⟨data, layout⟩⟩ := by
  refine ⟨hblock, hplaced.size, hplaced.min, fun v hv => ?_⟩
  obtain rfl := Option.mem_some_iff.mp hv
  exact ⟨hplaced.header, hplaced.footer, hplaced.even, hplaced.align⟩

variable {b : Block} {need s e : Nat}

section

variable (hinv : HeapInv h (z.fill [b])) (huse : b.use = none) (hspan : z.Span s e)
  (hstart : b.start = s) (hend : b.start + b.size = e)
  (hm : Lifted h (z.fill [b]) z [b] h.allocatedBytes h₁)

include hinv huse hspan hstart hend hm

/-- Allocating a whole block that was taken off its list. -/
theorem HeapInv.place_whole (hplaced : Placed b.start layout data b.size) : HeapInv { h₁ with
      mem := writeBack (setTags h₁.mem b.start b.size false) data b.start b.size
      allocatedBytes := h₁.allocatedBytes + b.size }
      (z.fill [⟨b.start, b.size, some ⟨data, layout⟩⟩]) := by
  have hused := hplaced.blockOk (hinv.layout.blockOk (mem_blocksOf.mpr (.inl mem_cons_self))).start
  have hheader := hplaced.header
  have hfooter := hplaced.footer
  -- Only words of the block are written.
  have hother (w : Nat) (hw : w < s ∨ e ≤ w) :
      writeBack (setTags h₁.mem b.start b.size false) data b.start b.size w = h₁.mem w := by
    rw [writeBack_of_ne (by omega) (by omega), setTags_of_ne _ (by omega) (by omega)]
  refine hinv.retile hspan ?_ hm.regions hm.total (fun w hout hw => ?_) (fun c hc => ?_) ?_ ?_
  · exact hinv.layout_place huse hspan ⟨hstart, hend⟩ (forall_mem_singleton.mpr hused)
      (Option.some_ne_none _) .nil
  · exact (hother w (by omega)).trans (hm.mem w hw)
  · obtain rfl := mem_singleton.mp hc
    exact Block.at_used hplaced (setTags_header hplaced.size (by omega) false)
      (setTags_footer false)
  · refine (hm.bins.frame fun w hw => hother w ?_).used (Option.some_ne_none _)
    exact rest_not_link hinv.layout hspan hw
  · simp [usedBytes, huse, hm.bytes]

/-- Allocating the front of a block that was taken off its list, the rest becoming a
free block. -/
theorem HeapInv.place_split (hplaced : Placed b.start layout data need)
    (hsplit : 32 ≤ b.size - need) {mem₁ : Words} {h₂ : Heap}
    (hmem₁ : mem₁ = setTags h₁.mem b.start need false) (hh₂ : h₂ = binPush
      { h₁ with mem := setTags mem₁ (b.start + need) (b.size - need) true }
      (b.start + need) (b.size - need)) :
    HeapInv { h₂ with
      mem := writeBack h₂.mem data b.start need
      allocatedBytes := h₂.allocatedBytes + need }
      (z.fill [⟨b.start, need, some ⟨data, layout⟩⟩, ⟨b.start + need, b.size - need, none⟩]) := by
  have hbok := hinv.layout.blockOk (mem_blocksOf.mpr (.inl mem_cons_self))
  have hstart16 := hbok.start
  have hsize16 := hbok.size
  have hneed := hplaced.size
  have hheader := hplaced.header
  have hfooter := hplaced.footer
  have hfree : Block.Ok ⟨b.start + need, b.size - need, none⟩ := by
    refine ⟨?_, ?_, hsplit, nofun⟩ <;> dsimp only <;> omega
  -- The tags of the front, then the free block behind it, then the way back.
  have hfront (w : Nat) (hw : w < s ∨ e ≤ w) : mem₁ w = h₁.mem w := by
    rw [hmem₁, setTags_of_ne _ (by omega) (by omega)]
  have hbins₁ : Binned mem₁ h₁.bins z.rest :=
    hm.bins.frame fun w hw => hfront w (rest_not_link hinv.layout hspan hw)
  obtain ⟨hat, hbins₂, hmem₂⟩ := @Binned.layFree z.rest { h₁ with mem := mem₁ }
    (b.start + need) (b.size - need) hbins₁ hfree.start hfree.size hsplit fun w hw => by
      have := rest_not_link hinv.layout hspan hw
      omega
  dsimp only at hat hbins₂ hmem₂
  rw [← hh₂] at hat hbins₂ hmem₂
  have hkeep (w : Nat) (hlo : s ≤ w) (hhi : w < b.start + need) : h₂.mem w = mem₁ w := by
    refine hmem₂ w (.inl hhi) fun hw => ?_
    have := rest_not_link hinv.layout hspan hw
    omega
  have hregions₂ : h₂.regions = h.regions := by rw [hh₂]; exact hm.regions
  have htotal₂ : h₂.totalSize = h.totalSize := by rw [hh₂]; exact hm.total
  have hbytes₂ : h₂.allocatedBytes = h.allocatedBytes := by rw [hh₂]; exact hm.bytes
  refine hinv.retile hspan ?_ hregions₂ htotal₂ (fun w hout hw => ?_) (fun c hc => ?_) ?_ ?_
  · refine hinv.layout_place huse hspan ⟨hstart, rfl, ?_⟩ (fun c hc => ?_)
      (Option.some_ne_none _) (.singleton _)
    · show b.start + need + (b.size - need) = e
      omega
    · rcases mem_pair.mp hc with rfl | rfl
      · exact hplaced.blockOk hstart16
      · exact hfree
  · -- Outside of the block only list pointers of other blocks were written.
    have hrest : ¬ LinkOf z.rest w := fun ⟨c, hc, hl⟩ => hw ⟨c, mem_blocksOf.mpr (.inr hc), hl⟩
    show writeBack h₂.mem data b.start need w = h.mem w
    rw [writeBack_of_ne (by omega) (by omega), hmem₂ w (by omega) hrest, hfront w (by omega)]
    exact hm.mem w hw
  · rcases mem_pair.mp hc with rfl | rfl
    · refine Block.at_used hplaced ?_ ?_
      · rw [hkeep _ (by omega) (by omega), hmem₁]
        exact setTags_header hneed (by omega) false
      · rw [hkeep _ (by omega) (by omega), hmem₁]
        exact setTags_footer false
    · refine hat.frame hfree fun w hlo hhi _ _ => ?_
      exact writeBack_of_ne (by dsimp only at hlo; omega) (by dsimp only at hlo; omega)
  · refine (hbins₂.frame fun w hw => ?_).used (Option.some_ne_none _)
    have hout : w < s ∨ b.start + need ≤ w := by
      obtain ⟨c, hc, hl⟩ := hw
      rcases mem_cons.mp hc with rfl | hc
      · exact .inr (hl.mem_range hfree).1
      · have := rest_not_link hinv.layout hspan ⟨c, hc, hl⟩
        omega
    exact writeBack_of_ne (by omega) (by omega)
  · simp [usedBytes, huse, hbytes₂]

end

/-- **Allocating from a free block** that is large enough. -/
theorem HeapInv.place (hinv : HeapInv h (z.fill [b])) (huse : b.use = none) (layout : Layout)
    (hfit : (needFor b.start layout.size (max layout.align BLOCK_ALIGN)).2 ≤ b.size) :
    ∃ mid, usesOf mid = [⟨(h.place b.start layout.size (max layout.align BLOCK_ALIGN)).1, layout⟩] ∧
      HeapInv (h.place b.start layout.size (max layout.align BLOCK_ALIGN)).2 (z.fill mid) := by
  obtain ⟨s, e, hspan, hstart, hlast⟩ := exists_span hinv.layout
  have hb : b ∈ blocksOf (z.fill [b]) := mem_blocksOf.mpr (.inl mem_cons_self)
  have hbound : b.start ≤ IDENTITY_MAX := Nat.le_trans (Nat.le_add_right _ _) (hinv.size_lt hb)
  have hplaced := (needFor_spec hbound layout).1
  have hm := hinv.unbin huse
  rcases hnf : needFor b.start layout.size (max layout.align BLOCK_ALIGN) with ⟨data, need⟩
  rw [hnf] at hplaced hfit
  simp only [Heap.place, hinv.sizeOfBlock hb, hnf]
  have hsize := (hinv.layout.blockOk hb).size
  by_cases hsplit : MIN_BLOCK_SIZE ≤ b.size - need
  · rw [if_pos hsplit]
    exact ⟨_, rfl, hinv.place_split huse hspan hstart hlast hm hplaced hsplit rfl rfl⟩
  · rw [if_neg hsplit]
    refine ⟨_, rfl, hinv.place_whole huse hspan hstart hlast hm ?_⟩
    exact { hplaced with
      footer := Nat.le_trans hplaced.footer (Nat.add_le_add_left hfit _)
      size := hsize
      min := (hinv.layout.blockOk hb).min }

end NopeekOS.Mm
