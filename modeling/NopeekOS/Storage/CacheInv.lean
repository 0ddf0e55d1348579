import NopeekOS.Storage.Cache

/-!
# The slots of the block cache

`CacheInv c lru held` says where every slot is: on the LRU list (which the links
spell out as `lru`), on `idle`, on `spare`, or in the hands of the running call
(`held`, empty between calls). Slots with a frame have one each, which also bounds
their number far below `NIL`.

Each operation is a composition of a few moves between those places
(`CacheInv.detach`, `attach`, `park`, `retire`, …), and each move has one lemma
here.
-/

namespace NopeekOS.Storage

open Lib Function Slot List

namespace BlockCache

/-- The links of the LRU list. -/
def links (c : BlockCache) : Links :=
  ⟨c.head, c.tail, fun s => (c.slots s).prev, fun s => (c.slots s).next⟩

/-- What a slot holds apart from its links. -/
def payload (c : BlockCache) (s : Nat) : Nat × Nat × Bool × Bool :=
  ((c.slots s).block, (c.slots s).frame, (c.slots s).dirty, (c.slots s).checked)

/-- `c'` differs from `c` in the LRU order only. -/
structure Relinked (c c' : BlockCache) : Prop where
  payload : c'.payload = c.payload
  slotCount : c'.slotCount = c.slotCount
  map : c'.map = c.map
  idle : c'.idle = c.idle
  spare : c'.spare = c.spare
  dirty : c'.dirty = c.dirty

namespace Relinked

variable {c c₁ c₂ : BlockCache}

theorem refl (c : BlockCache) : Relinked c c := ⟨rfl, rfl, rfl, rfl, rfl, rfl⟩

section

variable (h : Relinked c c₁)

include h

theorem trans (h' : Relinked c₁ c₂) : Relinked c c₂ where
  payload := h'.payload.trans h.payload
  slotCount := h'.slotCount.trans h.slotCount
  map := h'.map.trans h.map
  idle := h'.idle.trans h.idle
  spare := h'.spare.trans h.spare
  dirty := h'.dirty.trans h.dirty

variable (s : Nat)

theorem block : (c₁.slots s).block = (c.slots s).block :=
  congrArg (·.1) (congrFun h.payload s)

theorem frame : (c₁.slots s).frame = (c.slots s).frame :=
  congrArg (·.2.1) (congrFun h.payload s)

theorem isDirty : (c₁.slots s).dirty = (c.slots s).dirty :=
  congrArg (·.2.2.1) (congrFun h.payload s)

theorem checked : (c₁.slots s).checked = (c.slots s).checked :=
  congrArg (·.2.2.2) (congrFun h.payload s)

end

end Relinked

@[simp] theorem setSlot_self (c : BlockCache) (s : Nat) (f : Slot → Slot) :
    (c.setSlot s f).slots s = f (c.slots s) := update_self ..

theorem setSlot_of_ne {c : BlockCache} {s t : Nat} (f : Slot → Slot) (h : t ≠ s) :
    (c.setSlot s f).slots t = c.slots t := update_of_ne h ..

section

variable (c : BlockCache)

/-- Assigning to a slot keeps a field that the assignment does not touch. -/
theorem setSlot_field {γ : Type*} (s t : Nat) (f : Slot → Slot) (g : Slot → γ)
    (h : ∀ x, g (f x) = g x) : g ((c.setSlot s f).slots t) = g (c.slots t) := by
  by_cases hts : t = s
  · rw [hts, setSlot_self, h]
  · rw [setSlot_of_ne f hts]

/-- Other links for the same slots. -/
def withLinks (d : Links) : BlockCache :=
  { c with
    head := d.head
    tail := d.tail
    slots := fun s => { c.slots s with prev := d.prev s, next := d.next s } }

variable (s : Nat)

theorem unlink_eq : c.unlink s = c.withLinks (c.links.unlink NIL s) := by
  unfold unlink setNext setPrev withLinks links Links.unlink
  by_cases hp : (c.slots s).prev = NIL <;> by_cases hn : (c.slots s).next = NIL
  all_goals simp only [hp, hn, if_true, if_false, setSlot]
  all_goals congr 1
  all_goals
    funext t
    simp only [update_apply]
    split_ifs <;> simp_all

theorem pushFront_eq : c.pushFront s = c.withLinks (c.links.pushFront NIL s) := by
  unfold pushFront setHeadPrev withLinks links Links.pushFront
  by_cases hhead : c.head = NIL
  all_goals
    simp only [hhead, setSlot, ne_eq, not_true_eq_false, not_false_eq_true, if_true, if_false]
    congr 1
    funext t
    simp only [update_apply]
    split_ifs <;> simp_all

theorem unlink_relinked : Relinked c (c.unlink s) :=
  c.unlink_eq s ▸ ⟨rfl, rfl, rfl, rfl, rfl, rfl⟩

theorem pushFront_relinked : Relinked c (c.pushFront s) :=
  c.pushFront_eq s ▸ ⟨rfl, rfl, rfl, rfl, rfl, rfl⟩

theorem touch_relinked : Relinked c (c.touch s) := by
  unfold touch
  split
  · exact (unlink_relinked ..).trans (pushFront_relinked ..)
  · exact .refl _

/-- `unlink` does not see the map. -/
theorem unlink_map (map : Nat → Option Nat) (s : Nat) :
    { c with map := map }.unlink s = { c.unlink s with map := map } := by
  rw [unlink_eq, unlink_eq]
  rfl

/-- The slot that `take` assigns, apart from its links. -/
theorem payload_assign (b s : Nat) :
    (c.assign b s).payload s = (b, (c.slots s).frame, false, false) := by
  let f : Slot → Slot := fun t => { t with block := b, dirty := false, checked := false }
  let c₂ : BlockCache := { c.setSlot s f with map := update c.map b (some s) }
  have hself : c₂.slots s = f (c.slots s) := c.setSlot_self s f
  have hpay : c₂.payload s = (b, (c.slots s).frame, false, false) := by
    rw [payload, hself]
  exact (congrFun (c₂.pushFront_relinked s).payload s).trans hpay

/-! ## The links -/

/-- Assigning to other fields keeps the links. -/
theorem links_setSlot (f : Slot → Slot) (h : ∀ x, ((f x).prev, (f x).next) = (x.prev, x.next)) :
    (c.setSlot s f).links = c.links := by
  ext t
  · rfl
  · rfl
  · exact setSlot_field c s t f prev fun x => congrArg (·.1) (h x)
  · exact setSlot_field c s t f next fun x => congrArg (·.2) (h x)

theorem links_unlink : (c.unlink s).links = c.links.unlink NIL s :=
  congrArg links (c.unlink_eq s)

theorem links_pushFront : (c.pushFront s).links = c.links.pushFront NIL s :=
  congrArg links (c.pushFront_eq s)

end

end BlockCache

/-! ## Where the slots are -/

/-- The slots `l` own one frame each. -/
structure Framed (c : BlockCache) (l : List Nat) : Prop where
  valid : ∀ s ∈ l, 0 < (c.slots s).frame ∧ (c.slots s).frame < MAX_FRAMES
  inj : ∀ s ∈ l, ∀ t ∈ l, (c.slots s).frame = (c.slots t).frame → s = t

theorem Framed.mono {c c' : BlockCache} {l l' : List Nat} (h : Framed c l)
    (hsub : ∀ s ∈ l', s ∈ l) (hframe : ∀ s ∈ l', (c'.slots s).frame = (c.slots s).frame) :
    Framed c' l' where
  valid s hs := hframe s hs ▸ h.valid s (hsub s hs)
  inj s hs t ht heq := h.inj s (hsub s hs) t (hsub t ht) (by rwa [hframe s hs, hframe t ht] at heq)

/-- A slot with a frame that no other one owns. -/
theorem Framed.cons {c : BlockCache} {l : List Nat} {s : Nat} (h : Framed c l)
    (hvalid : 0 < (c.slots s).frame ∧ (c.slots s).frame < MAX_FRAMES)
    (hnew : ∀ t ∈ l, (c.slots t).frame ≠ (c.slots s).frame) : Framed c (s :: l) where
  valid t ht := (mem_cons.mp ht).elim (fun he => he ▸ hvalid) (h.valid t)
  inj := by
    rintro t ht u hu heq
    rcases mem_cons.mp ht with rfl | ht' <;> rcases mem_cons.mp hu with rfl | hu'
    · rfl
    · exact absurd heq.symm (hnew u hu')
    · exact absurd heq (hnew t ht')
    · exact h.inj t ht' u hu' heq

/-- There are no more slots with a frame than frames. -/
theorem Framed.length_lt {c : BlockCache} {l : List Nat} (h : Framed c l) (hnodup : l.Nodup) :
    l.length < MAX_FRAMES := by
  have hmap : (l.map fun s => (c.slots s).frame).Nodup :=
    hnodup.map_on fun s hs t ht heq => h.inj s hs t ht heq
  have hsub : ∀ f ∈ l.map (fun s => (c.slots s).frame), f ∈ range' 1 (MAX_FRAMES - 1) := by
    intro f hf
    obtain ⟨s, hs, rfl⟩ := mem_map.mp hf
    have := h.valid s hs
    exact mem_range'_1.mpr (by omega)
  have hlen := (subperm_of_subset hmap hsub).length_le
  rw [length_map, length_range'] at hlen
  exact Nat.lt_of_le_of_lt hlen (by decide)

/-- **Invariant of the cache**: every slot is in exactly one place, the map
leads to exactly the slots of the LRU list, a dirty slot holds a block and is on
the dirty list, and slots with a frame own it. -/
structure CacheInv (c : BlockCache) (lru held : List Nat) : Prop where
  linked : Linked NIL c.links lru
  partition : (held ++ lru ++ c.idle ++ c.spare).Perm (List.range c.slotCount)
  mapped : ∀ b s, c.map b = some s ↔ s ∈ lru ∧ (c.slots s).block = b
  dirty_listed : ∀ s, (c.slots s).dirty = true → s ∈ c.dirty
  dirty_used : ∀ s, (c.slots s).dirty = true → s ∈ held ++ lru
  dirty_lt : ∀ s ∈ c.dirty, s < c.slotCount
  framed : Framed c (held ++ lru ++ c.idle)
  spare_frame : ∀ s ∈ c.spare, (c.slots s).frame = 0
  count_le : c.slotCount ≤ MAX_FRAMES

/-- What the frame allocator may return: a frame that the cache does not own. -/
def FreshFrame (c : BlockCache) (f : Nat) : Prop :=
  0 < f ∧ f < MAX_FRAMES ∧ ∀ s < c.slotCount, (c.slots s).frame ≠ f

namespace CacheInv

variable {c c' : BlockCache} {lru lru' held xs ys : List Nat} {s b : Nat} {f : Nat}

theorem new : CacheInv BlockCache.new [] [] where
  linked := ⟨rfl, rfl, trivial, nodup_nil, not_mem_nil⟩
  partition := .refl _
  mapped _ _ := by simp [BlockCache.new]
  dirty_listed := nofun
  dirty_used := nofun
  dirty_lt := nofun
  framed := ⟨nofun, nofun⟩
  spare_frame := nofun
  count_le := Nat.zero_le _

section

variable (h : CacheInv c lru held)

include h

theorem nodup : (held ++ lru ++ c.idle ++ c.spare).Nodup :=
  h.partition.nodup_iff.mpr nodup_range

/-- The slots that exist are those in some place. -/
theorem mem_iff : s ∈ held ++ lru ++ c.idle ++ c.spare ↔ s < c.slotCount :=
  h.partition.mem_iff.trans mem_range

theorem ne_nil (hs : s < c.slotCount) : s ≠ NIL := by
  have := h.count_le
  simp only [MAX_FRAMES, NIL] at *
  omega

/-- A block that is mapped to `s` is the one `s` holds. -/
theorem map_block (hs : s ∈ lru) : c.map (c.slots s).block = some s := (h.mapped _ _).mpr ⟨hs, rfl⟩

/-! ### Moves -/

/-- New links and a new map: slots go between the LRU list and the running call. -/
theorem moved {held' : List Nat} (hr : BlockCache.Relinked { c with map := c'.map } c')
    (hl : Linked NIL c'.links lru') (hperm : (held' ++ lru').Perm (held ++ lru))
    (hmap : ∀ b s, c'.map b = some s ↔ s ∈ lru' ∧ (c.slots s).block = b) :
    CacheInv c' lru' held' where
  linked := hl
  partition := by
    rw [hr.idle, hr.spare, hr.slotCount]
    exact ((hperm.append_right _).append_right _).trans h.partition
  mapped b s := by
    rw [hr.block]
    exact hmap b s
  dirty_listed s hs := hr.dirty ▸ h.dirty_listed s (hr.isDirty s ▸ hs)
  dirty_used s hs := hperm.mem_iff.mpr (h.dirty_used s (hr.isDirty s ▸ hs))
  dirty_lt s hs := hr.slotCount ▸ h.dirty_lt s (hr.dirty ▸ hs)
  framed := h.framed.mono
    (fun s hs => by
      rw [hr.idle] at hs
      exact (hperm.append_right _).mem_iff.mp hs)
    fun s _ => hr.frame s
  spare_frame s hs := (hr.frame s).trans (h.spare_frame s (hr.spare ▸ hs))
  count_le := hr.slotCount ▸ h.count_le

end

/-- `touch` moves a slot of the list to its front. -/
theorem touch (h : CacheInv c (xs ++ s :: ys) held) :
    ∃ lru, CacheInv (c.touch s) lru held ∧ lru.Perm (xs ++ s :: ys) := by
  by_cases hhead : c.head = s
  · have heq : c.touch s = c := if_neg (not_not.mpr hhead)
    rw [heq]
    exact ⟨_, h, .refl _⟩
  · have heq : c.touch s = (c.unlink s).pushFront s := if_pos hhead
    have hperm : (s :: (xs ++ ys)).Perm (xs ++ s :: ys) := perm_middle.symm
    have hr := c.touch_relinked s
    refine ⟨s :: (xs ++ ys), h.moved { hr with map := rfl } ?_ (hperm.append_left held)
      fun b t => by rw [hr.map, hperm.mem_iff, h.mapped], hperm⟩
    have hnotMem : s ∉ xs ++ ys :=
      (nodup_cons.mp (hperm.nodup_iff.mpr h.linked.nodup)).1
    have hne : s ≠ NIL := fun hs => h.linked.nil_notMem (by simp [← hs])
    rw [heq, BlockCache.links_pushFront, BlockCache.links_unlink]
    exact h.linked.unlink.pushFront hnotMem hne

/-- Taking a slot off the list and its block out of the map. -/
theorem detach (h : CacheInv c (xs ++ s :: ys) held) :
    CacheInv ((c.unlink s).unmap s) (xs ++ ys) (s :: held) := by
  have hr := c.unlink_relinked s
  have hlinks := h.linked.unlink
  rw [← c.links_unlink] at hlinks
  have hmem : ∀ t, t ∈ xs ++ s :: ys ↔ t = s ∨ t ∈ xs ++ ys := fun t =>
    perm_middle.mem_iff.trans mem_cons
  have hs : s ∉ xs ++ ys := (nodup_cons.mp (perm_middle.nodup_iff.mp h.linked.nodup)).1
  have hperm : (s :: held ++ (xs ++ ys)).Perm (held ++ (xs ++ s :: ys)) :=
    perm_iff_count.mpr fun a => by
      simp only [count_append, count_cons]
      omega
  refine h.moved { hr with map := rfl } hlinks hperm fun b t => ?_
  show update (c.unlink s).map ((c.unlink s).slots s).block none b = some t ↔ _
  rw [hr.map, hr.block]
  by_cases hb : b = (c.slots s).block
  · subst hb
    rw [update_self]
    refine ⟨fun hnone => by simp at hnone, fun ⟨ht, heq⟩ => ?_⟩
    -- Two slots of the list do not hold one block.
    have hs' := h.map_block (s := s) (by simp)
    have ht' := h.map_block (s := t) ((hmem t).mpr (.inr ht))
    rw [heq, hs', Option.some.injEq] at ht'
    exact absurd (ht' ▸ ht) hs
  · rw [update_of_ne hb, h.mapped]
    constructor
    · rintro ⟨ht, rfl⟩
      exact ⟨((hmem t).mp ht).resolve_left fun hts => hb (by rw [hts]), rfl⟩
    · exact fun ⟨ht, heq⟩ => ⟨(hmem t).mpr (.inr ht), heq⟩

/-- The top of `idle` is taken in hand. -/
theorem unpark {idle : List Nat} (h : CacheInv c lru held) (hidle : c.idle = s :: idle) :
    CacheInv { c with idle := idle } lru (s :: held) :=
  { h with
    partition := (perm_iff_count.mpr fun a => by
      simp only [hidle, count_append, count_cons]
      omega).trans h.partition
    dirty_used := fun t ht => mem_cons_of_mem s (h.dirty_used t ht)
    framed := h.framed.mono (fun t ht => by simp [hidle] at ht ⊢; tauto) fun _ _ => rfl }

/-- A slot of `idle` is clean. -/
theorem idle_clean (h : CacheInv c lru held) (hs : s ∈ c.idle) : (c.slots s).dirty = false := by
  by_contra hd
  have hused := h.dirty_used s (by simpa using hd)
  have hnodup := (nodup_append.mp h.nodup).1
  exact (nodup_append.mp hnodup).2.2 s hused s hs rfl

/-- The slot in hand is nowhere else. -/
theorem held_notMem (h : CacheInv c lru (s :: held)) : s ∉ held ++ lru ++ c.idle ++ c.spare :=
  (nodup_cons.mp h.nodup).1

/-- A slot outside the LRU list gets the frame `f`. -/
theorem setFrame {held' spare : List Nat} (h : CacheInv c lru held)
    (hpart : (held' ++ lru ++ c.idle ++ spare).Perm (held ++ lru ++ c.idle ++ c.spare))
    (hused : ∀ t, (c.slots t).dirty = true → t ∈ held' ++ lru)
    (hframed : Framed (c.setSlot s fun x => { x with frame := f }) (held' ++ lru ++ c.idle))
    (hspare : ∀ t ∈ spare, ((c.setSlot s fun x => { x with frame := f }).slots t).frame = 0) :
    CacheInv { c.setSlot s fun x => { x with frame := f } with spare := spare } lru held' := by
  let g : Slot → Slot := fun x => { x with frame := f }
  have hdirty : ∀ t, ((c.setSlot s g).slots t).dirty = (c.slots t).dirty := fun t =>
    c.setSlot_field s t g dirty fun _ => rfl
  exact { h with
    linked := (c.links_setSlot s g fun _ => rfl) ▸ h.linked
    partition := hpart.trans h.partition
    mapped := fun b t => by
      rw [c.setSlot_field s t g block fun _ => rfl]
      exact h.mapped b t
    dirty_listed := fun t ht => h.dirty_listed t (hdirty t ▸ ht)
    dirty_used := fun t ht => hused t (hdirty t ▸ ht)
    framed := hframed.mono (fun _ ht => ht) fun _ _ => rfl
    spare_frame := hspare }

section

variable (h : CacheInv c lru (s :: held)) (hclean : (c.slots s).dirty = false)

include h hclean

/-- A clean slot in hand is not one of the dirty ones. -/
theorem dirty_held {t : Nat} (ht : (c.slots t).dirty = true) : t ∈ held ++ lru := by
  refine (mem_cons.mp (h.dirty_used t ht)).resolve_left ?_
  rintro rfl
  rw [hclean] at ht
  cases ht

/-- A clean slot in hand goes onto `idle`. -/
theorem park : CacheInv { c with idle := s :: c.idle } lru held :=
  { h with
    partition := (perm_iff_count.mpr fun a => by
      simp only [count_append, count_cons]
      omega).trans h.partition
    dirty_used := fun t ht => h.dirty_held hclean ht
    framed := h.framed.mono (fun t ht => by simp at ht ⊢; tauto) fun _ _ => rfl }

/-- A clean slot in hand gives its frame back. -/
theorem retire : CacheInv (c.retire s) lru held := by
  have hframe : ∀ t ∈ held ++ lru ++ c.idle ++ c.spare,
      ((c.setSlot s fun x => { x with frame := 0 }).slots t).frame = (c.slots t).frame :=
    fun t ht => congrArg frame (c.setSlot_of_ne _ fun he => h.held_notMem (he ▸ ht))
  refine h.setFrame ?_ (fun t ht => h.dirty_held hclean ht) ?_ fun t ht => ?_
  · refine perm_iff_count.mpr fun a => ?_
    simp only [BlockCache.setSlot, count_append, count_cons]
    omega
  · exact h.framed.mono (fun t ht => mem_cons_of_mem s ht) fun t ht =>
      hframe t (mem_append_left _ ht)
  · rcases mem_cons.mp ht with rfl | ht'
    · exact congrArg frame (c.setSlot_self t _)
    · rw [hframe t (mem_append_right _ ht')]
      exact h.spare_frame t ht'

end

section

variable (h : CacheInv c lru held)

include h

/-- The top of `spare` gets a frame. -/
theorem refill {spare : List Nat} (hspare : c.spare = s :: spare) (hf : FreshFrame c f) :
    CacheInv ({ c with spare := spare }.setSlot s fun t => { t with frame := f }) lru (s :: held) := by
  have hnodup := nodup_append.mp h.nodup
  have hs : s ∉ held ++ lru ++ c.idle := fun hmem => hnodup.2.2 s hmem s (by simp [hspare]) rfl
  have hframe : ∀ t, t ≠ s →
      ((c.setSlot s fun x => { x with frame := f }).slots t).frame = (c.slots t).frame :=
    fun t ht => congrArg frame (c.setSlot_of_ne _ ht)
  have hnew : ((c.setSlot s fun x => { x with frame := f }).slots s).frame = f :=
    congrArg frame (c.setSlot_self s _)
  refine h.setFrame ?_ (fun t ht => mem_cons_of_mem s (h.dirty_used t ht)) ?_ fun t ht => ?_
  · refine perm_iff_count.mpr fun a => ?_
    simp only [hspare, count_append, count_cons]
    omega
  · have hold : Framed (c.setSlot s fun x => { x with frame := f }) (held ++ lru ++ c.idle) :=
      h.framed.mono (fun _ ht => ht) fun t ht => hframe t fun he => hs (he ▸ ht)
    refine hold.cons (by rw [hnew]; exact ⟨hf.1, hf.2.1⟩) fun t ht => ?_
    rw [hnew, hframe t fun he => hs (he ▸ ht)]
    exact hf.2.2 t (h.mem_iff.mp (mem_append_left _ ht))
  · have hnot : s ∉ spare := (nodup_cons.mp (hspare ▸ hnodup.2.1)).1
    rw [hframe t fun he => hnot (he ▸ ht)]
    exact h.spare_frame t (hspare ▸ mem_cons_of_mem s ht)

/-- A new slot with a frame. There is none on `spare`, so every slot has a frame
and there are fewer slots than frames. -/
theorem pushSlot (hspare : c.spare = []) (hf : FreshFrame c f) :
    CacheInv (c.pushSlot f) lru (c.slotCount :: held) := by
  have hmem : ∀ t, t ∈ held ++ lru ++ c.idle ↔ t < c.slotCount := fun t => by
    rw [← h.mem_iff, hspare, append_nil]
  have hother : ∀ t, t ≠ c.slotCount → (c.pushSlot f).slots t = c.slots t := fun t ht =>
    update_of_ne ht ..
  have hold : ∀ t, t < c.slotCount → (c.pushSlot f).slots t = c.slots t := fun t ht =>
    hother t (Nat.ne_of_lt ht)
  have hnew : (c.pushSlot f).slots c.slotCount = ⟨0, f, false, false, NIL, NIL⟩ :=
    update_self ..
  have hdirty : ∀ t, ((c.pushSlot f).slots t).dirty = true → (c.slots t).dirty = true := by
    intro t ht
    by_cases hts : t = c.slotCount
    · rw [hts, hnew] at ht
      cases ht
    · rwa [hother t hts] at ht
  have hlru : ∀ t ∈ lru, t < c.slotCount := fun t ht => (hmem t).mp (by simp [ht])
  have hframed : Framed (c.pushSlot f) (c.slotCount :: (held ++ lru ++ c.idle)) := by
    have hsame : Framed (c.pushSlot f) (held ++ lru ++ c.idle) :=
      h.framed.mono (fun _ ht => ht) fun t ht => by rw [hold t ((hmem t).mp ht)]
    refine hsame.cons (by rw [hnew]; exact ⟨hf.1, hf.2.1⟩) fun t ht => ?_
    rw [hnew, hold t ((hmem t).mp ht)]
    exact hf.2.2 t ((hmem t).mp ht)
  have hpart : (c.slotCount :: (held ++ lru ++ c.idle)).Perm (List.range (c.slotCount + 1)) := by
    have := h.partition
    rw [hspare, append_nil] at this
    rw [range_succ]
    exact (this.cons c.slotCount).trans (perm_append_singleton _ _).symm
  constructor
  case linked =>
    refine ⟨h.linked.head, h.linked.tail, ?_, h.linked.nodup, h.linked.nil_notMem⟩
    exact h.linked.seg.congr (fun t ht => congrArg prev (hold t (hlru t ht)))
      fun t ht => congrArg next (hold t (hlru t ht))
  case partition =>
    show (c.slotCount :: held ++ lru ++ c.idle ++ c.spare).Perm (List.range (c.slotCount + 1))
    rw [hspare, append_nil]
    exact hpart
  case mapped =>
    intro b t
    rw [show (c.pushSlot f).map = c.map from rfl, h.mapped]
    exact and_congr_right fun ht => by rw [hold t (hlru t ht)]
  case dirty_listed => exact fun t ht => h.dirty_listed t (hdirty t ht)
  case dirty_used => exact fun t ht => mem_cons_of_mem _ (h.dirty_used t (hdirty t ht))
  case dirty_lt => exact fun t ht => Nat.lt_succ_of_lt (h.dirty_lt t ht)
  case framed => exact hframed
  case spare_frame => exact fun t ht => by simp [BlockCache.pushSlot, hspare] at ht
  case count_le =>
    have hlen := hframed.length_lt (hpart.nodup_iff.mpr nodup_range)
    rw [hpart.length_eq, length_range] at hlen
    exact Nat.le_of_lt hlen

/-- Setting flags of a slot: it may become clean, or dirty if it is on the dirty
list and in use. Off the LRU list its block may change. -/
theorem setFlags {dirty : List Nat} (f : Slot → Slot)
    (hf : ∀ x, ((f x).frame, (f x).prev, (f x).next) = (x.frame, x.prev, x.next))
    (hblock : (f (c.slots s)).block = (c.slots s).block ∨ s ∉ lru) (hsub : ∀ t ∈ c.dirty, t ∈ dirty)
    (hlt : ∀ t ∈ dirty, t < c.slotCount)
    (hd : (f (c.slots s)).dirty = true → (c.slots s).dirty = true ∨ s ∈ dirty ∧ s ∈ held ++ lru) :
    CacheInv { c.setSlot s f with dirty := dirty } lru held := by
  have hdirty : ∀ t, ((c.setSlot s f).slots t).dirty = true →
      (c.slots t).dirty = true ∨ t ∈ dirty ∧ t ∈ held ++ lru := by
    intro t ht
    by_cases hts : t = s
    · subst hts
      rw [c.setSlot_self] at ht
      exact hd ht
    · rw [c.setSlot_of_ne f hts] at ht
      exact .inl ht
  have hframe : ∀ t, ((c.setSlot s f).slots t).frame = (c.slots t).frame := fun t =>
    c.setSlot_field s t f frame fun x => congrArg (·.1) (hf x)
  exact { h with
    linked := (c.links_setSlot s f fun x => congrArg (·.2) (hf x)) ▸ h.linked
    mapped := fun b t => by
      refine (h.mapped b t).trans (and_congr_right fun ht => ?_)
      by_cases hts : t = s
      · subst hts
        rw [c.setSlot_self, hblock.resolve_right (not_not_intro ht)]
      · rw [c.setSlot_of_ne f hts]
    dirty_listed := fun t ht => (hdirty t ht).elim (fun h' => hsub t (h.dirty_listed t h')) (·.1)
    dirty_used := fun t ht => (hdirty t ht).elim (h.dirty_used t) (·.2)
    dirty_lt := hlt
    framed := h.framed.mono (fun _ ht => ht) fun t _ => hframe t
    spare_frame := fun t ht => (hframe t).trans (h.spare_frame t ht) }

/-- A flag that leaves `dirty` as it is, or clears it. -/
theorem setFlag (f : Slot → Slot)
    (hf : ∀ x, ((f x).block, (f x).frame, (f x).prev, (f x).next) = (x.block, x.frame, x.prev, x.next))
    (hd : ∀ x, (f x).dirty = true → x.dirty = true) : CacheInv (c.setSlot s f) lru held :=
  h.setFlags f (fun x => congrArg (·.2) (hf x)) (.inl (congrArg (·.1) (hf _))) (fun _ ht => ht)
    h.dirty_lt fun hx => .inl (hd _ hx)

end

/-- The slot in hand takes a block that is not in the map. -/
theorem attach (h : CacheInv c lru (s :: held)) (hb : c.map b = none) :
    CacheInv (c.assign b s) (s :: lru) held := by
  let f : Slot → Slot := fun x => { x with block := b, dirty := false, checked := false }
  let c₂ : BlockCache := { c.setSlot s f with map := update c.map b (some s) }
  have hr : BlockCache.Relinked c₂ (c.assign b s) := c₂.pushFront_relinked s
  have hs := h.held_notMem
  simp only [mem_append, not_or] at hs
  have h₁ : CacheInv (c.setSlot s f) lru (s :: held) :=
    h.setFlags f (fun _ => rfl) (.inr hs.1.1.2) (fun _ ht => ht) h.dirty_lt nofun
  have hself : (c.setSlot s f).slots s = f (c.slots s) := c.setSlot_self s f
  refine h₁.moved { hr with map := rfl } ?_ perm_middle fun d t => ?_
  · show Linked NIL (c₂.pushFront s).links (s :: lru)
    rw [c₂.links_pushFront]
    exact h₁.linked.pushFront hs.1.1.2 (h.ne_nil (h.mem_iff.mp (by simp)))
  rw [hr.map, mem_cons]
  by_cases hd : d = b
  · subst hd
    rw [show c₂.map d = some s from update_self .., Option.some.injEq]
    constructor
    · rintro rfl
      exact ⟨.inl rfl, by rw [hself]⟩
    · rintro ⟨ht | ht, heq⟩
      · exact ht.symm
      · -- A slot that held the block would have been in the map.
        exact nomatch hb.symm.trans ((h₁.mapped d t).mpr ⟨ht, heq⟩)
  · rw [show c₂.map d = c.map d from update_of_ne hd ..]
    constructor
    · exact fun hm => ((h₁.mapped d t).mp hm).imp_left .inr
    · rintro ⟨rfl | ht, heq⟩
      · rw [hself] at heq
        exact absurd heq.symm hd
      · exact (h₁.mapped d t).mpr ⟨ht, heq⟩

/-- Emptying the dirty list once no slot is dirty. -/
theorem clearDirty (h : CacheInv c lru held) (hclean : ∀ t, (c.slots t).dirty = false) :
    CacheInv { c with dirty := [] } lru held :=
  { h with
    dirty_listed := fun t ht => absurd ((hclean t).symm.trans ht) Bool.false_ne_true
    dirty_lt := nofun
    framed := h.framed.mono (fun _ ht => ht) fun _ _ => rfl }

end CacheInv

end NopeekOS.Storage
