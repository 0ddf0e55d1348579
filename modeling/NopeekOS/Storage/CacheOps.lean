import NopeekOS.Storage.CacheView

/-!
# The operations of the block cache

One lemma for each operation: it keeps the invariant of the slots, and in the
view it is the abstract operation of the same name, possibly after evictions. It
fails only if the cache has no frame and gets none.
-/

namespace NopeekOS.Storage

open Lib Function List

variable {β γ : Type*} {P : γ → Prop} {k : Nat → Nat} {a a' : View β} {v : Nat → β}

/-- What the frame allocator may answer. -/
def FrameChoice (c : BlockCache) (frame : Option Nat) : Prop := ∀ f ∈ frame, FreshFrame c f

namespace CacheState

variable {m m' : CacheState β} {lru held xs ys : List Nat} {s b : Nat} {frame : Option Nat}

theorem entries_of_map (hb : m.cache.map b = some s) : m.view.entries b = some (m.entry s) :=
  congrArg (Option.map m.entry) hb

/-! ## Taking a slot -/

theorem writeback_spec (h : CacheInv m.cache lru held) (hb : m.cache.map b = some s) :
    CacheInv (m.writeback s).cache lru held ∧ (m.writeback s).cache.map = m.cache.map ∧
      ((m.writeback s).cache.slots s).dirty = false ∧
      ((m.writeback s).cache.slots s).block = b ∧
      (m.writeback s).view.forget b = m.view.evict b := by
  have hblock := ((h.mapped b s).mp hb).2
  have hentries := entries_of_map hb
  unfold writeback
  split
  · rename_i hdirty
    let f : Slot → Slot := fun t => { t with dirty := false }
    have hview : ({ m with cache := m.cache.setSlot s f } : CacheState β).view = _ :=
      view_setFlag f h hb fun _ => rfl
    have hself := m.cache.setSlot_self s f
    refine ⟨h.setFlag f (fun _ => rfl) fun _ hx => Bool.noConfusion hx, rfl, ?_, ?_, ?_⟩
    · exact congrArg Slot.dirty hself
    · exact (congrArg Slot.block hself).trans hblock
    · refine View.ext ?_ ?_
      · have := congrArg View.entries hview
        show update ({ m with cache := m.cache.setSlot s f } : CacheState β).view.entries b
          none = _
        rw [this]
        exact update_idem ..
      · show update m.dev (m.cache.slots s).block (m.bytes s)
          = update m.dev b (View.settled (m.view.entries b) (m.dev b))
        rw [hblock, hentries]
        simp only [View.settled, entry, hdirty, if_true]
  · rename_i hdirty
    refine ⟨h, rfl, by simpa using hdirty, hblock, View.ext rfl ?_⟩
    show m.dev = update m.dev b (View.settled (m.view.entries b) (m.dev b))
    rw [hentries]
    simp only [View.settled, entry, hdirty, Bool.false_eq_true, if_false, update_eq_self]

/-- Nothing, or one block other than `b`, was evicted. -/
inductive Evicted (a : View β) (b : Nat) : View β → Prop where
  | none : Evicted a b a
  | one (d : Nat) : d ≠ b → Evicted a b (a.evict d)

section

variable (h : CacheInv m.cache lru []) (hf : FrameChoice m.cache frame) (hb : m.cache.map b = none)

include h hf hb

/-- `takeSlot` puts a slot in hand, after evicting a block other than one that is
not cached. It fails only if no slot has a frame. -/
theorem takeSlot_spec : (∃ s m' lru', m.takeSlot frame = some (s, m') ∧ CacheInv m'.cache lru' [s] ∧
      m'.cache.map b = none ∧ Evicted m.view b m'.view) ∨
    m.takeSlot frame = none ∧ frame = none ∧ m.cache.idle = [] ∧ lru = [] := by
  unfold takeSlot
  cases hidle : m.cache.idle with
  | cons s idle => exact .inl ⟨s, _, lru, rfl, h.unpark hidle, hb, .none⟩
  | nil =>
    cases frame with
    | some f =>
      have hfresh : FreshFrame m.cache f := hf f rfl
      cases hspare : m.cache.spare with
      | cons s spare =>
        refine .inl ⟨s, _, lru, rfl, h.refill hspare hfresh, hb, ?_⟩
        have hview : ({ m with cache := ({ m.cache with spare := spare }.setSlot s
            fun t => { t with frame := f }) } : CacheState β).view = m.view := by
          refine view_setSlot (m := { m with cache := { m.cache with spare := spare } })
            (fun t => { t with frame := f }) fun d hd => ?_
          have hlru := ((h.mapped d s).mp hd).1
          exact (nodup_append.mp h.nodup).2.2 s (by simp [hlru]) s (by simp [hspare]) rfl
        exact hview ▸ .none
      | nil =>
        have hlt : m.cache.slotCount < 2 ^ 32 :=
          Nat.lt_of_le_of_lt h.count_le (by decide)
        rw [Nat.mod_eq_of_lt hlt]
        refine .inl ⟨_, _, lru, rfl, h.pushSlot hspare hfresh, hb, ?_⟩
        have hview : ({ m with cache := m.cache.pushSlot f } : CacheState β).view = m.view := by
          refine view_congr rfl rfl fun d t ht => ?_
          have hlt : t < m.cache.slotCount :=
            h.mem_iff.mp (by simp [((h.mapped d t).mp ht).1])
          have hslot : (m.cache.pushSlot f).slots t = m.cache.slots t :=
            update_of_ne (Nat.ne_of_lt hlt) ..
          simp only [entry, bytes, hslot]
        exact hview ▸ .none
    | none =>
      by_cases htail : m.cache.tail = NIL
      · right
        refine ⟨by simp [htail], rfl, rfl, (h.linked.tail_eq_nil_iff).mp htail⟩
      left
      obtain ⟨xs, hlru⟩ := h.linked.eq_concat_tail htail
      have hmap : m.cache.map (m.cache.slots m.cache.tail).block = some m.cache.tail :=
        h.map_block (by rw [hlru]; exact mem_append_right _ mem_cons_self)
      obtain ⟨h₁, hmap₁, -, hblock, hview⟩ := writeback_spec h hmap
      rw [hlru] at h₁
      have hne : b ≠ (m.cache.slots m.cache.tail).block := by
        rintro rfl
        rw [hb] at hmap
        cases hmap
      refine ⟨m.cache.tail, _, _, if_pos htail, h₁.detach, ?_, ?_⟩
      · have hr := (m.writeback m.cache.tail).cache.unlink_relinked m.cache.tail
        simp only [BlockCache.unmap]
        rw [hr.block, hr.map, hmap₁, hblock, update_of_ne hne, hb]
      · rw [view_detach, hblock, hview]
        exact .one _ hne.symm

/-- **`take`** maps `b` to a slot whose bytes the caller has to fill in. -/
theorem take_spec : (∃ s m' lru' a, m.take frame b = .ok (s, m') ∧ CacheInv m'.cache lru' [] ∧
      m'.cache.map b = some s ∧ (m'.cache.slots s).dirty = false ∧
      (m'.cache.slots s).checked = false ∧ Evicted m.view b a ∧
      m'.view = ⟨update a.entries b (some ⟨m'.bytes s, false, false⟩), a.dev⟩) ∨
    m.take frame b = .error .outOfMemory ∧ frame = none ∧ m.cache.idle = [] ∧ lru = [] := by
  rcases takeSlot_spec h hf hb with ⟨s, m₁, lru₁, htake, h₁, hb₁, hev⟩ | ⟨htake, hnone⟩
  · left
    have hpay := m₁.cache.payload_assign b s
    have hattach := h₁.attach hb₁
    refine ⟨s, _, _, m₁.view, by rw [take, htake], hattach, ?_, congrArg (·.2.2.1) hpay,
      congrArg (·.2.2.2) hpay, hev, ?_⟩
    · exact (hattach.mapped b s).mpr ⟨mem_cons_self, congrArg (·.1) hpay⟩
    · rw [view_attach h₁]
      have hframe : ((m₁.cache.assign b s).slots s).frame = (m₁.cache.slots s).frame :=
        congrArg (·.2.1) hpay
      simp only [bytes, hframe]
      rfl
  · exact .inr ⟨by rw [take, htake], hnone⟩

end

/-! ## Reading and writing -/

/-- What a read of `b` that returns `x` does to the view. -/
inductive Fetched (a : View β) (b : Nat) : β → View β → Prop where
  | hit (e : Entry β) : a.entries b = some e → Fetched a b e.bytes a
  | miss (a₁ : View β) : a.entries b = none → Evicted a b a₁ → Fetched a b (a.dev b) (a₁.load b)

/-- The cache has no frame and got none. -/
def NoFrame (m : CacheState β) (frame : Option Nat) : Prop :=
  frame = none ∧ ∀ s < m.cache.slotCount, (m.cache.slots s).frame = 0

/-- An operation returns with `P`, or fails for want of a frame. -/
inductive Answers {γ : Type*} (m : CacheState β) (frame : Option Nat) (P : γ → Prop) :
    Except FsError γ → Prop where
  | ok {x : γ} : P x → Answers m frame P (.ok x)
  | fails : m.NoFrame frame → Answers m frame P (.error .outOfMemory)

theorem Answers.of_ok {x : γ} : m.Answers frame P (.ok x) → P x
  | .ok h => h

theorem Answers.of_error {e : FsError} :
    m.Answers frame P (.error e) → e = .outOfMemory ∧ m.NoFrame frame
  | .fails h => ⟨rfl, h⟩

theorem evicted_at {a a₁ : View β} (h : Evicted a b a₁) :
    a₁.entries b = a.entries b ∧ a₁.dev b = a.dev b := by
  cases h with
  | none => exact ⟨rfl, rfl⟩
  | one d hd => exact ⟨update_of_ne hd.symm .., update_of_ne hd.symm ..⟩

/-- `fill` writes the block that its slot holds. -/
theorem fill_spec (buf : β) (checked : Bool) (h : CacheInv m.cache lru [])
    (hb : m.cache.map b = some s) : CacheInv (m.fill s buf checked).cache lru [] ∧
      (m.fill s buf checked).view
        = ⟨update m.view.entries b (some ⟨buf, true, checked⟩), m.dev⟩ := by
  let f : Slot → Slot := fun t => { t with checked := checked }
  let g : Slot → Slot := fun t => { t with dirty := true }
  let m₁ : CacheState β := { m with cache := m.cache.setSlot s f }
  let m₂ := m₁.setBytes s buf
  have hself : m₂.cache.slots s = f (m.cache.slots s) := m.cache.setSlot_self s f
  have h₁ : CacheInv m₁.cache lru [] := h.setFlag f (fun _ => rfl) fun _ hx => hx
  have hview₁ : m₁.view = _ := view_setFlag f h hb fun _ => rfl
  have hview₂ : m₂.view = _ := view_setBytes buf h₁ hb
  have hentries₂ : m₂.view = ⟨update m.view.entries b
      (some ⟨buf, (m.cache.slots s).dirty, checked⟩), m.dev⟩ := by
    rw [hview₂, hview₁, show m₁.cache.slots s = f (m.cache.slots s) from hself]
    simp only [update_idem]
    rfl
  cases hd : (m.cache.slots s).dirty with
  | true =>
    have heq : m.fill s buf checked = m₂ := by
      have hflag : ¬(!(m₂.cache.slots s).dirty) = true := by simp [hself, f, hd]
      exact if_neg hflag
    rw [heq, hentries₂, hd]
    exact ⟨h₁, rfl⟩
  | false =>
    have heq : m.fill s buf checked = { m₂ with
        cache := { m₂.cache.setSlot s g with dirty := s :: m₂.cache.dirty } } := by
      have hflag : (!(m₂.cache.slots s).dirty) = true := by simp [hself, f, hd]
      exact if_pos hflag
    have hlru := ((h.mapped b s).mp hb).1
    have hlt : s < m.cache.slotCount := h.mem_iff.mp (by simp [hlru])
    have h₂ : CacheInv m₂.cache lru [] := h₁
    rw [heq]
    constructor
    · refine h₂.setFlags g (fun _ => rfl) (.inl rfl) (fun _ ht => mem_cons_of_mem s ht) ?_ ?_
      · exact forall_mem_cons.mpr ⟨hlt, h.dirty_lt⟩
      · exact fun _ => .inr ⟨mem_cons_self, hlru⟩
    · have hview₃ : ({ m₂ with cache := m₂.cache.setSlot s g } : CacheState β).view = _ :=
        view_setFlag g h₂ hb fun _ => rfl
      refine Eq.trans (b := ({ m₂ with cache := m₂.cache.setSlot s g } : CacheState β).view) rfl ?_
      have hbytes : m₂.bytes s = buf := update_self ..
      rw [hview₃, hentries₂, hself, hbytes]
      simp only [update_idem]
      rfl

/-- What a write does to the view. -/
def Stored (a : View β) (b : Nat) (buf : β) (checked : Bool) (a' : View β) : Prop :=
  ∃ a₁, Evicted a b a₁ ∧ a' = a₁.store b buf checked

section

variable (h : CacheInv m.cache lru [])

include h

theorem touch_spec (hb : m.cache.map b = some s) : ∃ lru', CacheInv (m.cache.touch s) lru' [] ∧
      { m with cache := m.cache.touch s }.view = m.view ∧ (m.cache.touch s).map b = some s := by
  have hr := m.cache.touch_relinked s
  obtain ⟨xs, ys, rfl⟩ := append_of_mem ((h.mapped b s).mp hb).1
  obtain ⟨lru', h', -⟩ := h.touch
  exact ⟨lru', h', view_relinked hr, by rw [hr.map, hb]⟩

theorem noFrame_of_empty (hempty : frame = none ∧ m.cache.idle = [] ∧ lru = []) :
    m.NoFrame frame := by
  obtain ⟨hframe, hidle, rfl⟩ := hempty
  refine ⟨hframe, fun s hs => h.spare_frame s ?_⟩
  simpa [hidle] using h.mem_iff.mpr hs

theorem read_spec (hf : FrameChoice m.cache frame) (b : Nat) :
    m.Answers frame (fun r => ∃ lru', CacheInv r.2.cache lru' [] ∧ Fetched m.view b r.1 r.2.view)
      (m.read frame b) := by
  unfold read
  cases hb : m.cache.map b with
  | some s =>
    obtain ⟨lru', h', hview, -⟩ := touch_spec h hb
    refine .ok ⟨lru', h', ?_⟩
    rw [hview]
    exact .hit (m.entry s) (entries_of_map hb)
  | none =>
    rcases take_spec h hf hb with ⟨s, m₁, lru₁, a, htake, h₁, hb₁, hd, hc, hev, hview⟩ | ⟨htake, hno⟩
    · simp only [htake]
      have hset := view_setBytes (m.dev b) h₁ hb₁
      have hdev : m₁.dev = a.dev := congrArg View.dev hview
      have hbdev : a.dev b = m.dev b := (evicted_at hev).2
      have hload : (m₁.setBytes s (m.dev b)).view = a.load b := by
        rw [hset, hview, hd, hc, hdev]
        simp only [update_idem, View.load, hbdev]
      refine .ok ⟨lru₁, h₁, ?_⟩
      rw [hload]
      exact .miss a (by simp [view, hb]) hev
    · simp only [htake]
      exact .fails (noFrame_of_empty h hno)

theorem writeAs_spec (hf : FrameChoice m.cache frame) (b : Nat) (buf : β) (checked : Bool) :
    m.Answers frame (fun m' => ∃ lru', CacheInv m'.cache lru' [] ∧
      Stored m.view b buf checked m'.view) (m.writeAs frame b buf checked) := by
  unfold writeAs
  cases hb : m.cache.map b with
  | some s =>
    obtain ⟨lru', h', hview, hb'⟩ := touch_spec h hb
    obtain ⟨hfill, hfillView⟩ := fill_spec (m := { m with cache := m.cache.touch s })
      buf checked h' hb'
    refine .ok ⟨lru', hfill, m.view, .none, ?_⟩
    rw [hfillView, hview]
    rfl
  | none =>
    rcases take_spec h hf hb with ⟨s, m₁, lru₁, a, htake, h₁, hb₁, hd, hc, hev, hview⟩ | ⟨htake, hno⟩
    · obtain ⟨hfill, hfillView⟩ := fill_spec buf checked h₁ hb₁
      simp only [htake]
      refine .ok ⟨lru₁, hfill, a, hev, ?_⟩
      have hdev : m₁.dev = a.dev := congrArg View.dev hview
      rw [hfillView, hview, hdev]
      simp only [update_idem, View.store]
    · simp only [htake]
      exact .fails (noFrame_of_empty h hno)

end

/-- The answer of a checked read that found the bytes `x` in the view `a`. -/
inductive Checked (check : β → Bool) (a : View β) (b : Nat) (x : β) : Bool → View β → Prop where
  | known (e : Entry β) : a.entries b = some e → e.checked = true → Checked check a b x true a
  | fails : check x = false → Checked check a b x false a
  | passes : check x = true → Checked check a b x true (a.mark b)

theorem fetched_at {x : β} (h : Fetched a b x a') : ∃ e, a'.entries b = some e ∧ e.bytes = x := by
  cases h with
  | hit e he => exact ⟨e, he, rfl⟩
  | miss a₁ hnone hev => exact ⟨_, update_self .., (evicted_at hev).2⟩

theorem readChecked_spec (check : β → Bool) (h : CacheInv m.cache lru [])
    (hf : FrameChoice m.cache frame) (b : Nat) :
    m.Answers frame (fun r => ∃ lru' a, CacheInv r.2.cache lru' [] ∧ Fetched m.view b r.1.2 a ∧
      Checked check a b r.1.2 r.1.1 r.2.view) (m.readChecked check frame b) := by
  have hspec := read_spec h hf b
  unfold readChecked
  generalize m.read frame b = res at hspec ⊢
  cases hspec with
  | fails hno => exact .fails hno
  | @ok r hr =>
    obtain ⟨x, m₁⟩ := r
    obtain ⟨lru₁, h₁, hfetch⟩ := hr
    obtain ⟨e, he, hbytes⟩ := fetched_at hfetch
    obtain ⟨s, hb, rfl⟩ := Option.map_eq_some_iff.mp he
    show Answers m frame _ (if (m₁.cache.map b).any _ then _ else _)
    rw [hb]
    split
    · rename_i hc
      exact .ok ⟨_, _, h₁, hfetch, .known _ he hc⟩
    split
    · rename_i hc
      exact .ok ⟨_, _, h₁, hfetch, .fails (by simpa using hc)⟩
    rename_i hc
    refine .ok ⟨_, _, h₁.setFlag (fun t => { t with checked := true })
      (fun _ => rfl) fun _ hx => hx, hfetch, ?_⟩
    have hview : ({ m₁ with cache := m₁.cache.setSlot s fun t =>
        { t with checked := true } } : CacheState β).view = m₁.view.mark b := by
      rw [view_setFlag (fun t => { t with checked := true }) h₁ hb fun _ => rfl]
      simp only [View.mark, he]
      rfl
    rw [hview]
    exact .passes (by simpa using hc)

/-! ## Flushing -/

theorem mem_destutter {s : Nat} : ∀ (a : Nat) (l : List Nat),
    s ∈ l.destutter' (· ≠ ·) a ↔ s ∈ a :: l
  | a, [] => by simp
  | a, b :: l => by
    by_cases hab : a = b
    · subst hab
      rw [destutter'_cons_neg _ (not_not.mpr rfl), mem_destutter a l]
      simp
    · rw [destutter'_cons_pos _ hab, mem_cons, mem_destutter b l, mem_cons (b := a)]

/-- A flush writes exactly the dirty slots. -/
theorem mem_flushList (h : CacheInv m.cache lru held) :
    s ∈ flushList m.cache ↔ (m.cache.slots s).dirty = true := by
  have hmem : ∀ l : List Nat, s ∈ l.destutter (· ≠ ·) ↔ s ∈ l := fun l => by
    cases l with
    | nil => simp
    | cons a l => exact mem_destutter a l
  rw [flushList, hmem, mem_insertionSort, mem_filter]
  exact ⟨(·.2), fun hd => ⟨h.dirty_listed s hd, hd⟩⟩

/-- Successive updates leave a key that none of them has. -/
theorem foldl_update_of_notMem {x : Nat} : ∀ (l : List Nat) (f : Nat → β), (∀ s ∈ l, k s ≠ x) →
      l.foldl (fun f s => update f (k s) (v s)) f x = f x
  | [], _, _ => rfl
  | s :: l, f, h => by
    rw [foldl_cons, foldl_update_of_notMem l _ fun t ht => h t (mem_cons_of_mem _ ht)]
    exact update_of_ne (h s mem_cons_self).symm ..

/-- Successive updates of which one has the key, and all that have it agree. -/
theorem foldl_update_of_mem {s : Nat} :
    ∀ (l : List Nat) (f : Nat → β), s ∈ l → (∀ t ∈ l, k t = k s → v t = v s) →
      l.foldl (fun f s => update f (k s) (v s)) f (k s) = v s
  | t :: l, f, hs, h => by
    rw [foldl_cons]
    by_cases hmem : s ∈ l
    · exact foldl_update_of_mem l _ hmem fun u hu => h u (mem_cons_of_mem _ hu)
    by_cases hlater : ∃ u ∈ l, k u = k s
    · obtain ⟨u, hu, hku⟩ := hlater
      have hvu := h u (mem_cons_of_mem _ hu) hku
      rw [← hku, foldl_update_of_mem l _ hu fun w hw hkw =>
        (h w (mem_cons_of_mem _ hw) (hkw.trans hku)).trans hvu.symm, hvu]
    · have hst : s = t := (mem_cons.mp hs).resolve_right hmem
      rw [foldl_update_of_notMem l _ fun u hu hk => hlater ⟨u, hu, hk⟩, hst]
      exact update_self ..

/-- Clearing the dirty flags of the slots of a list. -/
theorem clearFlags_spec : ∀ (l : List Nat) {c : BlockCache} (_ : CacheInv c lru held),
    let c' := l.foldl (fun c s => c.setSlot s fun t => { t with dirty := false }) c
    CacheInv c' lru held ∧ c'.map = c.map ∧
      ∀ t, c'.slots t = { c.slots t with dirty := (c.slots t).dirty && !decide (t ∈ l) }
  | [], c, h => ⟨h, rfl, fun t => by simp⟩
  | s :: l, c, h => by
    have h₁ : CacheInv (c.setSlot s fun t => { t with dirty := false }) lru held :=
      h.setFlag (fun t => { t with dirty := false }) (fun _ => rfl) fun _ hx => Bool.noConfusion hx
    obtain ⟨h', hmap, hslots⟩ := clearFlags_spec l h₁
    refine ⟨h', hmap, fun t => (hslots t).trans ?_⟩
    by_cases hts : t = s
    · subst hts
      simp
    · simp [BlockCache.setSlot_of_ne _ hts, hts]

/-- **`flush`** writes back every dirty block. -/
theorem flush_spec (h : CacheInv m.cache lru []) :
    CacheInv m.flush.cache lru [] ∧ (∀ s, (m.flush.cache.slots s).dirty = false) ∧
      m.flush.view = m.view.flush := by
  let list := flushList m.cache
  let c' := list.foldl (fun c s => c.setSlot s fun t => { t with dirty := false }) m.cache
  let dev' := list.foldl
    (fun dev s => update dev (m.cache.slots s).block (m.bytes s)) m.dev
  have hflush : m.flush = { m with cache := { c' with dirty := [] }, dev := dev' } := by
    show (if list.isEmpty then _ else _) = _
    split
    · rename_i hempty
      have hnil : list = [] := isEmpty_iff.mp hempty
      simp only [c', dev', hnil, foldl_nil]
    · rfl
  obtain ⟨h', hmap, hslots⟩ := clearFlags_spec list h
  have hclean : ∀ t, (c'.slots t).dirty = false := by
    intro t
    rw [hslots]
    cases hd : (m.cache.slots t).dirty with
    | false => rfl
    | true => simp [list, mem_flushList h, hd]
  rw [hflush]
  refine ⟨h'.clearDirty hclean, hclean, View.ext (funext fun b => ?_) (funext fun b => ?_)⟩
  · show (c'.map b).map _ = ((m.cache.map b).map m.entry).map _
    rw [hmap, Option.map_map]
    refine Option.map_congr fun s _ => ?_
    have hframe : (c'.slots s).frame = (m.cache.slots s).frame := by rw [hslots]
    have hchecked : (c'.slots s).checked = (m.cache.slots s).checked := by rw [hslots]
    show (⟨m.mem (c'.slots s).frame, (c'.slots s).dirty, (c'.slots s).checked⟩ : Entry β) = _
    rw [hclean, hframe, hchecked]
    rfl
  · show dev' b = View.settled ((m.cache.map b).map m.entry) (m.dev b)
    by_cases hex : ∃ s ∈ list, (m.cache.slots s).block = b
    · obtain ⟨s, hs, rfl⟩ := hex
      have hd := (mem_flushList h).mp hs
      have hb := h.map_block (h.dirty_used s hd)
      rw [hb]
      simp only [Option.map_some, View.settled, entry, hd, if_true]
      refine foldl_update_of_mem list m.dev hs fun t ht hblock => ?_
      have ht' := h.map_block (h.dirty_used t ((mem_flushList h).mp ht))
      rw [hblock, hb, Option.some.injEq] at ht'
      rw [ht']
    · have hdev : dev' b = m.dev b :=
        foldl_update_of_notMem list m.dev fun s hs hk => hex ⟨s, hs, hk⟩
      rw [hdev]
      cases hb : m.cache.map b with
      | none => rfl
      | some s =>
        have hclean : ¬ (m.cache.slots s).dirty = true := fun hd =>
          hex ⟨s, (mem_flushList h).mpr hd, ((h.mapped b s).mp hb).2⟩
        simp only [Option.map_some, View.settled, entry, hclean, Bool.false_eq_true, if_false]

/-! ## Dropping blocks -/

/-- Zero or more blocks were evicted. -/
inductive EvictedAll (a : View β) : View β → Prop where
  | refl : EvictedAll a a
  | step {a' : View β} (b : Nat) : EvictedAll a a' → EvictedAll a (a'.evict b)

theorem EvictedAll.head (h : EvictedAll (a.evict b) a') : EvictedAll a a' := by
  induction h with
  | refl => exact .step b .refl
  | step d _ ih => exact .step d ih

/-- Dropping a clean block is evicting it. -/
theorem forget_eq_evict {a : View β} {e : Entry β} (he : a.entries b = some e)
    (hclean : e.dirty = false) : a.forget b = a.evict b := by
  refine View.ext rfl ?_
  show a.dev = update a.dev b (View.settled (a.entries b) (a.dev b))
  rw [he]
  simp only [View.settled, hclean, Bool.false_eq_true, if_false, update_eq_self]

/-- Taking a clean slot off the list. -/
theorem detach_clean (h : CacheInv m.cache (xs ++ s :: ys) [])
    (hclean : (m.cache.slots s).dirty = false) :
    let c' := (m.cache.unlink s).unmap s
    CacheInv c' (xs ++ ys) [s] ∧ (c'.slots s).dirty = false ∧
      { m with cache := c' }.view = m.view.evict (m.cache.slots s).block := by
  have hr := m.cache.unlink_relinked s
  refine ⟨h.detach, (hr.isDirty s).trans hclean, ?_⟩
  rw [view_detach]
  exact forget_eq_evict (entries_of_map (h.map_block (by simp))) hclean

theorem releaseLoop_spec (want : Nat) : ∀ (idle : List Nat) (freed : Nat) {m : CacheState β},
    CacheInv m.cache lru [] → m.cache.idle = idle →
    CacheInv (releaseLoop want idle freed m).2.cache lru [] ∧
      (releaseLoop want idle freed m).2.view = m.view
  | [], _, m, h, _ => ⟨h, rfl⟩
  | s :: idle, freed, m, h, hidle => by
    unfold releaseLoop
    split
    · have hclean := h.idle_clean (s := s) (by simp [hidle])
      let m₁ : CacheState β := { m with cache := { m.cache with idle := idle } }
      have hheld : CacheInv m₁.cache lru [s] := h.unpark hidle
      obtain ⟨h', hview⟩ := releaseLoop_spec want idle (freed + 1)
        (m := { m₁ with cache := m₁.cache.retire s }) (hheld.retire hclean) rfl
      exact ⟨h', hview.trans (view_retire (m := m₁) hheld)⟩
    · exact ⟨h, rfl⟩

/-- The loop of `drop_all` ends, with nothing cached. -/
theorem dropLoop_spec (fuel : Nat) (h : CacheInv m.cache lru [])
    (hclean : ∀ s, (m.cache.slots s).dirty = false) (hlen : lru.length ≤ fuel) :
    ∃ m', dropLoop fuel m = some m' ∧ CacheInv m'.cache [] [] ∧ EvictedAll m.view m'.view := by
  induction fuel generalizing m lru with
  | zero =>
    obtain rfl := length_eq_zero_iff.mp (Nat.le_zero.mp hlen)
    have htail : m.cache.tail = NIL := h.linked.tail
    exact ⟨m, by simp [dropLoop, htail], h, .refl⟩
  | succ fuel ih =>
    unfold dropLoop
    by_cases htail : m.cache.tail = NIL
    · obtain rfl := h.linked.tail_eq_nil_iff.mp htail
      exact ⟨m, by simp [htail], h, .refl⟩
    · obtain ⟨xs, hlru⟩ := h.linked.eq_concat_tail htail
      subst hlru
      obtain ⟨h₁, hclean₁, hview⟩ := detach_clean h (hclean _)
      have hr := m.cache.unlink_relinked m.cache.tail
      have hlen' : (xs ++ []).length ≤ fuel := by
        simp only [length_append, length_cons, length_nil] at hlen ⊢
        omega
      obtain ⟨m', hrun, h', hev⟩ := ih
        (m := { m with cache := { (m.cache.unlink m.cache.tail).unmap m.cache.tail with
          idle := m.cache.tail :: ((m.cache.unlink m.cache.tail).unmap m.cache.tail).idle } })
        (h₁.park hclean₁) (fun t => (hr.isDirty t).trans (hclean t)) hlen'
      refine ⟨m', by rw [if_pos htail]; exact hrun, h', ?_⟩
      refine EvictedAll.head (b := (m.cache.slots m.cache.tail).block) ?_
      exact hview ▸ hev

/-- The loop of `shrink` ends. The slots behind the cursor are the dirty ones it
passed. -/
theorem shrinkLoop_spec (want fuel freed : Nat) (xs kept : List Nat)
    (h : CacheInv m.cache (xs ++ kept) []) (hlen : xs.length ≤ fuel) :
    ∃ freed' m' lru', shrinkLoop want fuel freed (xs.getLastD NIL) m = some (freed', m') ∧
      CacheInv m'.cache lru' [] ∧ EvictedAll m.view m'.view := by
  induction fuel generalizing freed m xs kept with
  | zero =>
    obtain rfl := length_eq_zero_iff.mp (Nat.le_zero.mp hlen)
    exact ⟨freed, m, _, by simp [shrinkLoop], h, .refl⟩
  | succ fuel ih =>
    unfold shrinkLoop
    rcases eq_nil_or_concat xs with rfl | ⟨xs, s, rfl⟩
    · exact ⟨freed, m, _, by simp, h, .refl⟩
    rw [concat_eq_append] at h hlen ⊢
    rw [getLastD_concat]
    rw [append_assoc, singleton_append] at h
    split
    · have hprev : (m.cache.slots s).prev = xs.getLastD NIL := h.linked.prev_eq
      have hlen' : xs.length ≤ fuel := by
        rw [length_append, length_singleton] at hlen
        omega
      simp only [hprev]
      split
      · rename_i hdirty
        obtain ⟨h₁, hclean₁, hview₁⟩ := detach_clean h (by simpa using hdirty)
        let m₁ : CacheState β := { m with cache := (m.cache.unlink s).unmap s }
        obtain ⟨freed', m', lru', hrun, h', hev⟩ := ih (freed + 1)
          (m := { m₁ with cache := m₁.cache.retire s }) xs kept (h₁.retire hclean₁) hlen'
        refine ⟨freed', m', lru', hrun, h', EvictedAll.head (b := (m.cache.slots s).block) ?_⟩
        rw [view_retire (m := m₁) h₁, hview₁] at hev
        exact hev
      · exact ih freed xs (s :: kept) h hlen'
    · exact ⟨freed, m, _, rfl, h, .refl⟩

section

variable (h : CacheInv m.cache lru [])

include h

theorem releaseIdle_spec (want : Nat) :
    CacheInv (m.releaseIdle want).2.cache lru [] ∧ (m.releaseIdle want).2.view = m.view :=
  releaseLoop_spec want m.cache.idle 0 h rfl

theorem length_lru_le : lru.length ≤ m.cache.slotCount := by
  have := h.partition.length_eq
  simp only [length_append, length_range] at this
  omega

/-- **`drop_all`** flushes and drops everything. -/
theorem dropAll_spec :
    ∃ m', m.dropAll = some m' ∧ CacheInv m'.cache [] [] ∧ EvictedAll m.view.flush m'.view := by
  obtain ⟨h₁, hclean, hview⟩ := flush_spec h
  obtain ⟨m₂, hloop, h₂, hev⟩ :=
    dropLoop_spec m.cache.slotCount h₁ hclean (length_lru_le h)
  obtain ⟨h₃, hview₃⟩ := releaseIdle_spec h₂ (2 ^ 64 - 1)
  refine ⟨_, by rw [dropAll, hloop]; rfl, h₃, ?_⟩
  rw [hview₃, ← hview]
  exact hev

/-- **`shrink`** drops clean blocks only. -/
theorem shrink_spec (want : Nat) :
    ∃ freed m' lru', m.shrink want = some (freed, m') ∧ CacheInv m'.cache lru' [] ∧
      EvictedAll m.view m'.view := by
  obtain ⟨h₁, hview⟩ := releaseIdle_spec h want
  have hloop := shrinkLoop_spec want _ (m.releaseIdle want).1 lru []
    ((append_nil lru).symm ▸ h₁) (length_lru_le h₁)
  have htail : (m.releaseIdle want).2.cache.tail = lru.getLastD NIL := h₁.linked.tail
  rw [← htail, hview] at hloop
  exact hloop

/-- **`invalidate`** forgets a block. -/
theorem invalidate_spec (b : Nat) :
    ∃ lru', CacheInv (m.invalidate b).cache lru' [] ∧ (m.invalidate b).view = m.view.forget b := by
  unfold invalidate
  cases hb : m.cache.map b with
  | none =>
    refine ⟨lru, h, View.ext ?_ rfl⟩
    refine (update_eq_self_iff.mpr ?_).symm
    simp [view, hb]
  | some s =>
    obtain ⟨hlru, hblock⟩ := (h.mapped b s).mp hb
    obtain ⟨xs, ys, rfl⟩ := append_of_mem hlru
    let f : Slot → Slot := fun t => { t with dirty := false }
    let c₁ := (m.cache.unlink s).unmap s
    have hc₁ : { m.cache with map := update m.cache.map b none }.unlink s = c₁ := by
      have hr := m.cache.unlink_relinked s
      rw [BlockCache.unlink_map, show c₁ = (m.cache.unlink s).unmap s from rfl, BlockCache.unmap,
        hr.map, hr.block, hblock]
    have h₁ : CacheInv c₁ (xs ++ ys) [s] := h.detach
    have h₂ : CacheInv (c₁.setSlot s f) (xs ++ ys) [s] :=
      h₁.setFlag f (fun _ => rfl) fun _ hx => Bool.noConfusion hx
    have hclean : ((c₁.setSlot s f).slots s).dirty = false :=
      congrArg Slot.dirty (c₁.setSlot_self s f)
    refine ⟨xs ++ ys, ?_, ?_⟩
    · simp only [hc₁]
      exact h₂.park hclean
    · simp only [hc₁]
      rw [← hblock, ← view_detach m s]
      exact view_setSlot (m := { m with cache := c₁ }) f (map_ne_held (m := { m with cache := c₁ }) h₁)

end

end CacheState

end NopeekOS.Storage
