import NopeekOS.Storage.CacheInv

/-!
# What the block cache shows

Forgetting slots, frames and lists, the cache is a partial map from blocks to
entries in front of a device (`View`). The operations of the view say what the
cache is for: load, store, evict (with the write-back of a dirty entry), forget,
flush. `Agrees` ties a view to the last bytes written to each block, and every
operation of the view keeps it.

`CacheState.view` is the view of a state, and the second half says what the moves
of a slot do to it.
-/

namespace NopeekOS.Storage

open Lib Function

variable {β : Type*} {c : BlockCache}

/-- A cached block. -/
structure Entry (β : Type*) where
  bytes : β
  dirty : Bool
  checked : Bool

/-- The cached blocks, and the device. -/
@[ext] structure View (β : Type*) where
  entries : Nat → Option (Entry β)
  dev : Nat → β

namespace View

/-- The device's bytes of a block once its entry has been written back. -/
def settled : Option (Entry β) → β → β
  | some e, d => if e.dirty then e.bytes else d
  | none, d => d

/-- Drop a block, writing it back if it is dirty. -/
def evict (a : View β) (b : Nat) : View β where
  entries := update a.entries b none
  dev := update a.dev b (settled (a.entries b) (a.dev b))

/-- Fetch a block from the device. -/
def load (a : View β) (b : Nat) : View β :=
  { a with entries := update a.entries b (some ⟨a.dev b, false, false⟩) }

/-- Write a block. -/
def store (a : View β) (b : Nat) (buf : β) (checked : Bool) : View β :=
  { a with entries := update a.entries b (some ⟨buf, true, checked⟩) }

/-- Note that a cached block passed its check. -/
def mark (a : View β) (b : Nat) : View β :=
  let marked := (a.entries b).map fun e => { e with checked := true }
  { a with entries := update a.entries b marked }

/-- Drop a block without writing it back. -/
def forget (a : View β) (b : Nat) : View β :=
  { a with entries := update a.entries b none }

/-- Write back every dirty block. -/
def flush (a : View β) : View β where
  entries := fun b => (a.entries b).map fun e => { e with dirty := false }
  dev := fun b => settled (a.entries b) (a.dev b)

/-! ## Agreement with the last writes -/

/-- A block on which the cache agrees with the last write `w` (none: none since
the last invalidation) in front of the device's bytes `d`. -/
def AgreesAt (check : β → Bool) (w : Option β) (d : β) : Option (Entry β) → Prop
  | none => d = w.getD d
  | some e => e.bytes = w.getD d ∧ (e.dirty = false → e.bytes = d) ∧
      (e.checked = true → check e.bytes = true)

/-- The view agrees with the last writes `w` on every block. -/
def Agrees (check : Nat → β → Bool) (a : View β) (w : Nat → Option β) : Prop :=
  ∀ b, AgreesAt (check b) (w b) (a.dev b) (a.entries b)

section

variable {check : Nat → β → Bool} {a : View β} {w : Nat → Option β} {b : Nat} {o : Option (Entry β)}

section

variable (h : Agrees check a w)

include h

/-- The bytes of a cached block are the current ones. -/
theorem Agrees.bytes {e : Entry β} (hb : a.entries b = some e) :
    e.bytes = (w b).getD (a.dev b) := by
  have hat := h b
  rw [hb] at hat
  exact hat.1

/-- The device's bytes of a block that is not cached are the current ones. -/
theorem Agrees.dev_eq (hb : a.entries b = none) : a.dev b = (w b).getD (a.dev b) := by
  have hat := h b
  rw [hb] at hat
  exact hat

/-- Agreement after a change at one block, that leaves the device alone. -/
theorem Agrees.update {w' : Nat → Option β} (hw : ∀ d, d ≠ b → w' d = w d)
    (hat : AgreesAt (check b) (w' b) (a.dev b) o) :
    Agrees check ⟨update a.entries b o, a.dev⟩ w' := by
  intro d
  by_cases hd : d = b
  · subst hd
    simpa only [update_self] using hat
  · simpa only [update_of_ne hd, hw d hd] using h d

theorem Agrees.load (hb : a.entries b = none) : Agrees check (a.load b) w :=
  h.update (fun _ _ => rfl) ⟨h.dev_eq hb, fun _ => rfl, fun hc => Bool.noConfusion hc⟩

theorem Agrees.store {buf : β} {checked : Bool} (hbuf : checked = true → check b buf = true) :
    Agrees check (a.store b buf checked) (Function.update w b (some buf)) := by
  refine h.update (fun d hd => update_of_ne hd ..) ?_
  rw [update_self]
  exact ⟨rfl, fun hd => Bool.noConfusion hd, hbuf⟩

theorem Agrees.forget : Agrees check (a.forget b) (Function.update w b none) := by
  refine h.update (fun d hd => update_of_ne hd ..) ?_
  rw [update_self]
  exact rfl

theorem Agrees.mark {e : Entry β} (hb : a.entries b = some e) (hcheck : check b e.bytes = true) :
    Agrees check (a.mark b) w := by
  have hat := h b
  rw [hb] at hat
  refine h.update (fun _ _ => rfl) ?_
  rw [hb]
  exact ⟨hat.1, hat.2.1, fun _ => hcheck⟩

end

/-- Writing a block back leaves the current bytes on the device. -/
theorem AgreesAt.settled {check : β → Bool} {w : Option β} {d : β} (h : AgreesAt check w d o) :
    View.settled o d = w.getD d ∧ w.getD (View.settled o d) = w.getD d := by
  suffices heq : View.settled o d = w.getD d by
    refine ⟨heq, ?_⟩
    rw [heq]
    cases w <;> rfl
  cases o with
  | none => exact h
  | some e =>
    obtain ⟨hbytes, hclean, -⟩ := h
    show (if e.dirty then e.bytes else d) = w.getD d
    split
    · exact hbytes
    · rename_i hd
      exact (hclean (by simpa using hd)).symm.trans hbytes

theorem Agrees.evict (h : Agrees check a w) (b : Nat) : Agrees check (a.evict b) w := by
  intro d
  by_cases hd : d = b
  · subst hd
    obtain ⟨hdev, hw⟩ := (h d).settled
    simp only [View.evict, update_self]
    exact hdev.trans hw.symm
  · simpa only [View.evict, update_of_ne hd] using h d

theorem Agrees.flush (h : Agrees check a w) : Agrees check a.flush w := by
  intro b
  have hat := h b
  obtain ⟨hdev, hw⟩ := hat.settled
  simp only [View.flush]
  cases he : a.entries b with
  | none =>
    rw [he] at hdev hw
    exact hdev.trans hw.symm
  | some e =>
    rw [he] at hat hdev hw
    exact ⟨hat.1.trans hw.symm, fun _ => hat.1.trans hdev.symm, hat.2.2⟩

/-- **After a flush the device has the current bytes of every block.** -/
theorem Agrees.flush_dev (h : Agrees check a w) (b : Nat) :
    a.flush.dev b = (w b).getD (a.dev b) := (h b).settled.1

end

end View

/-! ## The view of a cache -/

namespace CacheState

/-- What a slot shows of the block it holds. -/
def entry (m : CacheState β) (s : Nat) : Entry β :=
  ⟨m.bytes s, (m.cache.slots s).dirty, (m.cache.slots s).checked⟩

/-- The view of a state. -/
def view (m : CacheState β) : View β := ⟨fun b => (m.cache.map b).map m.entry, m.dev⟩

variable {m m' : CacheState β} {lru held xs ys : List Nat} {s b : Nat}

/-- A change at one block. -/
theorem view_update {o : Option (Entry β)} (m m' : CacheState β) (b : Nat) (hdev : m'.dev = m.dev)
    (hother : ∀ d, d ≠ b → m'.cache.map d = m.cache.map d ∧
      ∀ t, m.cache.map d = some t → m'.entry t = m.entry t)
    (hb : (m'.cache.map b).map m'.entry = o) :
    m'.view = ⟨update m.view.entries b o, m.dev⟩ := by
  refine View.ext (funext fun d => ?_) hdev
  by_cases hd : d = b
  · subst hd
    show (m'.cache.map d).map m'.entry = update m.view.entries d o d
    rw [update_self]
    exact hb
  · obtain ⟨hmap, hentry⟩ := hother d hd
    simp only [update_of_ne hd, view, hmap]
    exact Option.map_congr hentry

/-- A change that no mapped slot sees. -/
theorem view_congr (hdev : m'.dev = m.dev) (hmap : m'.cache.map = m.cache.map)
    (hentry : ∀ d t, m.cache.map d = some t → m'.entry t = m.entry t) : m'.view = m.view := by
  refine View.ext (funext fun d => ?_) hdev
  simp only [view, hmap]
  exact Option.map_congr (hentry d)

theorem entry_relinked (hr : m.cache.Relinked c) (s : Nat) :
    { m with cache := c }.entry s = m.entry s := by
  simp only [entry, bytes, hr.frame, hr.isDirty, hr.checked]

/-- A new LRU order does not show. -/
theorem view_relinked (hr : m.cache.Relinked c) : { m with cache := c }.view = m.view :=
  view_congr rfl hr.map fun _ t _ => entry_relinked hr t

/-- Taking a slot off the list drops its block. -/
theorem view_detach (m : CacheState β) (s : Nat) :
    { m with cache := (m.cache.unlink s).unmap s }.view = m.view.forget (m.cache.slots s).block := by
  have hr := m.cache.unlink_relinked s
  have hmap : ((m.cache.unlink s).unmap s).map
      = update m.cache.map (m.cache.slots s).block none := by
    rw [BlockCache.unmap, hr.map, hr.block]
  refine view_update m _ (m.cache.slots s).block rfl (fun d hd => ?_) ?_
  · exact ⟨by rw [hmap, update_of_ne hd], fun t _ => entry_relinked hr t⟩
  · rw [hmap, update_self]
    rfl

/-- Assigning to a slot that holds no block does not show. -/
theorem view_setSlot (f : Slot → Slot) (hs : ∀ d, m.cache.map d ≠ some s) :
    { m with cache := m.cache.setSlot s f }.view = m.view := by
  refine view_congr rfl rfl fun d t ht => ?_
  have hts : t ≠ s := fun he => hs d (he ▸ ht)
  simp only [entry, bytes, m.cache.setSlot_of_ne f hts]

/-- Setting flags of the slot of `b`. -/
theorem view_setFlag (f : Slot → Slot) (h : CacheInv m.cache lru held) (hb : m.cache.map b = some s)
    (hf : ∀ x, (f x).frame = x.frame) :
    { m with cache := m.cache.setSlot s f }.view = ⟨update m.view.entries b
        (some ⟨m.bytes s, (f (m.cache.slots s)).dirty, (f (m.cache.slots s)).checked⟩), m.dev⟩ := by
  refine view_update m _ b rfl (fun d hd => ⟨rfl, fun t ht => ?_⟩) ?_
  · have hts : t ≠ s := by
      rintro rfl
      exact hd (((h.mapped d t).mp ht).2.symm.trans ((h.mapped b t).mp hb).2)
    simp only [entry, bytes, m.cache.setSlot_of_ne f hts]
  · show (m.cache.map b).map _ = _
    rw [hb]
    simp only [Option.map_some, entry, bytes, BlockCache.setSlot_self, hf]

/-- Copying bytes into the slot of `b`: no other slot has its frame. -/
theorem view_setBytes (buf : β) (h : CacheInv m.cache lru held) (hb : m.cache.map b = some s) :
    (m.setBytes s buf).view = ⟨update m.view.entries b
        (some ⟨buf, (m.cache.slots s).dirty, (m.cache.slots s).checked⟩), m.dev⟩ := by
  refine view_update m _ b rfl (fun d hd => ⟨rfl, fun t ht => ?_⟩) ?_
  · have hmt := (h.mapped d t).mp ht
    have hms := (h.mapped b s).mp hb
    have hframe : (m.cache.slots t).frame ≠ (m.cache.slots s).frame := by
      intro heq
      have hts := h.framed.inj t (by simp [hmt.1]) s (by simp [hms.1]) heq
      exact hd (hmt.2.symm.trans (hts ▸ hms.2))
    simp only [entry, bytes, setBytes, update_of_ne hframe]
  · show (m.cache.map b).map _ = _
    rw [hb]
    simp only [Option.map_some, entry, bytes, setBytes, update_self]

section

variable (h : CacheInv m.cache lru (s :: held))

include h

/-- The slot in hand holds no block. -/
theorem map_ne_held (d : Nat) : m.cache.map d ≠ some s :=
  fun hd => h.held_notMem (by simp [((h.mapped d s).mp hd).1])

theorem view_retire : { m with cache := m.cache.retire s }.view = m.view :=
  view_setSlot (fun t => { t with frame := 0 }) (map_ne_held h)

/-- The slot in hand takes a block. -/
theorem view_attach (b : Nat) : { m with cache := m.cache.assign b s }.view =
      ⟨update m.view.entries b (some ⟨m.bytes s, false, false⟩), m.dev⟩ := by
  let f : Slot → Slot := fun x => { x with block := b, dirty := false, checked := false }
  let c₂ : BlockCache :=
    { m.cache.setSlot s f with map := update m.cache.map b (some s) }
  have hs := h.held_notMem
  let m₂ : CacheState β := { m with cache := c₂ }
  have hrelink : { m₂ with cache := m.cache.assign b s }.view = m₂.view :=
    view_relinked (c₂.pushFront_relinked s)
  refine hrelink.trans (view_update m m₂ b rfl (fun d hd => ?_) ?_)
  · refine ⟨update_of_ne hd .., fun t ht => ?_⟩
    have hts : t ≠ s := by
      rintro rfl
      exact hs (by simp [((h.mapped d t).mp ht).1])
    simp only [m₂, c₂, entry, bytes, m.cache.setSlot_of_ne f hts]
  · simp only [m₂, c₂, update_self, Option.map_some, entry, bytes,
      BlockCache.setSlot_self, f]

end

end CacheState

end NopeekOS.Storage
