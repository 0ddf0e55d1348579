import NopeekOS.Lib.Run
import NopeekOS.Storage.CacheOps

/-!
# The block cache is transparent

Over whole runs of the cache, with the frame allocator answering as it likes, the
view agrees with the last write to every block since its last invalidation.
`Transparent` spells out what follows for the next call.
-/

namespace NopeekOS.Storage

open Lib Function

variable {β : Type*}

/-- A call of the cache with what came of it. `elsewhere` is the rest of the
kernel writing to frames that the cache does not own. -/
inductive CacheOp (β : Type*) where
  | read (block : Nat) (frame : Option Nat) (result : Except FsError β)
  | readChecked (block : Nat) (frame : Option Nat) (result : Except FsError (Bool × β))
  | write (block : Nat) (buf : β) (checked : Bool) (frame : Option Nat)
      (result : Except FsError Unit)
  | flush
  | dropAll
  | invalidate (block : Nat)
  | shrink (want freed : Nat)
  | elsewhere

/-- The last writes after one more call. -/
def CacheOp.record (w : Nat → Option β) : CacheOp β → Nat → Option β
  | .write b buf _ _ (.ok _) => update w b (some buf)
  | .invalidate b => update w b none
  | _ => w

/-- The bytes of the last write to each block since its last invalidation. -/
def lastWrite (ops : List (CacheOp β)) : Nat → Option β := ops.foldl CacheOp.record fun _ => none

/-- One call. A call that fails changes nothing. `write_checked` is only called
with bytes that pass the block's check, as its contract asks. -/
inductive CacheStep (check : Nat → β → Bool) : CacheState β → CacheOp β → CacheState β → Prop where
  | read {m m' : CacheState β} {frame : Option Nat} {b : Nat} {x : β} :
      FrameChoice m.cache frame → m.read frame b = .ok (x, m') →
      CacheStep check m (.read b frame (.ok x)) m'
  | readFails {m : CacheState β} {frame : Option Nat} {b : Nat} {e : FsError} :
      FrameChoice m.cache frame → m.read frame b = .error e →
      CacheStep check m (.read b frame (.error e)) m
  | readChecked {m m' : CacheState β} {frame : Option Nat} {b : Nat} {r : Bool} {x : β} :
      FrameChoice m.cache frame → m.readChecked (check b) frame b = .ok ((r, x), m') →
      CacheStep check m (.readChecked b frame (.ok (r, x))) m'
  | readCheckedFails {m : CacheState β} {frame : Option Nat} {b : Nat} {e : FsError} :
      FrameChoice m.cache frame → m.readChecked (check b) frame b = .error e →
      CacheStep check m (.readChecked b frame (.error e)) m
  | write {m m' : CacheState β} {frame : Option Nat} {b : Nat} {buf : β} {checked : Bool} :
      FrameChoice m.cache frame → (checked = true → check b buf = true) →
      m.writeAs frame b buf checked = .ok m' →
      CacheStep check m (.write b buf checked frame (.ok ())) m'
  | writeFails {m : CacheState β} {frame : Option Nat} {b : Nat} {buf : β} {checked : Bool}
      {e : FsError} : FrameChoice m.cache frame → m.writeAs frame b buf checked = .error e →
      CacheStep check m (.write b buf checked frame (.error e)) m
  | flush {m : CacheState β} : CacheStep check m .flush m.flush
  | dropAll {m m' : CacheState β} : m.dropAll = some m' → CacheStep check m .dropAll m'
  | invalidate {m : CacheState β} {b : Nat} : CacheStep check m (.invalidate b) (m.invalidate b)
  | shrink {m m' : CacheState β} {want freed : Nat} : m.shrink want = some (freed, m') →
      CacheStep check m (.shrink want freed) m'
  | elsewhere {m : CacheState β} {mem : Nat → β} :
      (∀ s < m.cache.slotCount, (m.cache.slots s).frame ≠ 0 →
        mem (m.cache.slots s).frame = m.mem (m.cache.slots s).frame) →
      CacheStep check m .elsewhere { m with mem := mem }

/-- What a cache shows whose last writes are `w`: the slots are partitioned (with
the further parts of `CacheInv`), reads return the last write or else the device's
bytes, a flush brings them to the device, and a call fails only for want of a
frame. -/
structure Transparent (check : Nat → β → Bool) (w : Nat → Option β) (m : CacheState β) : Prop where
  slots : ∃ lru, CacheInv m.cache lru []
  read : ∀ frame b x m', FrameChoice m.cache frame → m.read frame b = .ok (x, m') →
    x = (w b).getD (m.dev b)
  readChecked : ∀ frame b r x m', FrameChoice m.cache frame →
    m.readChecked (check b) frame b = .ok ((r, x), m') →
    x = (w b).getD (m.dev b) ∧ (r = true → check b x = true)
  flush : ∀ b, m.flush.dev b = (w b).getD (m.dev b)
  dropAll : ∃ m', m.dropAll = some m' ∧ ∀ b, m'.dev b = (w b).getD (m.dev b)
  shrink : ∀ want, ∃ r, m.shrink want = some r
  fails : ∀ frame b buf checked e, FrameChoice m.cache frame →
    (m.read frame b = .error e ∨ m.readChecked (check b) frame b = .error e ∨
      m.writeAs frame b buf checked = .error e) → e = .outOfMemory ∧ m.NoFrame frame

/-! ## The views along a run -/

open CacheState View

section

variable {check : Nat → β → Bool} {a a' : View β} {w : Nat → Option β} {b : Nat} {x : β}

section

variable (h : Agrees check a w)

include h

theorem agrees_evicted (hev : Evicted a b a') : Agrees check a' w := by
  cases hev with
  | none => exact h
  | one d _ => exact h.evict d

theorem agrees_evictedAll (hev : EvictedAll a a') : Agrees check a' w := by
  induction hev with
  | refl => exact h
  | step d _ ih => exact ih.evict d

theorem agrees_fetched (hf : Fetched a b x a') : Agrees check a' w ∧ x = (w b).getD (a.dev b) := by
  cases hf with
  | hit e he => exact ⟨h, h.bytes he⟩
  | miss a₁ hnone hev =>
    refine ⟨(agrees_evicted h hev).load ?_, h.dev_eq hnone⟩
    rw [(evicted_at hev).1, hnone]

theorem agrees_checked {r : Bool} {e : Entry β} (he : a.entries b = some e) (hx : e.bytes = x)
    (hc : Checked (check b) a b x r a') : Agrees check a' w ∧ (r = true → check b x = true) := by
  subst hx
  cases hc with
  | known e' he' hflag =>
    rw [he, Option.some.injEq] at he'
    subst he'
    have hat := h b
    rw [he] at hat
    exact ⟨h, fun _ => hat.2.2 hflag⟩
  | fails _ => exact ⟨h, fun hr => Bool.noConfusion hr⟩
  | passes hpass => exact ⟨h.mark he hpass, fun _ => hpass⟩

end

/-- Evicting clean blocks leaves the device alone. -/
theorem evictedAll_clean (hclean : ∀ b e, a.entries b = some e → e.dirty = false)
    (hev : EvictedAll a a') :
    a'.dev = a.dev ∧ ∀ b e, a'.entries b = some e → e.dirty = false := by
  induction hev with
  | refl => exact ⟨rfl, hclean⟩
  | @step a₁ d _ ih =>
    obtain ⟨hdev, hclean₁⟩ := ih
    have hsettled : settled (a₁.entries d) (a₁.dev d) = a₁.dev d := by
      cases he : a₁.entries d with
      | none => rfl
      | some e => simp [settled, hclean₁ d e he]
    refine ⟨?_, fun b e he => ?_⟩
    · simp only [View.evict, hsettled, update_eq_self]
      exact hdev
    · by_cases hb : b = d
      · subst hb
        simp [View.evict] at he
      · exact hclean₁ b e (by simpa [View.evict, update_of_ne hb] using he)

end

/-! ## Runs -/

/-- What every step keeps. -/
def CacheGood (check : Nat → β → Bool) (w : Nat → Option β) (m : CacheState β) : Prop :=
  ∃ lru, CacheInv m.cache lru [] ∧ Agrees check m.view w

variable {check : Nat → β → Bool} {m m' : CacheState β} {w : Nat → Option β}

/-- **Step**: every call keeps the invariant and the agreement. -/
theorem cacheGood_step {op : CacheOp β} (h : CacheGood check w m) (hstep : CacheStep check m op m') :
    CacheGood check (op.record w) m' := by
  obtain ⟨lru, hinv, hagree⟩ := h
  cases hstep with
  | @read _ frame b x hf hread =>
    have hspec := read_spec hinv hf b
    rw [hread] at hspec
    obtain ⟨lru₁, h₁, hfetch⟩ := hspec.of_ok
    exact ⟨lru₁, h₁, (agrees_fetched hagree hfetch).1⟩
  | readFails _ _ => exact ⟨lru, hinv, hagree⟩
  | @readChecked _ frame b r x hf hread =>
    have hspec := readChecked_spec (check b) hinv hf b
    rw [hread] at hspec
    obtain ⟨lru₁, a, h₁, hfetch, hcheck⟩ := hspec.of_ok
    obtain ⟨e, he, hx⟩ := fetched_at hfetch
    exact ⟨lru₁, h₁, (agrees_checked (agrees_fetched hagree hfetch).1 he hx hcheck).1⟩
  | readCheckedFails _ _ => exact ⟨lru, hinv, hagree⟩
  | @write _ frame b buf checked hf hbuf hwrite =>
    have hspec := writeAs_spec hinv hf b buf checked
    rw [hwrite] at hspec
    obtain ⟨lru₁, h₁, a₁, hev, hview⟩ := hspec.of_ok
    exact ⟨lru₁, h₁, hview ▸ (agrees_evicted hagree hev).store hbuf⟩
  | writeFails _ _ => exact ⟨lru, hinv, hagree⟩
  | flush =>
    obtain ⟨h₁, -, hview⟩ := flush_spec hinv
    exact ⟨lru, h₁, hview ▸ hagree.flush⟩
  | dropAll hdrop =>
    obtain ⟨m₁, hdrop', h₁, hev⟩ := dropAll_spec hinv
    rw [hdrop] at hdrop'
    cases hdrop'
    exact ⟨[], h₁, agrees_evictedAll hagree.flush hev⟩
  | @invalidate b =>
    obtain ⟨lru₁, h₁, hview⟩ := invalidate_spec hinv b
    exact ⟨lru₁, h₁, hview ▸ hagree.forget⟩
  | @shrink _ want freed hshrink =>
    obtain ⟨freed', m₁, lru₁, hshrink', h₁, hev⟩ := shrink_spec hinv want
    rw [hshrink] at hshrink'
    cases hshrink'
    exact ⟨lru₁, h₁, agrees_evictedAll hagree hev⟩
  | @elsewhere mem hmem =>
    refine ⟨lru, hinv, ?_⟩
    have hview : ({ m with mem := mem } : CacheState β).view = m.view := by
      refine view_congr rfl rfl fun d t ht => ?_
      have hlru := ((hinv.mapped d t).mp ht).1
      have hframe := (hinv.framed.valid t (by simp [hlru])).1
      have hlt : t < m.cache.slotCount := hinv.mem_iff.mp (by simp [hlru])
      simp only [entry, bytes, hmem t hlt (Nat.ne_of_gt hframe)]
    exact hview ▸ hagree

/-- **Run**: along a run the agreement is with the last writes of its calls. -/
theorem cacheGood_run {ops : List (CacheOp β)} (hrun : Run (CacheStep check) m ops m') :
    ∀ {w : Nat → Option β}, CacheGood check w m →
      CacheGood check (ops.foldl CacheOp.record w) m' := by
  induction hrun with
  | nil => exact fun h => h
  | cons hstep _ ih => exact fun h => ih (cacheGood_step h hstep)

theorem CacheGood.transparent (h : CacheGood check w m) : Transparent check w m := by
  obtain ⟨lru, hinv, hagree⟩ := h
  obtain ⟨-, -, hflush⟩ := flush_spec hinv
  have hdev : ∀ b, m.flush.dev b = (w b).getD (m.dev b) := fun b => by
    rw [show m.flush.dev = m.view.flush.dev from congrArg View.dev hflush]
    exact hagree.flush_dev b
  constructor
  case slots => exact ⟨lru, hinv⟩
  case read =>
    intro frame b x m' hf hread
    have hspec := read_spec hinv hf b
    rw [hread] at hspec
    obtain ⟨-, -, hfetch⟩ := hspec.of_ok
    exact (agrees_fetched hagree hfetch).2
  case readChecked =>
    intro frame b r x m' hf hread
    have hspec := readChecked_spec (check b) hinv hf b
    rw [hread] at hspec
    obtain ⟨-, a, -, hfetch, hcheck⟩ := hspec.of_ok
    obtain ⟨e, he, hx⟩ := fetched_at hfetch
    obtain ⟨hagree₁, hbytes⟩ := agrees_fetched hagree hfetch
    exact ⟨hbytes, (agrees_checked hagree₁ he hx hcheck).2⟩
  case flush => exact hdev
  case dropAll =>
    obtain ⟨m₁, hdrop, -, hev⟩ := dropAll_spec hinv
    refine ⟨m₁, hdrop, fun b => ?_⟩
    have hclean : ∀ b e, m.view.flush.entries b = some e → e.dirty = false := by
      intro b e he
      obtain ⟨e', -, rfl⟩ := Option.map_eq_some_iff.mp he
      rfl
    rw [show m₁.dev = m.view.flush.dev from (evictedAll_clean hclean hev).1]
    exact hagree.flush_dev b
  case shrink =>
    intro want
    obtain ⟨freed, m₁, -, hshrink, -⟩ := shrink_spec hinv want
    exact ⟨_, hshrink⟩
  case fails =>
    rintro frame b buf checked e hf (hread | hread | hwrite)
    · exact (hread ▸ read_spec hinv hf b).of_error
    · exact (hread ▸ readChecked_spec (check b) hinv hf b).of_error
    · exact (hwrite ▸ writeAs_spec hinv hf b buf checked).of_error

/-- **The block cache is transparent**: after any run from an empty cache, over any
memory and device, it shows the last writes of the run. -/
theorem cache_transparent {check : Nat → β → Bool} {mem dev : Nat → β} {ops : List (CacheOp β)}
    {m : CacheState β} (hrun : Run (CacheStep check) ⟨BlockCache.new, mem, dev⟩ ops m) :
    Transparent check (lastWrite ops) m :=
  (cacheGood_run (w := fun _ => none) hrun ⟨[], CacheInv.new, fun _ => rfl⟩).transparent

/-- A block written to an empty cache that got a frame reaches the device. -/
theorem cache_transparent_write : ∃ m,
    Run (CacheStep fun _ _ => true) ⟨BlockCache.new, fun _ => 0, fun _ => 0⟩
      [.write 300 42 true (some 1) (.ok ()), .invalidate 301] m ∧ m.flush.dev 300 = 42 := by
  have hframe : FrameChoice BlockCache.new (some 1) := by
    rintro f ⟨⟩
    exact ⟨by decide, by decide, fun s hs => absurd hs (Nat.not_lt_zero s)⟩
  have hwrite : CacheStep (fun _ _ => true) ⟨BlockCache.new, fun _ => 0, fun _ => 0⟩
      (.write 300 42 true (some 1) (.ok ())) _ := .write hframe (fun _ => rfl) rfl
  have hrun := Run.cons hwrite (Run.single (CacheStep.invalidate (b := 301)))
  exact ⟨_, hrun, (cache_transparent hrun).flush 300⟩

end NopeekOS.Storage
