import NopeekOS.Lib.LinkedList
import NopeekOS.Storage.Types

/-!
# The metadata block cache (`storage/npkfs/cache.rs`)

Slots own frames of memory. A slot is on the LRU list and in the hash map (it
holds a block), on `idle` (a frame but no block) or on `spare` (no frame).

`slots` is the `Vec<Slot>` as a function with its length `slotCount`; the vectors
used as stacks are lists with the top first. Frames are numbered, and frame 0 is
the source's "no frame": the first megabyte is never handed out. Bytes of a block
are any type `β`, of which the cache only makes copies.

The bytes of a slot are those of its frame in `mem`, so two slots with one frame
would share them. The device never fails. What `allocate_frame` and the watermark
before it come to is the argument `frame` of the calls that may take a slot.
-/

namespace NopeekOS.Storage

open Lib Function

/-- `u32::MAX`, no slot (cache.rs:16). -/
abbrev NIL : Nat := 2 ^ 32 - 1

/-- Frames below `IDENTITY_MAX`, all that the frame allocator manages
(memory.rs:16). -/
abbrev MAX_FRAMES : Nat := (8 * 2 ^ 40) / 4096

/-- `Slot` (cache.rs:18). -/
structure Slot where
  block : Nat
  frame : Nat
  dirty : Bool
  checked : Bool
  prev : Nat
  next : Nat
  deriving DecidableEq, Repr

/-- `BlockCache` (cache.rs:31). -/
structure BlockCache where
  slots : Nat → Slot
  slotCount : Nat
  map : Nat → Option Nat
  head : Nat
  tail : Nat
  idle : List Nat
  spare : List Nat
  dirty : List Nat

/-- The cache with the memory and the device it works on. -/
structure CacheState (β : Type*) where
  cache : BlockCache
  mem : Nat → β
  dev : Nat → β

namespace BlockCache

/-- `BlockCache::new` (cache.rs:53). No slot exists, so `slots` holds nothing of
meaning yet. -/
def new : BlockCache where
  slots := fun _ => ⟨0, 0, false, false, NIL, NIL⟩
  slotCount := 0
  map := fun _ => none
  head := NIL
  tail := NIL
  idle := []
  spare := []
  dirty := []

variable (c : BlockCache)

/-- Assign fields of `slots[s]`. -/
def setSlot (s : Nat) (f : Slot → Slot) : BlockCache :=
  { c with slots := update c.slots s (f (c.slots s)) }

/-- `if prev == NIL { head = next } else { slots[prev].next = next }`. -/
def setNext (prev next : Nat) : BlockCache :=
  if prev = NIL then { c with head := next } else c.setSlot prev fun t => { t with next := next }

/-- `if next == NIL { tail = prev } else { slots[next].prev = prev }`. -/
def setPrev (next prev : Nat) : BlockCache :=
  if next = NIL then { c with tail := prev } else c.setSlot next fun t => { t with prev := prev }

/-- `unlink` (cache.rs:77). -/
def unlink (s : Nat) : BlockCache :=
  let prev := (c.slots s).prev
  let next := (c.slots s).next
  (c.setNext prev next).setPrev next prev

/-- `if head != NIL { slots[head].prev = s }`. -/
def setHeadPrev (s : Nat) : BlockCache :=
  if c.head ≠ NIL then c.setSlot c.head fun t => { t with prev := s } else c

/-- `push_front` (cache.rs:83). -/
def pushFront (s : Nat) : BlockCache :=
  let c := c.setSlot s fun t => { t with prev := NIL, next := c.head }
  let c := c.setHeadPrev s
  { c with head := s, tail := if c.tail = NIL then s else c.tail }

/-- `touch` (cache.rs:91). -/
def touch (s : Nat) : BlockCache :=
  if c.head ≠ s then (c.unlink s).pushFront s else c

/-- `self.map.remove(&self.slots[s].block)`. -/
def unmap (s : Nat) : BlockCache :=
  { c with map := update c.map (c.slots s).block none }

/-- `slots.push(Slot { frame, .. })`. -/
def pushSlot (frame : Nat) : BlockCache :=
  { c with
    slots := update c.slots c.slotCount ⟨0, frame, false, false, NIL, NIL⟩
    slotCount := c.slotCount + 1 }

/-- The assignments at the end of `take` (cache.rs:127). -/
def assign (block s : Nat) : BlockCache :=
  let c := c.setSlot s fun t => { t with block := block, dirty := false, checked := false }
  let c := { c with map := update c.map block (some s) }
  c.pushFront s

/-- `deallocate_frame(slots[s].frame)` and the slot onto `spare`. -/
def retire (s : Nat) : BlockCache :=
  let c := c.setSlot s fun t => { t with frame := 0 }
  { c with spare := s :: c.spare }

end BlockCache

namespace CacheState

variable {β : Type*} (m : CacheState β)

/-- `bytes` (cache.rs:65). -/
def bytes (s : Nat) : β := m.mem (m.cache.slots s).frame

/-- `bytes_mut(s).copy_from_slice(buf)`. -/
def setBytes (s : Nat) (buf : β) : CacheState β :=
  { m with mem := update m.mem (m.cache.slots s).frame buf }

/-- `writeback` (cache.rs:135). -/
def writeback (s : Nat) : CacheState β :=
  if (m.cache.slots s).dirty then
    { m with
      cache := m.cache.setSlot s fun t => { t with dirty := false }
      dev := update m.dev (m.cache.slots s).block (m.bytes s) }
  else m

/-- The slot that `take` uses (cache.rs:102-126), or none. -/
def takeSlot (frame : Option Nat) : Option (Nat × CacheState β) :=
  match m.cache.idle with
  | s :: idle => some (s, { m with cache := { m.cache with idle := idle } })
  | [] =>
    match frame with
    | some frame =>
      match m.cache.spare with
      | s :: spare =>
        let cache := { m.cache with spare := spare }
        some (s, { m with cache := cache.setSlot s fun t => { t with frame := frame } })
      | [] => some (m.cache.slotCount % 2 ^ 32, { m with cache := m.cache.pushSlot frame })
    | none =>
      if m.cache.tail ≠ NIL then
        let s := m.cache.tail
        let m := m.writeback s
        some (s, { m with cache := (m.cache.unlink s).unmap s })
      else none

/-- `take` (cache.rs:101). -/
def take (frame : Option Nat) (block : Nat) : Except FsError (Nat × CacheState β) :=
  match m.takeSlot frame with
  | some (s, m) => .ok (s, { m with cache := m.cache.assign block s })
  | none => .error .outOfMemory

/-- `read` (cache.rs:143). -/
def read (frame : Option Nat) (block : Nat) : Except FsError (β × CacheState β) :=
  match m.cache.map block with
  | some s => .ok (m.bytes s, { m with cache := m.cache.touch s })
  | none => do
    let buf := m.dev block
    let (s, m) ← m.take frame block
    .ok (buf, m.setBytes s buf)

/-- `read_checked` (cache.rs:161): the answer and the bytes. -/
def readChecked (check : β → Bool) (frame : Option Nat) (block : Nat) :
    Except FsError ((Bool × β) × CacheState β) := do
  let (buf, m) ← m.read frame block
  let slot := m.cache.map block
  if slot.any fun s => (m.cache.slots s).checked then .ok ((true, buf), m)
  else if !check buf then .ok ((false, buf), m)
  else
    match slot with
    | some s =>
      .ok ((true, buf), { m with cache := m.cache.setSlot s fun t => { t with checked := true } })
    | none => .ok ((true, buf), m)

/-- The slot `s` of a block gets new bytes (cache.rs:188-194). -/
def fill (s : Nat) (buf : β) (checked : Bool) : CacheState β :=
  let m := { m with cache := m.cache.setSlot s fun t => { t with checked := checked } }
  let m := m.setBytes s buf
  if !(m.cache.slots s).dirty then
    let cache := m.cache.setSlot s fun t => { t with dirty := true }
    { m with cache := { cache with dirty := s :: cache.dirty } }
  else m

/-- `write_as` (cache.rs:183); `write` passes `false`, `write_checked` passes
`true`. -/
def writeAs (frame : Option Nat) (block : Nat) (buf : β) (checked : Bool) :
    Except FsError (CacheState β) := do
  let (s, m) ← match m.cache.map block with
    | some s => .ok (s, { m with cache := m.cache.touch s })
    | none => m.take frame block
  .ok (m.fill s buf checked)

/-- The slots a flush writes: listed, still dirty, in slot order, each once
(cache.rs:201-206). -/
def flushList (c : BlockCache) : List Nat :=
  ((c.dirty.filter fun s => (c.slots s).dirty).insertionSort (· ≤ ·)).destutter (· ≠ ·)

/-- `flush` (cache.rs:199). -/
def flush : CacheState β :=
  let list := flushList m.cache
  if list.isEmpty then { m with cache := { m.cache with dirty := [] } }
  else
    let dev := list.foldl (fun dev s => update dev (m.cache.slots s).block (m.bytes s)) m.dev
    let cache := list.foldl (fun c s => c.setSlot s fun t => { t with dirty := false }) m.cache
    { m with cache := { cache with dirty := [] }, dev := dev }

/-- The loop of `release_idle` (cache.rs:266): `idle` is what is left to pop. -/
def releaseLoop (want : Nat) : (idle : List Nat) → (freed : Nat) → CacheState β → Nat × CacheState β
  | [], freed, m => (freed, m)
  | s :: idle, freed, m =>
    if freed < want then
      let cache := { m.cache with idle := idle }
      releaseLoop want idle (freed + 1) { m with cache := cache.retire s }
    else (freed, m)

/-- `release_idle` (cache.rs:266). -/
def releaseIdle (want : Nat) : Nat × CacheState β :=
  releaseLoop want m.cache.idle 0 m

/-- The loop of `drop_all` (cache.rs:226); none when the bound on its iterations
is too small. -/
def dropLoop : (fuel : Nat) → CacheState β → Option (CacheState β)
  | 0, m => if m.cache.tail ≠ NIL then none else some m
  | fuel + 1, m =>
    if m.cache.tail ≠ NIL then
      let s := m.cache.tail
      let cache := (m.cache.unlink s).unmap s
      dropLoop fuel { m with cache := { cache with idle := s :: cache.idle } }
    else some m

/-- `drop_all` (cache.rs:224). The loop takes each slot off the list once. -/
def dropAll : Option (CacheState β) := do
  let m ← m.flush.dropLoop m.cache.slotCount
  some (m.releaseIdle (2 ^ 64 - 1)).2

/-- `invalidate` (cache.rs:237). -/
def invalidate (block : Nat) : CacheState β :=
  match m.cache.map block with
  | some s =>
    let cache := { m.cache with map := update m.cache.map block none }
    let cache := (cache.unlink s).setSlot s fun t => { t with dirty := false }
    { m with cache := { cache with idle := s :: cache.idle } }
  | none => m

/-- The loop of `shrink` (cache.rs:250), `s` its cursor; none when the bound on
its iterations is too small. -/
def shrinkLoop (want : Nat) : (fuel : Nat) → (freed s : Nat) → CacheState β →
    Option (Nat × CacheState β)
  | 0, freed, s, m => if freed < want ∧ s ≠ NIL then none else some (freed, m)
  | fuel + 1, freed, s, m =>
    if freed < want ∧ s ≠ NIL then
      let prev := (m.cache.slots s).prev
      if !(m.cache.slots s).dirty then
        let cache := (m.cache.unlink s).unmap s
        shrinkLoop want fuel (freed + 1) prev { m with cache := cache.retire s }
      else shrinkLoop want fuel freed prev m
    else some (freed, m)

/-- `shrink` (cache.rs:247). The cursor visits each slot of the list once. -/
def shrink (want : Nat) : Option (Nat × CacheState β) :=
  let (freed, m) := m.releaseIdle want
  m.shrinkLoop want m.cache.slotCount freed m.cache.tail

end CacheState

end NopeekOS.Storage
