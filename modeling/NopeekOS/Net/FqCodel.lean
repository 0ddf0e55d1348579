import NopeekOS.Lib.ByteBits
import NopeekOS.Lib.RingBuf
import NopeekOS.Lib.SlotChain

/-!
# The transmit queue: fq_codel

Frames wait in 256 slots shared by 16 flows (fq_codel.rs). A flow is a FIFO through `link`, the
free slots are a list through the same array, and two rings of flow numbers say whose turn it is:
new flows before old ones, by deficit round robin. CoDel drops from the head of a flow whose
packets wait too long.

Arrays are functions of the index. A loop of the source whose end depends on the links or on the
clock takes fuel, and `none` means that it ran out.
-/

namespace NopeekOS.Net.Fq

open Lib Function

def MTU : Nat := 1514
def FLOWS : Nat := 16
def CAP : Nat := 256
/-- No slot. -/
def EMPTY : Nat := 65535
def QUANTUM : Int := 1514
def REC_INV_SQRT_MAX : Nat := 65535

/-! ## CoDel's control law -/

/-- `newton_step` (fq_codel.rs:45), the products as `u64`. -/
def newtonStep (count recInvSqrt : Nat) : Nat :=
  let invsqrt := recInvSqrt * 2 ^ 16
  let invsqrt2 := invsqrt * invsqrt / 2 ^ 32
  let val := (3 * 2 ^ 32 + 2 ^ 64 - count * invsqrt2) % 2 ^ 64
  let val := val / 2 ^ 2
  let val := val * invsqrt % 2 ^ 64 / 2 ^ (32 - 2 + 1)
  val / 2 ^ 16 % 2 ^ 16

/-- `control_law` (fq_codel.rs:55). -/
def controlLaw (t interval recInvSqrt : Nat) : Nat :=
  (t + interval * (recInvSqrt * 2 ^ 16) % 2 ^ 64 / 2 ^ 32) % 2 ^ 64

/-- `Codel` (fq_codel.rs:60). -/
structure Codel where
  count : Nat
  lastcount : Nat
  dropping : Bool
  recInvSqrt : Nat
  firstAboveTime : Nat
  dropNext : Nat

def Codel.new : Codel := ⟨0, 0, false, 0, 0, 0⟩

/-- Which ring a flow is in. -/
inductive InList where
  | none
  | new
  | old
  deriving DecidableEq, Repr

/-- `Flow` (fq_codel.rs:82). -/
structure Flow where
  head : Nat
  tail : Nat
  deficit : Int
  inList : InList
  codel : Codel

/-- The constant initialiser (fq_codel.rs:93), before `lazy_init`. -/
def Flow.zeroed : Flow := ⟨0, 0, 0, .none, .new⟩

def Flow.new : Flow := ⟨EMPTY, EMPTY, 0, .none, .new⟩

/-- `FlowQ` (fq_codel.rs:102): a ring with one cell more than there are flows. -/
abbrev FlowQ := RingBuf Nat

def FlowQ.new : FlowQ := ⟨fun _ => 0, 0, 0⟩

def FlowQ.push (r : FlowQ) (f : Nat) : FlowQ := RingBuf.push (FLOWS + 1) r f

def FlowQ.pop (r : FlowQ) : FlowQ := RingBuf.pop (FLOWS + 1) r

/-- `FqCodel` (fq_codel.rs:132). -/
structure FqCodel where
  bufs : Nat → List Byte
  lens : Nat → Nat
  ts : Nat → Nat
  link : Nat → Nat
  free : Nat
  flows : Nat → Flow
  newQ : FlowQ
  oldQ : FlowQ
  backlog : Nat
  target : Nat
  interval : Nat
  dropsAqm : Nat
  dropsFull : Nat
  dropsOversize : Nat

/-! ## Flows of frames -/

/-- `mix` in `flow_hash`: one step of FNV-1a. -/
def mix (h : BitVec 32) (b : Byte) : BitVec 32 := (h ^^^ b.zeroExtend 32) * 0x01000193#32

/-- `flow_hash` (fq_codel.rs:485): the IPv4 5-tuple, or the destination MAC. -/
def flowHash (frame : List Byte) : BitVec 32 :=
  let h : BitVec 32 := 0x811c9dc5#32
  if 34 ≤ frame.length ∧ frame.getD 12 0 = 0x08#8 ∧ frame.getD 13 0 = 0x00#8 then
    let ihl := (frame.getD 14 0 &&& 0x0f#8).toNat * 4
    let proto := frame.getD 23 0
    let h := ((frame.drop 26).take 8).foldl mix h
    let h := mix h proto
    let l4 := 14 + ihl
    if (proto = 6#8 ∨ proto = 17#8) ∧ l4 + 4 ≤ frame.length then
      ((frame.drop l4).take 4).foldl mix h
    else h
  else (frame.take 6).foldl mix h

/-- The flow of a frame. -/
def flowOf (frame : List Byte) : Nat := (flowHash frame &&& 15#32).toNat

namespace FqCodel

/-- `new` (fq_codel.rs:157): all zero. -/
def new : FqCodel where
  bufs := fun _ => List.replicate MTU 0
  lens := fun _ => 0
  ts := fun _ => 0
  link := fun _ => 0
  free := 0
  flows := fun _ => .zeroed
  newQ := .new
  oldQ := .new
  backlog := 0
  target := 0
  interval := 0
  dropsAqm := 0
  dropsFull := 0
  dropsOversize := 0

variable (q : FqCodel)

/-- Every slot free, every flow empty (fq_codel.rs:194-202, 208-214). -/
def setup : FqCodel :=
  { q with
    link := fun i => if i + 1 < CAP then i + 1 else EMPTY
    free := 0
    flows := fun _ => .new }

/-- `lazy_init` (fq_codel.rs:188). An interval of zero stands for "not done yet". -/
def lazyInit (hz : Nat) : FqCodel :=
  if q.interval = 0 then { q.setup with target := max hz 1 / 200, interval := max hz 1 / 10 } else q

/-- `clear` (fq_codel.rs:207). -/
def clear : FqCodel := { q.setup with newQ := .new, oldQ := .new, backlog := 0 }

/-! ## Slots -/

/-- `alloc_slot` (fq_codel.rs:220). -/
def allocSlot : Option Nat × FqCodel :=
  if q.free = EMPTY then (none, q)
  else
    let s := q.free
    (some s, { q with free := q.link s, link := update q.link s EMPTY })

/-- `free_slot` (fq_codel.rs:230). -/
def freeSlot (s : Nat) : FqCodel := { q with link := update q.link s q.free, free := s }

def setFlow (f : Nat) (fl : Flow) : FqCodel := { q with flows := update q.flows f fl }

def setCodel (f : Nat) (c : Codel) : FqCodel := q.setFlow f { q.flows f with codel := c }

/-- `flow_pop` (fq_codel.rs:236). -/
def flowPop (f : Nat) : Option Nat × FqCodel :=
  let s := (q.flows f).head
  if s = EMPTY then (none, q)
  else
    let next := q.link s
    (some s, q.setFlow f
      { q.flows f with head := next, tail := if next = EMPTY then EMPTY else (q.flows f).tail })

/-! ## Enqueue -/

/-- The inner loop of `drop_fattest` (fq_codel.rs:313-316): the bytes from slot `s` on. -/
def chainBytes (lens link : Nat → Nat) : Nat → Nat → Nat → Option Nat
  | 0, _, _ => none
  | fuel + 1, s, bytes =>
    if s = EMPTY then some bytes else chainBytes lens link fuel (link s) (bytes + lens s)

/-- The search of `drop_fattest` over the flows `fs`: the best so far, with its bytes. -/
def fattest : List Nat → Option Nat × Nat → Option (Option Nat × Nat)
  | [], best => some best
  | f :: fs, best => do
    let bytes ← chainBytes q.lens q.link (CAP + 1) (q.flows f).head 0
    fattest fs (if best.2 < bytes then (some f, bytes) else best)

/-- `drop_fattest` (fq_codel.rs:307): whether a packet was dropped. -/
def dropFattest : Option (Bool × FqCodel) := do
  let (best, _) ← q.fattest (List.range FLOWS) (none, 0)
  match best with
  | none => pure (false, q)
  | some f =>
    match q.flowPop f with
    | (none, q) => pure (false, q)
    | (some s, q) =>
      let q := { q with backlog := q.backlog - q.lens s }.freeSlot s
      pure (true, { q with dropsFull := (q.dropsFull + 1) % 2 ^ 64 })

/-- A slot for a frame (fq_codel.rs:263-277); if the pool is full the fattest flow loses its
head. -/
def slotFor : Option (Option Nat × FqCodel) :=
  match q.allocSlot with
  | (some s, q) => some (some s, q)
  | (none, q) => do
    let (dropped, q) ← q.dropFattest
    if ¬ dropped then pure (none, { q with dropsFull := (q.dropsFull + 1) % 2 ^ 64 })
    else
      match q.allocSlot with
      | (some s, q) => pure (some s, q)
      | (none, q) => pure (none, { q with dropsFull := (q.dropsFull + 1) % 2 ^ 64 })

/-- The frame goes into its slot (fq_codel.rs:280-283). -/
def store (s : Nat) (frame : List Byte) (now : Nat) : FqCodel :=
  { q with
    bufs := update q.bufs s (frame ++ (q.bufs s).drop frame.length)
    lens := update q.lens s frame.length
    ts := update q.ts s now
    link := update q.link s EMPTY }

/-- The slot goes to the end of the flow (fq_codel.rs:287-293). -/
def append (f s len : Nat) : FqCodel :=
  let fl := q.flows f
  let q :=
    if fl.tail = EMPTY then q.setFlow f { fl with head := s, tail := s }
    else { q with link := update q.link fl.tail s }.setFlow f { fl with tail := s }
  { q with backlog := q.backlog + len }

/-- A flow that was idle becomes a new one (fq_codel.rs:297-302). -/
def activate (f : Nat) : FqCodel :=
  let fl := q.flows f
  if fl.inList = .none then
    let fl := { fl with deficit := QUANTUM, inList := .new, codel := { fl.codel with dropping := false } }
    { q.setFlow f fl with newQ := q.newQ.push f }
  else q

/-- `enqueue` (fq_codel.rs:252): whether the frame was taken. -/
def enqueue (hz now : Nat) (frame : List Byte) : Option (Bool × FqCodel) :=
  if frame = [] then some (false, q)
  else if MTU < frame.length then
    some (false, { q with dropsOversize := (q.dropsOversize + 1) % 2 ^ 64 })
  else do
    let (slot, q) ← (q.lazyInit hz).slotFor
    match slot with
    | none => pure (false, q)
    | some s =>
      let f := flowOf frame
      pure (true, ((q.store s frame now).append f s frame.length).activate f)

/-! ## Dequeue -/

/-- `should_drop` (fq_codel.rs:335). -/
def shouldDrop (f s now : Nat) : Bool × FqCodel :=
  let sojourn := (now + 2 ^ 64 - q.ts s) % 2 ^ 64
  let c := (q.flows f).codel
  if sojourn < q.target ∨ q.backlog ≤ MTU then (false, q.setCodel f { c with firstAboveTime := 0 })
  else if c.firstAboveTime = 0 then
    (false, q.setCodel f { c with firstAboveTime := (now + q.interval) % 2 ^ 64 })
  else (decide (c.firstAboveTime ≤ now), q)

/-- The next packet of a flow, off the backlog, and whether CoDel would drop it; a flow without
one leaves the dropping state (fq_codel.rs:353-361). -/
def takeHead (f now : Nat) : Option (Nat × Bool) × FqCodel :=
  match q.flowPop f with
  | (none, q) => (none, q.setCodel f { (q.flows f).codel with dropping := false })
  | (some s, q) =>
    let r := { q with backlog := q.backlog - q.lens s }.shouldDrop f s now
    (some (s, r.1), r.2)

/-- A packet that CoDel drops. -/
def dropAqm (s : Nat) : FqCodel :=
  let q := q.freeSlot s
  { q with dropsAqm := (q.dropsAqm + 1) % 2 ^ 64 }

/-- The loop of the dropping state (fq_codel.rs:367-390). -/
def codelLoop (f now : Nat) : Nat → Nat → FqCodel → Option (Option Nat × FqCodel)
  | 0, _, _ => none
  | fuel + 1, slot, q =>
    let c := (q.flows f).codel
    if c.dropping ∧ c.dropNext ≤ now then
      let count := (c.count + 1) % 2 ^ 32
      let q := q.setCodel f { c with count, recInvSqrt := newtonStep count c.recInvSqrt }
      match (q.dropAqm slot).takeHead f now with
      | (none, q) => some (none, q)
      | (some (slot, drop), q) =>
        let c := (q.flows f).codel
        let c :=
          if ¬ drop then { c with dropping := false }
          else { c with dropNext := controlLaw c.dropNext q.interval c.recInvSqrt }
        codelLoop f now fuel slot (q.setCodel f c)
    else some (some slot, q)

/-- CoDel enters the dropping state (fq_codel.rs:405-419). -/
def startDropping (c : Codel) (interval now : Nat) : Codel :=
  let c := { c with dropping := true }
  let delta := (c.count + 2 ^ 32 - c.lastcount) % 2 ^ 32
  let c :=
    if 1 < delta ∧ (now + 2 ^ 64 - c.dropNext) % 2 ^ 64 < 16 * interval % 2 ^ 64 then
      { c with count := delta, recInvSqrt := newtonStep delta c.recInvSqrt }
    else { c with count := 1, recInvSqrt := REC_INV_SQRT_MAX }
  { c with lastcount := c.count, dropNext := controlLaw now interval c.recInvSqrt }

/-- `codel_dequeue` (fq_codel.rs:352): the slot to deliver. -/
def codelDequeue (f now : Nat) : Option (Option Nat × FqCodel) :=
  match q.takeHead f now with
  | (none, q) => some (none, q)
  | (some (slot, drop), q) =>
    let c := (q.flows f).codel
    if c.dropping then
      if ¬ drop then some (some slot, q.setCodel f { c with dropping := false })
      else codelLoop f now (CAP + 1) slot q
    else if drop then
      match (q.dropAqm slot).takeHead f now with
      | (none, q) => some (none, q)
      | (some (slot, _), q) =>
        some (some slot, q.setCodel f (startDropping (q.flows f).codel q.interval now))
    else some (some slot, q)

/-- The flow whose turn it is, and whether it is a new one. -/
def pick : Option (Bool × Nat) :=
  match q.newQ.front with
  | some f => some (true, f)
  | none =>
    match q.oldQ.front with
    | some f => some (false, f)
    | none => none

def popPicked (fromNew : Bool) : FqCodel :=
  if fromNew then { q with newQ := q.newQ.pop } else { q with oldQ := q.oldQ.pop }

/-- The flow goes to the end of the old ones. -/
def pushOld (f : Nat) : FqCodel :=
  { q.setFlow f { q.flows f with inList := .old } with oldQ := q.oldQ.push f }

/-- A flow used up its deficit (fq_codel.rs:440-448). -/
def rotate (fromNew : Bool) (f : Nat) : FqCodel :=
  let q := q.setFlow f { q.flows f with deficit := (q.flows f).deficit + QUANTUM }
  (q.popPicked fromNew).pushOld f

/-- A flow was found empty (fq_codel.rs:464-475). -/
def drained (fromNew : Bool) (f : Nat) : FqCodel :=
  let q := q.popPicked fromNew
  if fromNew ∧ ¬ q.oldQ.isEmpty then q.pushOld f
  else q.setFlow f { q.flows f with inList := .none }

/-- A packet goes to the driver (fq_codel.rs:454-457): its length, and `out` with its bytes. -/
def deliver (f s : Nat) (out : List Byte) : (Nat × List Byte) × FqCodel :=
  let len := q.lens s
  let q := q.setFlow f { q.flows f with deficit := (q.flows f).deficit - len }
  ((len, (q.bufs s).take len ++ out.drop len), q.freeSlot s)

/-- The loop of `dequeue` (fq_codel.rs:429-479). -/
def dequeueLoop (now : Nat) (out : List Byte) :
    Nat → FqCodel → Option (Option (Nat × List Byte) × FqCodel)
  | 0, _ => none
  | fuel + 1, q =>
    match q.pick with
    | none => some (none, q)
    | some (fromNew, f) =>
      if (q.flows f).deficit ≤ 0 then dequeueLoop now out fuel (q.rotate fromNew f)
      else do
        let (slot, q) ← q.codelDequeue f now
        match slot with
        | some s =>
          let (r, q) := q.deliver f s out
          pure (some r, q)
        | none => dequeueLoop now out fuel (q.drained fromNew f)

/-- `dequeue` (fq_codel.rs:426). -/
def dequeue (hz now : Nat) (out : List Byte) : Option (Option (Nat × List Byte) × FqCodel) :=
  dequeueLoop now out (3 * FLOWS + 1) (q.lazyInit hz)

end FqCodel

end NopeekOS.Net.Fq
