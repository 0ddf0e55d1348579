import NopeekOS.Lib.GracePeriod
import NopeekOS.Lib.Run
import NopeekOS.Microvm.DemandMap

/-!
# Host accesses and reclaim

Device code reads and writes guest memory from any core (`read_bytes`, `write_bytes`,
`xchg_u8`), vCPUs fault pages in (`ensure`), and free page reporting takes pages back
(`reclaim`) while other pages are pinned (`pin_page`); microvm/devices/guest_mem.rs. The
steps are the single atomic operations and the locked sections, in any order between any
number of accesses; `RECLAIM_LOCK` lets one `reclaim` or `pin_page` run at a time
(`Holder`).

A host access counts itself in one of two counters, chosen by the epoch it read a step
before; `reclaim` takes the entries out, flips the epoch and waits for the counter of
the old one. The frame an access holds between its translation and its copy carries a
mark, `lost`, set when that frame goes back to the allocator.
-/

namespace NopeekOS.Microvm

open NopeekOS.Lib Function

/-! ## Guest RAM -/

def pageSize : Nat := 4096

def twoMb : Nat := 512 * pageSize

def oneGb : Nat := 2 ^ 30

def lowRamMax : Nat := 3 * oneGb

def highRamBase : Nat := 4 * oneGb

/-- Guest RAM is `[0, low)` and `[highRamBase, highEnd)` (guest_mem.rs:94). -/
structure RamLayout where
  low : Nat
  highEnd : Nat
deriving DecidableEq, Repr

namespace RamLayout

def new (total : Nat) : RamLayout where
  low := min total lowRamMax
  highEnd := highRamBase + (total - min total lowRamMax)

def high (l : RamLayout) : Nat := l.highEnd - highRamBase

/-- One past the highest RAM address. -/
def top (l : RamLayout) : Nat := if l.high = 0 then l.low else l.highEnd

def contains (l : RamLayout) (gpa : Nat) : Bool :=
  gpa < l.low || (highRamBase ≤ gpa && gpa < l.highEnd)

/-- A range in one RAM region; an end past 2^64 is none (guest_mem.rs:125). -/
def containsRange (l : RamLayout) (gpa n : Nat) : Bool :=
  gpa + n < 2 ^ 64 && (gpa + n ≤ l.low || (highRamBase ≤ gpa && gpa + n ≤ l.highEnd))

end RamLayout

/-- A guest's RAM, as `install_window` accepts it (ept.rs:99, 102, 106): its size, and the
first frame of its boot window. The tables hang off one PML4 entry (hostmem.rs:38). -/
structure GuestRam where
  len : Nat
  bootBase : Nat
  len_pos : 0 < len
  len_aligned : len % twoMb = 0
  fits : (RamLayout.new len).top ≤ 512 * oneGb

namespace GuestRam

variable (g : GuestRam)

def layout : RamLayout := .new g.len

/-- The contiguous part (ept.rs:69). -/
def bootBytes : Nat := min g.len (256 * 2 ^ 20)

def bootPages : Nat := g.bootBytes / pageSize

/-- Whether a page is RAM (guest_mem.rs:320). -/
def hasPage (page : Nat) : Bool := g.layout.contains (page * pageSize)

/-- `next_multiple_of(4096)` on 64 bits, which wraps (ept.rs:302). -/
def nextPage (gpa : Nat) : Nat :=
  if gpa % pageSize = 0 then gpa else (gpa + (pageSize - gpa % pageSize)) % 2 ^ 64

def saturatingAdd (a b : Nat) : Nat := min (a + b) (2 ^ 64 - 1)

/-- The first page a reclaim looks at (ept.rs:302). -/
def firstPage (gpa : Nat) : Nat := nextPage (max gpa g.bootBytes) / pageSize

/-- One past the last page a reclaim looks at (ept.rs:303). -/
def endPage (gpa len : Nat) : Nat := min (saturatingAdd gpa len) g.layout.top / pageSize

/-- The blocks a reclaim visits: the hole has none (ept.rs:313). -/
def reclaimBlocks (gpa len : Nat) : List Nat :=
  (Demand.blocksOf (g.firstPage gpa) (g.endPage gpa len)).filter fun b =>
    g.layout.contains (b * twoMb)

/-- The range lies in the boot window and needs no translation (guest_mem.rs:382). -/
def contig (gpa n : Nat) : Bool := gpa + n < 2 ^ 64 && gpa + n ≤ g.bootBytes

end GuestRam

/-! ## Accesses -/

/-- A host access to `total` octets at `gpa` (guest_mem.rs:483). The index is the counter it
is to leave by. -/
inductive Access where
  | idle
  /-- The epoch is read, the access not counted yet (guest_mem.rs:233). -/
  | loaded (gpa total : Nat) (i : Bool)
  /-- Counted, with `done` octets copied. -/
  | counted (gpa total done : Nat) (i : Bool)
  /-- The software TLB did not have the page (guest_mem.rs:333). -/
  | missed (gpa total done : Nat) (i : Bool)
  /-- Translated and not copied yet. -/
  | held (gpa total done : Nat) (i : Bool) (host : Nat) (lost : Bool)
  /-- No translation; about to leave (guest_mem.rs:503). -/
  | failed (i : Bool)
deriving DecidableEq, Repr

/-- The counter an access is counted in. -/
def Access.index : Access → Option Bool
  | .counted _ _ _ i | .missed _ _ _ i | .held _ _ _ i _ _ | .failed i => some i
  | .idle | .loaded .. => none

/-- The access's frame went back to the allocator after the translation. -/
def Access.isLost : Access → Bool
  | .held _ _ _ _ _ lost => lost
  | _ => false

/-- A frame goes back to the allocator. -/
def Access.lose (f : Nat) : Access → Access
  | .held gpa total done i host lost => .held gpa total done i host (lost || host == f)
  | a => a

/-- The page of the next copy. -/
def pageAt (gpa done : Nat) : Nat := (gpa + done) / pageSize

/-- Octets of the next copy (guest_mem.rs:507). -/
def takeAt (gpa total done : Nat) : Nat :=
  min (total - done) (pageSize - (gpa + done) % pageSize)

/-- Who has `RECLAIM_LOCK`, and how far they are. -/
inductive Holder where
  | nobody
  /-- A reclaim of `len` octets at `gpa`, before its entries go. -/
  | reclaiming (gpa len : Nat)
  /-- The entries are gone and the vCPUs flushed; the epoch is to be flipped. -/
  | flipping (freed : List Nat)
  /-- Waiting for the accesses of the old epoch (guest_mem.rs:281). -/
  | waiting (old : Bool) (freed : List Nat)
  /-- Giving the frames back. -/
  | freeing (freed : List Nat)
  | pinning (page : Nat)
  /-- The page to pin is not in the software TLB. -/
  | pinMissed (page : Nat)
  /-- The page to pin is translated (guest_mem.rs:297). -/
  | pinFound (page host : Nat)
deriving DecidableEq, Repr

/-- Frames out of the tables that are not given back yet. -/
def Holder.limbo : Holder → List Nat
  | .flipping freed | .waiting _ freed | .freeing freed => freed
  | _ => []

/-- The epoch waited for. -/
def Holder.old : Holder → Option Bool
  | .waiting old _ => some old
  | _ => none

/-! ## The software TLB -/

def tlbSize : Nat := 1024

/-- Page number and frame number in one 64-bit word (guest_mem.rs:350). -/
def tlbEntry (page host : Nat) : Nat := (page <<< 32 ||| host) % 2 ^ 64

/-- A slot that holds the page; 0 is empty (guest_mem.rs:333). -/
def tlbHit (slot page : Nat) : Option Nat :=
  if slot ≠ 0 ∧ slot >>> 32 = page then some (slot &&& 0xFFFFFFFF) else none

/-- `PINS` counts an entry up (guest_mem.rs:298). -/
def pinAdd (n : Option (BitVec 32)) : Option (BitVec 32) := some (n.getD 0 + 1)

/-- `unpin_frames`, for one frame (guest_mem.rs:174). -/
def pinDrop : Option (BitVec 32) → Option (BitVec 32)
  | none => none
  | some n => if n - 1 = 0 then none else some (n - 1)

/-! ## The steps -/

/-- Guest memory with everybody who uses it: `access t` is host access `t`. -/
structure World (T : Type*) where
  ram : GuestRam
  demand : Demand
  tlb : Nat → Nat
  epoch : BitVec 64
  accessing : Bool → BitVec 32
  pins : Nat → Option (BitVec 32)
  access : T → Access
  holder : Holder

/-- What happens in one step. -/
inductive Op (T : Type*) where
  /-- A host access reads the epoch. -/
  | start (t : T) (gpa total : Nat)
  /-- It adds itself to its counter. -/
  | count (t : T)
  | translate (t : T)
  | walk (t : T)
  | copy (t : T)
  | leave (t : T)
  /-- A vCPU touches a page that is not there. -/
  | fault (page : Nat)
  | reclaim (gpa len : Nat)
  | take
  | flip
  | pass
  | free
  | done
  | pin (page : Nat)
  | pinTranslate
  | pinWalk
  | pinInsert
  | unpin (f : Nat)
  /-- Somebody else gets a frame, or gives one back. -/
  | allocate (f : Nat)
  | release (f : Nat)

/-- Frames the allocator can have (memory.rs:16). -/
def maxFrames : Nat := 2 ^ 31

namespace World

variable {T : Type*} [DecidableEq T] (w : World T)

/-- The counter of the current epoch (guest_mem.rs:233). -/
def parity : Bool := w.epoch.getLsbD 0

def setAccess (t : T) (a : Access) : World T :=
  { w with access := update w.access t a }

def setHolder (h : Holder) : World T := { w with holder := h }

/-- What `page_host` finds without the lock (guest_mem.rs:319). -/
inductive Lookup where
  | outside
  | found (host : Nat)
  | missed
deriving DecidableEq, Repr

/-- The part of `page_host` before the lock (guest_mem.rs:319). -/
def lookup (page : Nat) : Lookup :=
  if w.ram.hasPage page = false then .outside
  else if page < w.ram.bootPages then .found (w.ram.bootBase + page)
  else match tlbHit (w.tlb (page % tlbSize)) page with
    | some host => .found host
    | none => .missed

/-- The locked part of `page_host`: the walk's result goes into the software TLB
(guest_mem.rs:341). -/
def faulted (demand : Demand) (page : Nat) (r : Option Nat) : World T :=
  match r with
  | some host =>
    { w with demand := demand, tlb := update w.tlb (page % tlbSize) (tlbEntry page host) }
  | none => { w with demand := demand }

/-- The walk that a page's fault-in makes: nothing outside the demand region (ept.rs:219). -/
def FaultsIn (page : Nat) (demand : Demand) (r : Option Nat) : Prop :=
  if page < w.ram.bootPages ∨ w.ram.hasPage page = false then demand = w.demand ∧ r = none
  else Demand.FaultIn page w.demand demand r

/-- Slots of the range are emptied (guest_mem.rs:265). -/
def tlbCleared (first last : Nat) (slot : Nat) : Nat :=
  if first ≤ w.tlb slot >>> 32 ∧ w.tlb slot >>> 32 < last then 0 else w.tlb slot

/-- The locked part of `reclaim`: the entries are gone, and the slots of the range when pages
were taken. With no frame to return the call is over (guest_mem.rs:250). -/
def taken (gpa len : Nat) (demand : Demand) (freed : List Nat) (count : Nat) : World T :=
  { w with
    demand := demand
    tlb := if count ≠ 0 then
        w.tlbCleared (gpa / pageSize) (GuestRam.saturatingAdd gpa len / pageSize)
      else w.tlb
    holder := if freed = [] then .nobody else .flipping freed }

/-- A frame goes back to the allocator (guest_mem.rs:285). -/
def deallocate (f : Nat) : World T :=
  { w with
    demand := { w.demand with owner := update w.demand.owner f .free }
    access := fun t => (w.access t).lose f }

def setOwner (f : Nat) (o : Owner) : World T :=
  { w with demand := { w.demand with owner := update w.demand.owner f o } }

/-- `enter`'s second operation (guest_mem.rs:234). -/
def countIn (t : T) (gpa total : Nat) (i : Bool) : World T :=
  { w with
    accessing := update w.accessing i (w.accessing i + 1)
    access := update w.access t (.counted gpa total 0 i) }

/-- `leave` (guest_mem.rs:240). -/
def countOut (t : T) (i : Bool) : World T :=
  { w with
    accessing := update w.accessing i (w.accessing i - 1)
    access := update w.access t .idle }

def pinned (f : Nat) : Prop := w.pins f ≠ none

instance : DecidablePred w.pinned := fun f => inferInstanceAs (Decidable (w.pins f ≠ none))

end World

open World in
/-- One atomic operation or locked section. -/
inductive MemStep {T : Type*} [DecidableEq T] : World T → Op T → World T → Prop where
  /-- `read_bytes` and `write_bytes`, past their checks (guest_mem.rs:485, 491). -/
  | start {w : World T} {t : T} {gpa total : Nat} (h : w.access t = .idle)
      (hcontig : w.ram.contig gpa total = false)
      (hrange : w.ram.layout.containsRange gpa total = true) :
      MemStep w (.start t gpa total) (w.setAccess t (.loaded gpa total w.parity))
  /-- `xchg_u8` (guest_mem.rs:440). -/
  | startXchg {w : World T} {t : T} {gpa : Nat} (h : w.access t = .idle)
      (hcontains : w.ram.layout.contains gpa = true) :
      MemStep w (.start t gpa 1) (w.setAccess t (.loaded gpa 1 w.parity))
  | count {w : World T} {t : T} {gpa total : Nat} {i : Bool}
      (h : w.access t = .loaded gpa total i) :
      MemStep w (.count t) (w.countIn t gpa total i)
  | found {w : World T} {t : T} {gpa total done host : Nat} {i : Bool}
      (h : w.access t = .counted gpa total done i) (hmore : done < total)
      (hfound : w.lookup (pageAt gpa done) = .found host) :
      MemStep w (.translate t) (w.setAccess t (.held gpa total done i host false))
  | missed {w : World T} {t : T} {gpa total done : Nat} {i : Bool}
      (h : w.access t = .counted gpa total done i) (hmore : done < total)
      (hmiss : w.lookup (pageAt gpa done) = .missed) :
      MemStep w (.translate t) (w.setAccess t (.missed gpa total done i))
  | outside {w : World T} {t : T} {gpa total done : Nat} {i : Bool}
      (h : w.access t = .counted gpa total done i) (hmore : done < total)
      (hout : w.lookup (pageAt gpa done) = .outside) :
      MemStep w (.translate t) (w.setAccess t (.failed i))
  | walked {w : World T} {t : T} {gpa total done host : Nat} {i : Bool} {D : Demand}
      (h : w.access t = .missed gpa total done i)
      (hfault : w.FaultsIn (pageAt gpa done) D (some host)) :
      MemStep w (.walk t)
        ((w.faulted D (pageAt gpa done) (some host)).setAccess t
          (.held gpa total done i host false))
  | notWalked {w : World T} {t : T} {gpa total done : Nat} {i : Bool} {D : Demand}
      (h : w.access t = .missed gpa total done i)
      (hfault : w.FaultsIn (pageAt gpa done) D none) :
      MemStep w (.walk t) ((w.faulted D (pageAt gpa done) none).setAccess t (.failed i))
  | copy {w : World T} {t : T} {gpa total done host : Nat} {i lost : Bool}
      (h : w.access t = .held gpa total done i host lost) :
      MemStep w (.copy t) (w.setAccess t (.counted gpa total (done + takeAt gpa total done) i))
  | leave {w : World T} {t : T} {gpa total done : Nat} {i : Bool}
      (h : w.access t = .counted gpa total done i) (hdone : total ≤ done) :
      MemStep w (.leave t) (w.countOut t i)
  | leaveFailed {w : World T} {t : T} {i : Bool} (h : w.access t = .failed i) :
      MemStep w (.leave t) (w.countOut t i)
  /-- `ensure`, where the software TLB does not have the page (guest_mem.rs:374). -/
  | fault {w : World T} {page : Nat} {D : Demand} {r : Option Nat}
      (hfault : w.FaultsIn page D r) : MemStep w (.fault page) (w.faulted D page r)
  | reclaim {w : World T} {gpa len : Nat} (h : w.holder = .nobody) (hgpa : gpa < 2 ^ 64)
      (hlen : len < 2 ^ 64) :
      MemStep w (.reclaim gpa len) (w.setHolder (.reclaiming gpa len))
  | take {w : World T} {gpa len count : Nat} {D : Demand} {freed : List Nat}
      (h : w.holder = .reclaiming gpa len)
      (hreclaim : Demand.Reclaim (w.ram.firstPage gpa) (w.ram.endPage gpa len) w.pinned
        (w.ram.reclaimBlocks gpa len) w.demand D freed count) :
      MemStep w .take (w.taken gpa len D freed count)
  | flip {w : World T} {freed : List Nat} (h : w.holder = .flipping freed) :
      MemStep w .flip { w with epoch := w.epoch + 1, holder := .waiting w.parity freed }
  /-- The loop ends when the counter is found zero (guest_mem.rs:281). -/
  | pass {w : World T} {old : Bool} {freed : List Nat} (h : w.holder = .waiting old freed)
      (hzero : w.accessing old = 0) : MemStep w .pass (w.setHolder (.freeing freed))
  | free {w : World T} {f : Nat} {freed : List Nat} (h : w.holder = .freeing (f :: freed)) :
      MemStep w .free ((w.deallocate f).setHolder (.freeing freed))
  | done {w : World T} (h : w.holder = .freeing []) : MemStep w .done (w.setHolder .nobody)
  | pin {w : World T} {page : Nat} (h : w.holder = .nobody) :
      MemStep w (.pin page) (w.setHolder (.pinning page))
  | pinFound {w : World T} {page host : Nat} (h : w.holder = .pinning page)
      (hfound : w.lookup page = .found host) :
      MemStep w .pinTranslate (w.setHolder (.pinFound page host))
  | pinMissed {w : World T} {page : Nat} (h : w.holder = .pinning page)
      (hmiss : w.lookup page = .missed) : MemStep w .pinTranslate (w.setHolder (.pinMissed page))
  | pinOutside {w : World T} {page : Nat} (h : w.holder = .pinning page)
      (hout : w.lookup page = .outside) : MemStep w .pinTranslate (w.setHolder .nobody)
  | pinWalked {w : World T} {page host : Nat} {D : Demand} (h : w.holder = .pinMissed page)
      (hfault : w.FaultsIn page D (some host)) :
      MemStep w .pinWalk ((w.faulted D page (some host)).setHolder (.pinFound page host))
  | pinNotWalked {w : World T} {page : Nat} {D : Demand} (h : w.holder = .pinMissed page)
      (hfault : w.FaultsIn page D none) :
      MemStep w .pinWalk ((w.faulted D page none).setHolder .nobody)
  /-- Boot frames are not counted (guest_mem.rs:297). -/
  | pinBoot {w : World T} {page host : Nat} (h : w.holder = .pinFound page host)
      (hboot : page < w.ram.bootPages) : MemStep w .pinInsert (w.setHolder .nobody)
  | pinInsert {w : World T} {page host : Nat} (h : w.holder = .pinFound page host)
      (hdemand : w.ram.bootPages ≤ page) :
      MemStep w .pinInsert
        { w with pins := update w.pins host (pinAdd (w.pins host)), holder := .nobody }
  | unpin {w : World T} {f : Nat} :
      MemStep w (.unpin f) { w with pins := update w.pins f (pinDrop (w.pins f)) }
  | allocate {w : World T} {f : Nat} (h : w.demand.owner f = .free) :
      MemStep w (.allocate f) (w.setOwner f .kernel)
  | release {w : World T} {f : Nat} (h : w.demand.owner f = .kernel) (hf : f < maxFrames) :
      MemStep w (.release f) (w.setOwner f .free)

end NopeekOS.Microvm
