import NopeekOS.Lib.LeBytes
import NopeekOS.Storage.Types

/-!
# The deferred free journal (`storage/npkfs/journal.rs`)

A commit writes the ranges it will free into a ring of 256 blocks, flags the blocks after the
superblock is durable, and only then frees the ranges. Mounting scans the ring backwards from
the head that the superblock names and frees the ranges of the last flagged commit again.

A range is a `u64` start and a `u64` count, and the sums of the source wrap. Blocks are as the
cache shows them; `fails b` is the error with which the cache refuses block `b`. No call
touches a journal block twice, so this covers a failure at every point of a call.
-/

namespace NopeekOS.Storage

open Lib

/-- A start and a count. -/
abbrev Range := Nat × Nat

/-- The blocks of a range. -/
def Range.blocks (r : Range) : List Nat := List.range' r.1 r.2

/-- The bytes of every block, seen through the cache. -/
abbrev Blocks := Nat → List UInt8

/-- `b"npkJRNL\0"`. -/
def JOURNAL_MAGIC : List UInt8 := [110, 112, 107, 74, 82, 78, 76, 0]

/-- `Journal` (journal.rs:16). -/
structure Journal where
  /-- Next write block within the journal area. -/
  head : Nat
  seq : Nat
  pendingFrees : List Range
  uncommittedBlocks : List Nat

namespace Journal

/-! ## The journal block -/

/-- The number in `buf[off..off + k]`. -/
def fieldAt (buf : List UInt8) (off k : Nat) : Nat := ofLe ((buf.drop off).take k)

def freeEntry (r : Range) : List UInt8 := leBytes 8 r.1 ++ leBytes 8 r.2

/-- The buffer `prepare` fills (journal.rs:76): magic, sequence number, entry count, flag,
entries, zeros. -/
def journalBuf (seq committed : Nat) (entries : List Range) : List UInt8 :=
  JOURNAL_MAGIC ++ (leBytes 8 seq ++ (leBytes 4 entries.length ++ (leBytes 4 committed ++
    (entries.flatMap freeEntry ++ List.replicate (BLOCK_SIZE - 24 - 16 * entries.length) 0))))

/-- `buf[20..24].copy_from_slice(&1u32.to_le_bytes())`. -/
def setCommitted (buf : List UInt8) : List UInt8 := buf.take 20 ++ (leBytes 4 1 ++ buf.drop 24)

/-- The entries that `replay` does not skip (journal.rs:150). -/
def taken (r : Range) : Bool := 0 < r.1 ∧ 0 < r.2

/-- What `replay` takes from a block (journal.rs:144). -/
def entriesOf (buf : List UInt8) : List Range :=
  let entryCount := min (fieldAt buf 16 4) MAX_JOURNAL_ENTRIES
  let entry := fun j => (fieldAt buf (24 + 16 * j) 8, fieldAt buf (24 + 16 * j + 8) 8)
  ((List.range entryCount).map entry).filter taken

/-! ## Recording and writing -/

def new (head seq : Nat) : Journal := ⟨head, seq, [], []⟩

/-- `Journal::record_free` (journal.rs:35). -/
def recordFree (j : Journal) (start count : Nat) : Journal :=
  if 0 < count then { j with pendingFrees := j.pendingFrees ++ [(start, count)] } else j

/-- The order of pairs. -/
def RangeLe (r r' : Range) : Prop := r.1 < r'.1 ∨ r.1 = r'.1 ∧ r.2 ≤ r'.2

instance : DecidableRel RangeLe := fun _ _ => inferInstanceAs (Decidable (_ ∨ _))

/-- One round of the merge loop (journal.rs:52). `merged` has its last range first. -/
def mergeFree : List Range → Range → List Range
  | [], r => [r]
  | (s, c) :: merged, r =>
    if (s + c) % 2 ^ 64 = r.1 then (s, (c + r.2) % 2 ^ 64) :: merged else r :: (s, c) :: merged

/-- The pending frees sorted, adjacent ones as one range. -/
def mergeFrees (frees : List Range) : List Range :=
  ((frees.insertionSort RangeLe).foldl mergeFree []).reverse

/-- The entries of one journal block after the other: `prepare` takes as many as fit. -/
def chunks (frees : List Range) : List (List Range) :=
  if frees = [] then []
  else frees.take MAX_JOURNAL_ENTRIES :: chunks (frees.drop MAX_JOURNAL_ENTRIES)
termination_by frees.length
decreasing_by
  have := List.length_pos_iff.mpr ‹¬frees = []›
  rw [List.length_drop]
  exact Nat.sub_lt this (by decide)

variable (fails : Nat → Option FsError)

/-- The write loop of `prepare` (journal.rs:72), one journal block a round. -/
def prepareLoop : List (List Range) → Journal → Blocks → Except FsError Unit × Journal × Blocks
  | [], j, blocks => (.ok (), j, blocks)
  | c :: cs, j, blocks =>
    let journalBlock := JOURNAL_START + j.head
    match fails journalBlock with
    | some e => (.error e, j, blocks)
    | none =>
      prepareLoop cs
        { j with
          uncommittedBlocks := j.uncommittedBlocks ++ [journalBlock]
          head := (j.head + 1) % JOURNAL_BLOCKS }
        (Function.update blocks journalBlock (journalBuf j.seq 0 c))

/-- What `prepare` keeps of its pending frees: merged, and cut to the size of the ring. -/
def journaled (frees : List Range) : List Range :=
  (mergeFrees frees).take (JOURNAL_BLOCKS * MAX_JOURNAL_ENTRIES)

/-- `Journal::prepare` (journal.rs:43). -/
def prepare (j : Journal) (blocks : Blocks) : Except FsError Unit × Journal × Blocks :=
  if j.pendingFrees = [] then (.ok (), j, blocks)
  else
    let frees := journaled j.pendingFrees
    match prepareLoop fails (chunks frees)
      { j with seq := (j.seq + 1) % 2 ^ 64, uncommittedBlocks := [], pendingFrees := frees }
      blocks with
    | (.ok (), j, blocks) => (.ok (), { j with pendingFrees := [] }, blocks)
    | failed => failed

/-- The loop of `finalize`. -/
def finalizeLoop : List Nat → Blocks → Except FsError Unit × Blocks
  | [], blocks => (.ok (), blocks)
  | b :: bs, blocks =>
    match fails b with
    | some e => (.error e, blocks)
    | none => finalizeLoop bs (Function.update blocks b (setCommitted (blocks b)))

/-- `Journal::finalize` (journal.rs:105). -/
def finalize (j : Journal) (blocks : Blocks) : Except FsError Unit × Journal × Blocks :=
  match finalizeLoop fails j.uncommittedBlocks blocks with
  | (.ok (), blocks) => (.ok (), { j with uncommittedBlocks := [] }, blocks)
  | (.error e, blocks) => (.error e, j, blocks)

/-! ## Replay -/

/-- The position of the `i`-th block before `head`. -/
def checkPos (head i : Nat) : Nat :=
  if 1 + i ≤ head then head - 1 - i else JOURNAL_BLOCKS - 1 - i + head

/-- The scan of `replay` over `n` blocks, from the `i`-th before `head` on. -/
def replayLoop (blocks : Blocks) (head expectedSeq : Nat) :
    (n i : Nat) → List Range → Except FsError (List Range)
  | 0, _, frees => .ok frees
  | n + 1, i, frees =>
    let journalBlock := JOURNAL_START + checkPos head i
    let buf := blocks journalBlock
    match fails journalBlock with
    | some e => .error e
    | none =>
      if buf.take 8 ≠ JOURNAL_MAGIC then .ok frees
      else if fieldAt buf 20 4 ≠ 1 then replayLoop blocks head expectedSeq n (i + 1) frees
      else if fieldAt buf 8 8 < expectedSeq then .ok frees
      else replayLoop blocks head expectedSeq n (i + 1) (frees ++ entriesOf buf)

/-- `Journal::replay` (journal.rs:119). -/
def replay (blocks : Blocks) (head expectedSeq : Nat) : Except FsError (List Range) :=
  replayLoop fails blocks head expectedSeq JOURNAL_BLOCKS 0 []

end Journal

end NopeekOS.Storage
