import NopeekOS.Lib.Run
import NopeekOS.Storage.Journal

/-!
# Replay recovers the last round

A round records ranges, `prepare`s them and, unless the power goes first, `finalize`s them. The
scan of `replay` meets the blocks of the last round first, and every block behind them is empty,
unflagged or older (`Stale`), so it adds nothing.
-/

namespace NopeekOS.Storage.Journal

open Lib List

/-! ## Reading a journal block back -/

theorem fieldAt_leBytes {xs ys : List UInt8} {k n off : Nat} (hoff : off = xs.length) :
    fieldAt (xs ++ (leBytes k n ++ ys)) off k = n % 256 ^ k := by
  rw [fieldAt, drop_left' hoff.symm, take_left' (length_leBytes k n), ofLe_leBytes]

theorem length_freeEntry (r : Range) : (freeEntry r).length = 16 := by
  rw [freeEntry, length_append, length_leBytes, length_leBytes]

theorem map_fieldAt_entries {entries : List Range} (h : ∀ r ∈ entries, r.1 < 2 ^ 64 ∧ r.2 < 2 ^ 64)
    (xs ys : List UInt8) :
    (range entries.length).map (fun j =>
      (fieldAt (xs ++ (entries.flatMap freeEntry ++ ys)) (xs.length + 16 * j) 8,
        fieldAt (xs ++ (entries.flatMap freeEntry ++ ys)) (xs.length + 16 * j + 8) 8)) =
      entries := by
  induction entries generalizing xs with
  | nil => rfl
  | cons r entries ih =>
    obtain ⟨hr, hentries⟩ := forall_mem_cons.mp h
    have hsplit : xs ++ ((r :: entries).flatMap freeEntry ++ ys) =
        xs ++ freeEntry r ++ (entries.flatMap freeEntry ++ ys) := by
      simp only [flatMap_cons, append_assoc]
    have hstart : fieldAt (xs ++ freeEntry r ++ (entries.flatMap freeEntry ++ ys)) xs.length 8 =
        r.1 := by
      simp only [freeEntry, append_assoc]
      rw [fieldAt_leBytes rfl]
      exact Nat.mod_eq_of_lt hr.1
    have hcount : fieldAt (xs ++ freeEntry r ++ (entries.flatMap freeEntry ++ ys))
        (xs.length + 8) 8 = r.2 := by
      have hoff : xs.length + 8 = (xs ++ leBytes 8 r.1).length := by
        rw [length_append, length_leBytes]
      rw [freeEntry, ← append_assoc xs, append_assoc (xs ++ leBytes 8 r.1),
        fieldAt_leBytes hoff]
      exact Nat.mod_eq_of_lt hr.2
    have htail := ih hentries (xs ++ freeEntry r)
    rw [length_append, length_freeEntry] at htail
    rw [hsplit, length_cons, range_succ_eq_map, map_cons, map_map,
      Nat.mul_zero, Nat.add_zero, hstart, hcount]
    refine congrArg (r :: ·) (Eq.trans (map_congr_left fun j _ => ?_) htail)
    simp only [Function.comp_apply, show xs.length + 16 * j.succ = xs.length + 16 + 16 * j by omega]

section Buffer

variable (seq committed : Nat) (entries : List Range)

theorem magic_journalBuf : (journalBuf seq committed entries).take 8 = JOURNAL_MAGIC := rfl

theorem seq_journalBuf (h : seq < 2 ^ 64) : fieldAt (journalBuf seq committed entries) 8 8 = seq :=
  (fieldAt_leBytes rfl).trans (Nat.mod_eq_of_lt h)

/-- The bytes before the flag. -/
def header : List UInt8 := JOURNAL_MAGIC ++ (leBytes 8 seq ++ leBytes 4 entries.length)

theorem length_header : (header seq entries).length = 20 := by
  simp only [header, length_append, length_leBytes]
  rfl

/-- The bytes behind the flag. -/
def body : List UInt8 :=
  entries.flatMap freeEntry ++ replicate (BLOCK_SIZE - 24 - 16 * entries.length) 0

theorem journalBuf_eq : journalBuf seq committed entries =
    header seq entries ++ (leBytes 4 committed ++ body entries) := by
  simp only [journalBuf, header, body, append_assoc]

theorem committed_journalBuf (h : committed < 2 ^ 32) :
    fieldAt (journalBuf seq committed entries) 20 4 = committed := by
  rw [journalBuf_eq, fieldAt_leBytes (length_header seq entries).symm]
  exact Nat.mod_eq_of_lt h

theorem setCommitted_journalBuf :
    setCommitted (journalBuf seq committed entries) = journalBuf seq 1 entries := by
  have hflag : (header seq entries ++ leBytes 4 committed).length = 24 := by
    rw [length_append, length_header, length_leBytes]
  rw [setCommitted, journalBuf_eq, journalBuf_eq, take_left' (length_header seq entries),
    ← append_assoc (header seq entries) (leBytes 4 committed), drop_left' hflag]

variable {entries}

/-- `replay` reads what `prepare` wrote, but for ranges at block 0. -/
theorem entriesOf_journalBuf (hlen : entries.length ≤ MAX_JOURNAL_ENTRIES)
    (h : ∀ r ∈ entries, r.1 < 2 ^ 64 ∧ r.2 < 2 ^ 64) :
    entriesOf (journalBuf seq committed entries) = entries.filter taken := by
  have hcount : fieldAt (journalBuf seq committed entries) 16 4 = entries.length := by
    have hle : entries.length < 256 ^ 4 := hlen.trans_lt (by decide)
    have h16 : 16 = (JOURNAL_MAGIC ++ leBytes 8 seq).length := by
      rw [length_append, length_leBytes]
      rfl
    rw [journalBuf, ← append_assoc, fieldAt_leBytes h16, Nat.mod_eq_of_lt hle]
  have hflag : (header seq entries ++ leBytes 4 committed).length = 24 := by
    rw [length_append, length_header, length_leBytes]
  have hread := map_fieldAt_entries h (header seq entries ++ leBytes 4 committed)
    (replicate (BLOCK_SIZE - 24 - 16 * entries.length) 0)
  rw [hflag, append_assoc, ← body, ← journalBuf_eq] at hread
  rw [entriesOf, hcount, Nat.min_eq_left hlen, hread]

end Buffer

/-! ## Merging -/

/-- A range that `replay` takes: not at block 0, not empty, inside the block numbers. -/
def Valid (r : Range) : Prop := 0 < r.1 ∧ 0 < r.2 ∧ r.1 + r.2 ≤ 2 ^ 64

/-- One round of the merge loop neither loses nor adds a block. -/
theorem mergeFree_blocks {m : List Range} {r : Range} (hm : ∀ q ∈ m, Valid q) (hr : Valid r) :
    (mergeFree m r).reverse.flatMap Range.blocks = m.reverse.flatMap Range.blocks ++ r.blocks ∧
      ∀ q ∈ mergeFree m r, Valid q := by
  cases m with
  | nil => exact ⟨by simp [mergeFree], by simpa [mergeFree] using hr⟩
  | cons q m =>
    obtain ⟨s, c⟩ := q
    obtain ⟨⟨hs, hc, hend⟩, hm⟩ := forall_mem_cons.mp hm
    rw [mergeFree]
    split_ifs with hadj
    · -- the sum did not wrap: a range that ends with the block numbers has no next block
      have hstart : s + c = r.1 := by
        rcases Nat.lt_or_ge (s + c) (2 ^ 64) with hlt | hge
        · rwa [Nat.mod_eq_of_lt hlt] at hadj
        · rw [Nat.le_antisymm hend hge, Nat.mod_self] at hadj
          exact absurd hr.1 (hadj ▸ Nat.lt_irrefl 0)
      have hlt : c + r.2 < 2 ^ 64 := by
        have := hr.2.2
        dsimp only at hs
        omega
      have hjoin : Range.blocks (s, c) ++ r.blocks = Range.blocks (s, c + r.2) := by
        rw [Range.blocks, Range.blocks, ← hstart]
        exact range'_append_1
      rw [Nat.mod_eq_of_lt hlt]
      refine ⟨?_, forall_mem_cons.mpr ⟨⟨hs, Nat.add_pos_left hc _, ?_⟩, hm⟩⟩
      · simp only [reverse_cons, flatMap_append, flatMap_singleton,
          append_assoc, hjoin]
      · rw [← Nat.add_assoc, hstart]
        exact hr.2.2
    · exact ⟨by simp, forall_mem_cons.mpr ⟨hr, forall_mem_cons.mpr ⟨⟨hs, hc, hend⟩, hm⟩⟩⟩

theorem foldl_mergeFree_blocks {l m : List Range} (hm : ∀ q ∈ m, Valid q) (hl : ∀ q ∈ l, Valid q) :
    (l.foldl mergeFree m).reverse.flatMap Range.blocks =
        m.reverse.flatMap Range.blocks ++ l.flatMap Range.blocks ∧
      ∀ q ∈ l.foldl mergeFree m, Valid q := by
  induction l generalizing m with
  | nil => exact ⟨(append_nil _).symm, hm⟩
  | cons r l ih =>
    obtain ⟨hr, hl⟩ := forall_mem_cons.mp hl
    obtain ⟨hblocks, hvalid⟩ := mergeFree_blocks hm hr
    obtain ⟨hfold, hfolded⟩ := ih hvalid hl
    refine ⟨?_, hfolded⟩
    rw [foldl_cons, hfold, hblocks, append_assoc, flatMap_cons]

/-- Merging keeps every block as often as it was recorded. -/
theorem mergeFrees_blocks {frees : List Range} (h : ∀ r ∈ frees, Valid r) :
    ((mergeFrees frees).flatMap Range.blocks).Perm (frees.flatMap Range.blocks) ∧
      ∀ r ∈ mergeFrees frees, Valid r := by
  have hsort := perm_insertionSort RangeLe frees
  obtain ⟨hblocks, hvalid⟩ := foldl_mergeFree_blocks (m := []) nofun
    fun q hq => h q (hsort.mem_iff.mp hq)
  refine ⟨?_, fun r hr => hvalid r (mem_reverse.mp hr)⟩
  rw [mergeFrees, hblocks]
  exact hsort.flatMap_right _

/-! ## The entries of the journal blocks -/

theorem flatten_chunks (frees : List Range) : (chunks frees).flatten = frees := by
  fun_induction chunks frees with
  | case1 => rfl
  | case2 frees _ ih => rw [flatten_cons, ih, take_append_drop]

theorem length_le_of_mem_chunks {frees c : List Range} (h : c ∈ chunks frees) :
    c.length ≤ MAX_JOURNAL_ENTRIES := by
  fun_induction chunks frees with
  | case1 => cases h
  | case2 frees _ ih =>
    rcases mem_cons.mp h with rfl | h
    · exact length_take_le _ _
    · exact ih h

theorem length_chunks_le {frees : List Range} {n : Nat}
    (h : frees.length ≤ n * MAX_JOURNAL_ENTRIES) : (chunks frees).length ≤ n := by
  fun_induction chunks frees generalizing n with
  | case1 => exact Nat.zero_le n
  | case2 frees hne ih =>
    cases n with
    | zero => exact absurd (length_eq_zero_iff.mp (Nat.le_zero.mp (by simpa using h))) hne
    | succ n =>
      refine Nat.succ_le_succ (ih ?_)
      rw [length_drop]
      rw [Nat.succ_mul] at h
      omega

theorem length_chunks_journaled (frees : List Range) :
    (chunks (journaled frees)).length ≤ JOURNAL_BLOCKS :=
  length_chunks_le (length_take_le _ _)

/-! ## Writing a round -/

/-- The `i`-th block of the ring from position `head` on. -/
def ringBlock (head i : Nat) : Nat := JOURNAL_START + (head + i) % JOURNAL_BLOCKS

variable {fails : Nat → Option FsError} {j j' : Journal} {blocks blocks' : Blocks}
  {cs : List (List Range)}

/-- The entries `cs` were written one journal block after the other from `j.head` on. -/
structure Wrote (j : Journal) (blocks : Blocks) (cs : List (List Range)) (j' : Journal)
    (blocks' : Blocks) : Prop where
  head : j'.head = (j.head + cs.length) % JOURNAL_BLOCKS
  seq : j'.seq = j.seq
  uncommitted : j'.uncommittedBlocks =
    j.uncommittedBlocks ++ (range cs.length).map (ringBlock j.head)
  written : ∀ i c, cs[i]? = some c → blocks' (ringBlock j.head i) = journalBuf j.seq 0 c
  other : ∀ b, (∀ i < cs.length, b ≠ ringBlock j.head i) → blocks' b = blocks b

theorem prepareLoop_wrote (hhead : j.head < JOURNAL_BLOCKS) (hlen : cs.length ≤ JOURNAL_BLOCKS)
    (h : prepareLoop fails cs j blocks = (.ok (), j', blocks')) : Wrote j blocks cs j' blocks' := by
  induction cs generalizing j blocks with
  | nil =>
    cases h
    exact ⟨(Nat.mod_eq_of_lt hhead).symm, rfl, (append_nil _).symm, nofun, fun _ _ => rfl⟩
  | cons c cs ih =>
    rw [prepareLoop] at h
    split at h
    · cases h
    obtain ⟨hhead', hseq, huncommitted, hwritten, hother⟩ :=
      ih (Nat.mod_lt _ (by decide)) (Nat.le_of_succ_le hlen) h
    have hfirst : ringBlock j.head 0 = JOURNAL_START + j.head := by
      rw [ringBlock, Nat.add_zero, Nat.mod_eq_of_lt hhead]
    have hnext : ringBlock ((j.head + 1) % JOURNAL_BLOCKS) = fun i => ringBlock j.head (i + 1) := by
      funext i
      rw [ringBlock, ringBlock, Nat.mod_add_mod, Nat.add_assoc j.head, Nat.add_comm 1 i]
    simp only [hnext] at huncommitted hwritten hother
    refine ⟨?_, hseq, ?_, ?_, ?_⟩
    · rw [hhead', Nat.mod_add_mod, Nat.add_assoc, Nat.add_comm 1 cs.length, length_cons]
    · rw [huncommitted, length_cons, range_succ_eq_map, map_cons, map_map,
        hfirst, append_assoc]
      rfl
    · intro i c' hc
      cases i with
      | zero =>
        -- the later blocks of the round do not come around to this one
        cases hc
        rw [hother _ fun i hi => ?_, hfirst, Function.update_self]
        simp only [ringBlock, length_cons, JOURNAL_BLOCKS] at hhead hlen ⊢
        omega
      | succ i => exact hwritten i c' hc
    · intro b hb
      rw [hother b fun i hi => hb (i + 1) (Nat.succ_lt_succ hi)]
      exact Function.update_of_ne (hfirst ▸ hb 0 (Nat.succ_pos _)) _ _

/-- `finalize` flags the blocks of its list and touches no other. -/
theorem finalizeLoop_eq {bs : List Nat} (h : finalizeLoop fails bs blocks = (.ok (), blocks'))
    (b : Nat) : blocks' b = setCommitted^[bs.count b] (blocks b) := by
  induction bs generalizing blocks with
  | nil =>
    cases h
    rfl
  | cons a bs ih =>
    rw [finalizeLoop] at h
    split at h
    · cases h
    rw [ih h]
    rcases eq_or_ne b a with rfl | hne
    · rw [Function.update_self, count_cons_self, Function.iterate_succ_apply]
    · rw [Function.update_of_ne hne, count_cons_of_ne hne.symm]

/-! ## Rounds -/

/-- The ranges a round records, and whether it was finalized. -/
structure Round where
  frees : List Range
  finalized : Bool

namespace Round

variable (r : Round)

/-- What `record_free` takes of the round's ranges. -/
def recorded : List Range := r.frees.filter fun q => 0 < q.2

/-- The entries of the journal blocks of the round. -/
def entries : List (List Range) := chunks (journaled r.recorded)

/-- The flag of its blocks. -/
def flag : Nat := if r.finalized then 1 else 0

end Round

def recordAll (j : Journal) (frees : List Range) : Journal :=
  frees.foldl (fun j r => j.recordFree r.1 r.2) j

/-- A round in which no cache access fails. -/
def RoundStep (s : Journal × Blocks) (r : Round) (s' : Journal × Blocks) : Prop :=
  ∃ fails s₁, prepare fails (s.1.recordAll r.frees) s.2 = (.ok (), s₁) ∧
    if r.finalized then ∃ fails', finalize fails' s₁.1 s₁.2 = (.ok (), s') else s' = s₁

variable {s s' : Journal × Blocks} {r : Round}

theorem recordAll_eq (frees : List Range) : j.recordAll frees =
    { j with pendingFrees := j.pendingFrees ++ frees.filter fun q => 0 < q.2 } := by
  induction frees generalizing j with
  | nil => rw [filter_nil, append_nil]; rfl
  | cons r frees ih =>
    rw [recordAll, foldl_cons, ← recordAll, ih, recordFree]
    split_ifs with hr
    · rw [filter_cons_of_pos (by simpa using hr), append_assoc]
      rfl
    · rw [filter_cons_of_neg (by simpa using hr)]

/-- What a round leaves in the ring. -/
structure RoundDone (s : Journal × Blocks) (r : Round) (s' : Journal × Blocks) : Prop where
  pending : s'.1.pendingFrees = []
  seq : s'.1.seq = (s.1.seq + 1) % 2 ^ 64
  head : s'.1.head = (s.1.head + r.entries.length) % JOURNAL_BLOCKS
  written : ∀ i c, r.entries[i]? = some c →
    s'.2 (ringBlock s.1.head i) = journalBuf s'.1.seq r.flag c
  other : ∀ b, (∀ i < r.entries.length, b ≠ ringBlock s.1.head i) → s'.2 b = s.2 b

theorem prepare_wrote (hhead : j.head < JOURNAL_BLOCKS) (hne : j.pendingFrees ≠ [])
    (h : prepare fails j blocks = (.ok (), s)) : s.1.pendingFrees = [] ∧
      Wrote { j with seq := (j.seq + 1) % 2 ^ 64, uncommittedBlocks := [] } blocks
        (chunks (journaled j.pendingFrees)) s.1 s.2 := by
  rw [prepare, if_neg hne] at h
  dsimp only at h
  split at h
  · rename_i j₁ blocks₁ hloop
    cases h
    obtain ⟨hhead', hseq, huncommitted, hwritten, hother⟩ :=
      prepareLoop_wrote (by exact hhead) (length_chunks_journaled _) hloop
    exact ⟨rfl, hhead', hseq, huncommitted, hwritten, hother⟩
  · rename_i hfailed
    exact (hfailed _ _ h).elim

theorem finalize_loop (h : finalize fails j blocks = (.ok (), s)) :
    s.1 = { j with uncommittedBlocks := [] } ∧
      finalizeLoop fails j.uncommittedBlocks blocks = (.ok (), s.2) := by
  rw [finalize] at h
  split at h
  · rename_i hloop
    cases h
    exact ⟨rfl, hloop⟩
  · cases h

theorem RoundStep.done (h : RoundStep s r s') (hhead : s.1.head < JOURNAL_BLOCKS)
    (hpending : s.1.pendingFrees = []) (hne : r.recorded ≠ []) : RoundDone s r s' := by
  obtain ⟨fails, s₁, hprepare, hrest⟩ := h
  have hrec : s.1.recordAll r.frees = { s.1 with pendingFrees := r.recorded } := by
    rw [recordAll_eq, hpending]
    rfl
  rw [hrec] at hprepare
  obtain ⟨hpending', hhead', hseq, huncommitted, hwritten, hother⟩ :=
    prepare_wrote (by exact hhead) (by exact hne) hprepare
  cases hfinalized : r.finalized with
  | false =>
    rw [hfinalized] at hrest
    cases hrest
    refine ⟨hpending', hseq, hhead', fun i c hc => ?_, hother⟩
    rw [hseq, Round.flag, hfinalized]
    exact hwritten i c hc
  | true =>
    rw [hfinalized] at hrest
    obtain ⟨fails', hfinal⟩ := hrest
    obtain ⟨hjournal, hloop⟩ := finalize_loop hfinal
    have hring : s₁.1.uncommittedBlocks =
        (range r.entries.length).map (ringBlock s.1.head) := huncommitted
    rw [hring] at hloop
    refine ⟨hjournal ▸ hpending', hjournal ▸ hseq, hjournal ▸ hhead', fun i c hc => ?_,
      fun b hb => ?_⟩
    · obtain ⟨hi, -⟩ := List.getElem?_eq_some_iff.mp hc
      have hbuf : s₁.2 (ringBlock s.1.head i) = journalBuf ((s.1.seq + 1) % 2 ^ 64) 0 c :=
        hwritten i c hc
      obtain ⟨n, hn⟩ := Nat.exists_eq_succ_of_ne_zero
        (count_pos_iff.mpr (mem_map_of_mem (f := ringBlock s.1.head) (mem_range.mpr hi))).ne'
      rw [finalizeLoop_eq hloop, hbuf, hn, Function.iterate_succ_apply, setCommitted_journalBuf,
        Function.iterate_fixed (setCommitted_journalBuf ..), hjournal, Round.flag, hfinalized, hseq]
      rfl
    · rw [finalizeLoop_eq hloop, count_eq_zero.mpr, ← hother b hb]
      · rfl
      intro hmem
      obtain ⟨i, hi, rfl⟩ := mem_map.mp hmem
      exact hb i (mem_range.mp hi) rfl

/-! ## The scan -/

/-- A block that ends the scan, or that it passes over. -/
def Stale (seq : Nat) (buf : List UInt8) : Prop :=
  buf.take 8 ≠ JOURNAL_MAGIC ∨ fieldAt buf 20 4 ≠ 1 ∨ fieldAt buf 8 8 < seq

/-- One step back around the ring for each block of the scan. -/
theorem checkPos_eq {head i : Nat} (hhead : head < JOURNAL_BLOCKS) (hi : i < JOURNAL_BLOCKS) :
    checkPos head i = (head + (JOURNAL_BLOCKS - 1 - i)) % JOURNAL_BLOCKS := by
  rw [checkPos]
  simp only [JOURNAL_BLOCKS] at hhead hi ⊢
  split_ifs
  · omega
  · omega

/-- No cache access fails. -/
def noFails : Nat → Option FsError := fun _ => none

section Scan

variable {head seq n i : Nat} {frees : List Range}

theorem replayLoop_stale
    (h : ∀ k, i ≤ k → k < i + n → Stale seq (blocks (JOURNAL_START + checkPos head k))) :
    replayLoop noFails blocks head seq n i frees = .ok frees := by
  induction n generalizing i with
  | zero => rfl
  | succ n ih =>
    have hstale := h i (Nat.le_refl i) (Nat.lt_add_of_pos_right n.succ_pos)
    have hrest := ih fun k hk hlt => h k (Nat.le_of_succ_le hk) (by omega)
    simp only [replayLoop, noFails]
    split_ifs with hmagic hflag hseq
    · rfl
    · exact hrest
    · rfl
    · exact absurd hstale (not_or.mpr ⟨hmagic, not_or.mpr ⟨hflag, hseq⟩⟩)

theorem replayLoop_entries (hseq : seq < 2 ^ 64) (hsize : ∀ c ∈ cs, c.length ≤ MAX_JOURNAL_ENTRIES)
    (hbits : ∀ c ∈ cs, ∀ r ∈ c, r.1 < 2 ^ 64 ∧ r.2 < 2 ^ 64) (h : ∀ k c, cs[k]? = some c →
      blocks (JOURNAL_START + checkPos head (i + k)) = journalBuf seq 1 c) :
    replayLoop noFails blocks head seq (cs.length + n) i frees =
      replayLoop noFails blocks head seq n (i + cs.length) (frees ++ cs.flatten.filter taken) := by
  induction cs generalizing i frees with
  | nil => simp
  | cons c cs ih =>
    obtain ⟨hlen, hsize⟩ := forall_mem_cons.mp hsize
    obtain ⟨hc, hbits⟩ := forall_mem_cons.mp hbits
    have hbuf := h 0 c rfl
    rw [Nat.add_zero] at hbuf
    rw [length_cons, Nat.add_right_comm, replayLoop]
    simp only [noFails, hbuf, magic_journalBuf, committed_journalBuf seq 1 c (by decide),
      seq_journalBuf seq 1 c hseq, entriesOf_journalBuf seq 1 hlen hc]
    rw [if_neg (by simp), if_neg (by simp), if_neg (Nat.lt_irrefl seq), flatten_cons,
      filter_append, ← append_assoc, ← Nat.add_assoc, Nat.add_right_comm]
    refine ih hsize hbits fun k c' hc' => ?_
    rw [Nat.add_right_comm i 1 k]
    exact h (k + 1) c' hc'

end Scan

/-! ## Runs of rounds -/

/-- The ring between two rounds: no block is newer than the journal. -/
structure Ring (s : Journal × Blocks) : Prop where
  head : s.1.head < JOURNAL_BLOCKS
  pending : s.1.pendingFrees = []
  older : ∀ p < JOURNAL_BLOCKS, (s.2 (JOURNAL_START + p)).take 8 = JOURNAL_MAGIC →
    fieldAt (s.2 (JOURNAL_START + p)) 8 8 ≤ s.1.seq

theorem Ring.round (hring : Ring s) (h : RoundDone s r s') (hseq : s.1.seq + 1 < 2 ^ 64) :
    Ring s' := by
  have hseq' := h.seq.trans (Nat.mod_eq_of_lt hseq)
  refine ⟨h.head ▸ Nat.mod_lt _ (by decide), h.pending, fun p hp hmagic => ?_⟩
  by_cases hmem : ∃ i < r.entries.length, JOURNAL_START + p = ringBlock s.1.head i
  · obtain ⟨i, hi, hpos⟩ := hmem
    rw [hpos, h.written i _ (getElem?_eq_getElem hi), seq_journalBuf _ _ _ (hseq' ▸ hseq)]
  have hsame := h.other _ fun i hi hpos => hmem ⟨i, hi, hpos⟩
  rw [hsame] at hmagic ⊢
  rw [hseq']
  exact Nat.le_succ_of_le (hring.older p hp hmagic)

section

variable (h : RoundDone s r s')

include h

theorem RoundDone.scanned {i : Nat} (hi : i < r.entries.length) :
    JOURNAL_START + checkPos s'.1.head i = ringBlock s.1.head (r.entries.length - 1 - i) := by
  have hlen : r.entries.length ≤ JOURNAL_BLOCKS := length_chunks_journaled _
  rw [h.head, checkPos_eq (Nat.mod_lt _ (by decide)) (hi.trans_le hlen)]
  simp only [ringBlock, JOURNAL_BLOCKS] at hlen ⊢
  omega

section

variable (hring : Ring s) (hseq : s.1.seq + 1 < 2 ^ 64)

include hring hseq

/-- **Step lemma**: what is behind the blocks of the last round is stale. -/
theorem RoundDone.stale_behind {i : Nat} (hi : r.entries.length ≤ i) (hlt : i < JOURNAL_BLOCKS) :
    Stale s'.1.seq (s'.2 (JOURNAL_START + checkPos s'.1.head i)) := by
  have hpos : checkPos s'.1.head i < JOURNAL_BLOCKS ∧ ∀ k < r.entries.length,
      JOURNAL_START + checkPos s'.1.head i ≠ ringBlock s.1.head k := by
    rw [h.head, checkPos_eq (Nat.mod_lt _ (by decide)) hlt]
    simp only [ringBlock, JOURNAL_BLOCKS] at hlt ⊢
    constructor
    · omega
    · intro k hk
      omega
  rw [h.other _ hpos.2]
  by_cases hmagic : (s.2 (JOURNAL_START + checkPos s'.1.head i)).take 8 = JOURNAL_MAGIC
  · have := hring.older _ hpos.1 hmagic
    rw [h.seq, Nat.mod_eq_of_lt hseq]
    exact .inr (.inr (Nat.lt_succ_of_le this))
  · exact .inl hmagic

/-- A round that was not finalized is not replayed, nor is any before it. -/
theorem RoundDone.replay_prepared (hr : r.finalized = false) :
    replay noFails s'.2 s'.1.head s'.1.seq = .ok [] := by
  refine replayLoop_stale fun i _ hi => ?_
  rcases Nat.lt_or_ge i r.entries.length with hlt | hge
  · have hback : r.entries.length - 1 - i < r.entries.length := by omega
    rw [h.scanned hlt, h.written _ _ (getElem?_eq_getElem hback), Round.flag, hr]
    exact .inr (.inl (by rw [committed_journalBuf] <;> decide))
  · exact h.stale_behind hring hseq hge (Nat.zero_add JOURNAL_BLOCKS ▸ hi)

/-- A finalized round is replayed, but for its ranges at block 0. -/
theorem RoundDone.replay_finalized (hr : r.finalized = true)
    (hbits : ∀ q ∈ journaled r.recorded, q.1 < 2 ^ 64 ∧ q.2 < 2 ^ 64) :
    ∃ frees, replay noFails s'.2 s'.1.head s'.1.seq = .ok frees ∧
      frees.Perm ((journaled r.recorded).filter taken) := by
  have hlen : r.entries.length ≤ JOURNAL_BLOCKS := length_chunks_journaled _
  have hseq' : s'.1.seq < 2 ^ 64 := h.seq ▸ Nat.mod_lt _ (by decide)
  have hflat : r.entries.flatten = journaled r.recorded := flatten_chunks _
  have hsplit : r.entries.reverse.length + (JOURNAL_BLOCKS - r.entries.length) =
      JOURNAL_BLOCKS := by
    rw [length_reverse, Nat.add_sub_cancel' hlen]
  have hwritten (k : Nat) (c : List Range) (hc : r.entries.reverse[k]? = some c) :
      s'.2 (JOURNAL_START + checkPos s'.1.head (0 + k)) = journalBuf s'.1.seq 1 c := by
    obtain ⟨hk, -⟩ := List.getElem?_eq_some_iff.mp hc
    rw [length_reverse] at hk
    rw [getElem?_reverse hk] at hc
    rw [Nat.zero_add, h.scanned hk, h.written _ c hc, Round.flag, hr]
    rfl
  refine ⟨r.entries.reverse.flatten.filter taken, ?_, ?_⟩
  · calc replay noFails s'.2 s'.1.head s'.1.seq
      _ = replayLoop noFails s'.2 s'.1.head s'.1.seq
          (r.entries.reverse.length + (JOURNAL_BLOCKS - r.entries.length)) 0 [] := by
        rw [hsplit, replay]
      _ = _ := replayLoop_entries hseq'
        (fun c hc => length_le_of_mem_chunks (mem_reverse.mp hc))
        (fun c hc q hq => hbits q (hflat ▸ mem_flatten_of_mem (mem_reverse.mp hc) hq))
        hwritten
      _ = .ok _ := replayLoop_stale fun i hi hlt =>
        h.stale_behind hring hseq (by simpa using hi) (by simp at hlt; omega)
  · rw [← hflat]
    exact (reverse_perm r.entries).flatten.filter taken

end

end

/-- A round with something to free that the ring has room for. -/
structure Round.Fits (r : Round) : Prop where
  nonempty : r.recorded ≠ []
  room : (mergeFrees r.recorded).length ≤ JOURNAL_BLOCKS * MAX_JOURNAL_ENTRIES

/-- **Run lemma.** -/
theorem Ring.run {rounds : List Round} (hrun : Run RoundStep s rounds s') (hring : Ring s)
    (hfits : ∀ r ∈ rounds, r.Fits) (hseq : s.1.seq + rounds.length < 2 ^ 64) :
    Ring s' ∧ s'.1.seq = s.1.seq + rounds.length := by
  induction hrun with
  | nil => exact ⟨hring, rfl⟩
  | @cons s s₁ s₂ r rounds hstep _ ih =>
    obtain ⟨hr, hfits⟩ := forall_mem_cons.mp hfits
    rw [length_cons] at hseq ⊢
    have hdone := hstep.done hring.head hring.pending hr.nonempty
    have hseq₁ : s₁.1.seq = s.1.seq + 1 := hdone.seq.trans (Nat.mod_eq_of_lt (by omega))
    obtain ⟨hring', hseq'⟩ := ih (hring.round hdone (by omega)) hfits (by omega)
    exact ⟨hring', by omega⟩

/-- The journal area as `mkfs` leaves it. -/
def wiped : Blocks := fun _ => replicate BLOCK_SIZE 0

theorem ring_new {head seq : Nat} (h : head < JOURNAL_BLOCKS) : Ring (new head seq, wiped) :=
  ⟨h, rfl, fun _ _ hmagic => absurd hmagic (by simp only [wiped, take_replicate]; decide)⟩

theorem Round.recorded_blocks (r : Round) :
    r.recorded.flatMap Range.blocks = r.frees.flatMap Range.blocks := by
  rw [Round.recorded]
  induction r.frees with
  | nil => rfl
  | cons q frees ih =>
    by_cases hq : 0 < q.2
    · rw [filter_cons_of_pos (by simpa using hq), flatMap_cons, flatMap_cons, ih]
    · rw [filter_cons_of_neg (by simpa using hq), flatMap_cons, ih, Range.blocks,
        Nat.eq_zero_of_not_pos hq]
      rfl

/-- What is replayed of a finalized round whose ranges are in order is what was recorded. -/
theorem Round.Fits.replayed (h : r.Fits) (hvalid : ∀ q ∈ r.recorded, Valid q) :
    (journaled r.recorded).filter taken = mergeFrees r.recorded ∧
      ∀ q ∈ journaled r.recorded, q.1 < 2 ^ 64 ∧ q.2 < 2 ^ 64 := by
  have hmerged := (mergeFrees_blocks hvalid).2
  have hall : journaled r.recorded = mergeFrees r.recorded := take_of_length_le h.room
  rw [hall]
  constructor
  · refine filter_eq_self.mpr fun q hq => ?_
    exact decide_eq_true ⟨(hmerged q hq).1, (hmerged q hq).2.1⟩
  · intro q hq
    have := hmerged q hq
    unfold Valid at this
    omega

/-- A round in which no cache access fails. -/
theorem roundStep_noFails {frees : List Range} {s₁ : Journal × Blocks}
    (hprepare : prepare noFails (s.1.recordAll frees) s.2 = (.ok (), s₁))
    (hfinalize : finalize noFails s₁.1 s₁.2 = (.ok (), s')) : RoundStep s ⟨frees, true⟩ s' :=
  ⟨noFails, s₁, hprepare, noFails, hfinalize⟩

/-- **Replay recovers exactly the last round**, over any number of rounds from a wiped ring: every
block as often as it was recorded, and nothing if the last round was not finalized. -/
theorem replay_last_round {head seq : Nat} {rounds : List Round} {last : Round}
    (hhead : head < JOURNAL_BLOCKS)
    (hrun : Run RoundStep (new head seq, wiped) (rounds ++ [last]) s)
    (hfits : ∀ r ∈ rounds ++ [last], r.Fits) (hseq : seq + (rounds ++ [last]).length < 2 ^ 64)
    (hblocks : last.finalized = true → ∀ q ∈ last.recorded, 0 < q.1 ∧ q.1 + q.2 ≤ 2 ^ 64) :
    ∃ frees, replay noFails s.2 s.1.head s.1.seq = .ok frees ∧
      if last.finalized then (frees.flatMap Range.blocks).Perm (last.frees.flatMap Range.blocks)
      else frees = [] := by
  obtain ⟨s₁, hrounds, hlast⟩ := hrun.split
  obtain ⟨hfits, hfit⟩ := forall_mem_append.mp hfits
  replace hfit := hfit last (mem_singleton_self last)
  rw [length_append, length_singleton, ← Nat.add_assoc] at hseq
  obtain ⟨hring, hseq₁⟩ := (ring_new hhead).run hrounds hfits (Nat.lt_of_succ_lt hseq)
  have hseq₁ : s₁.1.seq + 1 < 2 ^ 64 := by
    rw [hseq₁]
    exact hseq
  cases hlast with
  | cons hstep hnil =>
    cases hnil
    have hdone := hstep.done hring.head hring.pending hfit.nonempty
    cases hr : last.finalized with
    | false => exact ⟨[], hdone.replay_prepared hring hseq₁ hr, rfl⟩
    | true =>
      have hvalid : ∀ q ∈ last.recorded, Valid q := by
        intro q hq
        have hpos : 0 < q.2 := of_decide_eq_true (mem_filter.mp hq).2
        exact ⟨(hblocks hr q hq).1, hpos, (hblocks hr q hq).2⟩
      obtain ⟨htaken, hbits⟩ := hfit.replayed hvalid
      obtain ⟨frees, hreplay, hperm⟩ := hdone.replay_finalized hring hseq₁ hr hbits
      refine ⟨frees, hreplay, ?_⟩
      rw [htaken] at hperm
      rw [if_pos rfl, ← last.recorded_blocks]
      exact (hperm.flatMap_right _).trans (mergeFrees_blocks hvalid).1

/-- Two rounds, the second with two adjacent ranges. -/
theorem replay_second_round : ∃ s frees,
    Run RoundStep (new 255 0, wiped) [⟨[(300, 2)], true⟩, ⟨[(402, 1), (400, 2)], true⟩] s ∧
      replay noFails s.2 s.1.head s.1.seq = .ok frees ∧
        (frees.flatMap Range.blocks).Perm [402, 400, 401] := by
  have hrun : Run RoundStep (new 255 0, wiped)
      [⟨[(300, 2)], true⟩, ⟨[(402, 1), (400, 2)], true⟩] _ :=
    .cons (roundStep_noFails (Prod.ext (by decide +kernel) rfl) (Prod.ext (by decide +kernel) rfl))
      (.single (roundStep_noFails (Prod.ext (by decide +kernel) rfl)
        (Prod.ext (by decide +kernel) rfl)))
  have hfits : ∀ r ∈ [Round.mk [(300, 2)] true] ++ [⟨[(402, 1), (400, 2)], true⟩], r.Fits := by
    simp only [cons_append, nil_append, forall_mem_cons]
    exact ⟨⟨by decide, by decide⟩, ⟨by decide, by decide⟩, nofun⟩
  obtain ⟨frees, hreplay, hperm⟩ :=
    replay_last_round (by decide) hrun hfits (by decide) fun _ => by decide
  exact ⟨_, frees, hrun, hreplay, hperm⟩

/-- A recorded range that starts at block 0 is not replayed. -/
theorem replay_skips_block_zero : ∃ s, Run RoundStep (new 0 0, wiped) [⟨[(0, 1)], true⟩] s ∧
    Round.Fits ⟨[(0, 1)], true⟩ ∧ replay noFails s.2 s.1.head s.1.seq = .ok [] ∧
      [(0, 1)].flatMap Range.blocks = [0] :=
  ⟨_, .single (roundStep_noFails (Prod.ext (by decide +kernel) rfl) (Prod.ext (by decide +kernel) rfl)),
    ⟨by decide, by decide⟩, by decide +kernel, rfl⟩

end NopeekOS.Storage.Journal
