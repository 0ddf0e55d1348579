import NopeekOS.Storage.Bitmap
import NopeekOS.Storage.JournalReplay

/-!
# The four-phase commit (`storage/npkfs/storage.rs`)

`commit_root` sets the new root in the superblock in memory and takes the batch of old blocks
before the first step that can fail, and no step gives them back. So a commit that fails shows
its new root, and keeps the batch only where `prepare` fails, as ranges of the journal. `commit`
frees the blocks it is handed, not those ranges, so no later commit frees them
(`commitRoot_fails_iff`).

The cache is what it shows of the journal blocks (`blocks`) and the bitmap blocks (`disk`). The
commit counter of `gc` and the timing are left out.
-/

namespace NopeekOS.Storage.Commit

open Journal

/-- The fields of `SuperblockRaw` (format.rs:131) that a commit sets. -/
structure Superblock where
  rootTreeHash : Hash
  generation : Nat
  freeBlocks : Nat
  journalHead : Nat
  journalSeq : Nat

/-- `State` (storage.rs:27), with the superblock that a mount would take. -/
structure State where
  sb : Superblock
  bitmap : Bitmap
  journal : Journal
  generation : Nat
  pendingOldBlocks : List Nat
  blocks : Blocks
  disk : Disk
  durable : Superblock

/-- The error of each step of `commit`, if it fails. -/
structure Faults where
  prepare : Nat → Option FsError
  sync : Nat → Option FsError
  cacheFlush : Option FsError
  deviceFlush : Option FsError
  /-- A failed write leaves the superblock that a mount takes. -/
  superblock : Option FsError
  finalize : Nat → Option FsError
  lastFlush : Option FsError

/-- `commit` (storage.rs:1311) up to the FUA write of the superblock. -/
def publish (f : Faults) (fs : State) : Except FsError Unit × State :=
  match fs.journal.prepare f.prepare fs.blocks with
  | (.error e, journal, blocks) => (.error e, { fs with journal, blocks })
  | (.ok (), journal, blocks) =>
    let sb := { fs.sb with journalSeq := journal.seq, journalHead := journal.head }
    match fs.bitmap.sync f.sync fs.disk with
    | (.error e, bitmap, disk) => (.error e, { fs with journal, blocks, sb, bitmap, disk })
    | (.ok (), bitmap, disk) =>
      match f.cacheFlush <|> f.deviceFlush <|> f.superblock with
      | some e => (.error e, { fs with journal, blocks, sb, bitmap, disk })
      | none => (.ok (), { fs with journal, blocks, sb, bitmap, disk, durable := sb })

/-- `commit`. -/
def commit (f : Faults) (fs : State) (oldBlocks : List Nat) : Except FsError Unit × State :=
  match publish f fs with
  | (.error e, fs) => (.error e, fs)
  | (.ok (), fs) =>
    match fs.journal.finalize f.finalize fs.blocks with
    | (.error e, journal, blocks) => (.error e, { fs with journal, blocks })
    | (.ok (), journal, blocks) =>
      match f.lastFlush with
      | some e => (.error e, { fs with journal, blocks })
      | none =>
        let bitmap := oldBlocks.foldl (fun bitmap b => bitmap.free b 1) fs.bitmap
        (.ok (), { fs with journal, blocks, bitmap })

/-- What `commit_root` hands to `commit`. -/
def stage (fs : State) (newRoot : Hash) : State :=
  let generation := (fs.generation + 1) % 2 ^ 64
  { fs with
    generation
    pendingOldBlocks := []
    sb := { fs.sb with rootTreeHash := newRoot, generation, freeBlocks := fs.bitmap.freeCount }
    journal := fs.journal.recordAll (fs.pendingOldBlocks.map (·, 1)) }

/-- `commit_root` (storage.rs:802). -/
def commitRoot (f : Faults) (newRoot : Hash) : Option State → Except FsError Unit × Option State
  | none => (.error .notMounted, none)
  | some fs =>
    if fs.sb.rootTreeHash = newRoot ∧ fs.pendingOldBlocks = [] then (.ok (), some fs)
    else (commit f (stage fs newRoot) fs.pendingOldBlocks).map id some

/-- `current_root` (storage.rs:768). -/
def currentRoot (fs : Option State) : Option Hash := fs.map fun fs => fs.sb.rootTreeHash

/-- A block that a later commit is to free: it is pending, or in a range of the journal. -/
def Recorded (fs : State) (b : Nat) : Prop :=
  b ∈ fs.pendingOldBlocks ∨ ∃ r ∈ fs.journal.pendingFrees, b ∈ r.blocks

/-- Every commit that succeeds next leaves the block free. -/
def FreedLater (fs : State) (b : Nat) : Prop :=
  ∀ f root fs', commitRoot f root (some fs) = (.ok (), some fs') → fs'.bitmap.isAllocated b = false

/-- The journal refuses its entries, and these hold the batch. -/
def Refused (f : Faults) (fs : State) (newRoot : Hash) : Prop :=
  (prepare f.prepare (stage fs newRoot).journal fs.blocks).1 ≠ .ok () ∧
  ∀ b ∈ fs.pendingOldBlocks,
    ∃ r ∈ journaled (fs.journal.pendingFrees ++ fs.pendingOldBlocks.map (·, 1)), b ∈ r.blocks

/-! ## The steps -/

section Prepare

variable {fails : Nat → Option FsError} {j : Journal} {blocks : Blocks}

theorem prepareLoop_pending (cs : List (List Range)) :
    (prepareLoop fails cs j blocks).2.1.pendingFrees = j.pendingFrees := by
  induction cs generalizing j blocks with
  | nil => rfl
  | cons c cs ih =>
    rw [prepareLoop]
    split
    · rfl
    · exact ih

variable (fails j blocks) in
theorem prepare_pending :
    (prepare fails j blocks).1 = .ok () ∧ (prepare fails j blocks).2.1.pendingFrees = [] ∨
      (prepare fails j blocks).1 ≠ .ok () ∧
        (prepare fails j blocks).2.1.pendingFrees = journaled j.pendingFrees := by
  rw [prepare]
  split_ifs with hnone
  · exact .inl ⟨rfl, hnone⟩
  · dsimp only
    split
    · exact .inl ⟨rfl, rfl⟩
    · rename_i hfailed
      exact .inr ⟨fun hr => hfailed _ _ (Prod.ext hr rfl), prepareLoop_pending _⟩

end Prepare

theorem syncLoop_isAllocated (fails : Nat → Option FsError) (b n i : Nat) (s : Bitmap × Disk) :
    (Bitmap.syncLoop fails n i s).2.1.isAllocated b = s.1.isAllocated b := by
  induction n generalizing i s with
  | zero => rfl
  | succ n ih =>
    rw [Bitmap.syncLoop]
    split_ifs
    · exact ih ..
    · split
      · rfl
      · exact ih ..

variable {f : Faults} {fs fs' : State} {newRoot : Hash} {e : FsError}

/-- What the steps up to the superblock leave, whether or not one of them fails. -/
structure Kept (f : Faults) (fs fs' : State) : Prop where
  root : fs'.sb.rootTreeHash = fs.sb.rootTreeHash
  pending : fs'.pendingOldBlocks = fs.pendingOldBlocks
  journal : fs'.journal = (prepare f.prepare fs.journal fs.blocks).2.1
  allocated : ∀ b, fs'.bitmap.isAllocated b = fs.bitmap.isAllocated b

theorem publish_kept {r : Except FsError Unit} (h : publish f fs = (r, fs')) : Kept f fs fs' := by
  have hfs : (publish f fs).2 = fs' := congrArg Prod.snd h
  have hsync (b : Nat) : (fs.bitmap.sync f.sync fs.disk).2.1.isAllocated b =
      fs.bitmap.isAllocated b := by
    rw [Bitmap.sync]
    split_ifs
    · exact syncLoop_isAllocated ..
    · rfl
  rw [← hfs, publish]
  cases hprepare : prepare f.prepare fs.journal fs.blocks with
  | mk r s =>
    generalize fs.bitmap.sync f.sync fs.disk = synced at hsync ⊢
    obtain ⟨r', bitmap, disk⟩ := synced
    cases r with
    | error => exact ⟨rfl, rfl, by rw [hprepare], fun _ => rfl⟩
    | ok =>
      cases r' with
      | error => exact ⟨rfl, rfl, by rw [hprepare], hsync⟩
      | ok =>
        dsimp only
        split
        · exact ⟨rfl, rfl, by rw [hprepare], hsync⟩
        · exact ⟨rfl, rfl, by rw [hprepare], hsync⟩

/-- A commit that succeeds frees the blocks it is handed, and no other. -/
theorem commit_ok {oldBlocks : List Nat} (h : commit f fs oldBlocks = (.ok (), fs')) :
    ∃ fs₁, publish f fs = (.ok (), fs₁) ∧
      fs'.bitmap = oldBlocks.foldl (fun bitmap b => bitmap.free b 1) fs₁.bitmap := by
  rw [commit] at h
  split at h
  · cases h
  · rename_i fs₁ hpublish
    refine ⟨fs₁, hpublish, ?_⟩
    split at h
    · cases h
    · split at h
      · cases h
      · cases h
        rfl

/-- A commit with nothing pending frees no block. -/
theorem commitRoot_ok (hpending : fs.pendingOldBlocks = [])
    (h : commitRoot f newRoot (some fs) = (.ok (), some fs')) (b : Nat) :
    fs'.bitmap.isAllocated b = fs.bitmap.isAllocated b := by
  rw [commitRoot] at h
  split_ifs at h
  · cases h
    rfl
  · generalize hcommit : commit f (stage fs newRoot) fs.pendingOldBlocks = r at h
    obtain ⟨r, fs₁⟩ := r
    cases h
    obtain ⟨fs₁, hpublish, hfree⟩ := commit_ok hcommit
    rw [hfree, hpending]
    exact (publish_kept hpublish).allocated b

/-- With nothing pending such a block was free before. -/
theorem freedLater_iff (hpending : fs.pendingOldBlocks = []) (b : Nat) :
    FreedLater fs b ↔ fs.bitmap.isAllocated b = false := by
  refine ⟨fun h => ?_, fun h f root fs' hlater => ?_⟩
  · -- The root that is there already is committed without a step.
    exact h ⟨noFails, noFails, none, none, none, noFails, none⟩ fs.sb.rootTreeHash fs
      (by rw [commitRoot, if_pos ⟨rfl, hpending⟩])
  · rw [commitRoot_ok hpending hlater]
    exact h

/-! ## A commit that fails -/

/-- The journal as `commit` gets it. -/
theorem pendingFrees_stage (fs : State) (newRoot : Hash) : (stage fs newRoot).journal.pendingFrees =
    fs.journal.pendingFrees ++ fs.pendingOldBlocks.map (·, 1) := by
  rw [stage, recordAll_eq, List.filter_eq_self.mpr]
  intro q hq
  obtain ⟨b, -, rfl⟩ := List.mem_map.mp hq
  rfl

/-- **A failed commit**, whatever step up to the superblock fails and whatever the new root: the
root and the batch are kept exactly if the root is the old one, the journal refuses its entries
and these hold the batch. But no commit after it frees a block: the batch is kept and free after
the next commit only if it was free before, so never if one of its blocks was in use. -/
theorem commitRoot_fails_iff (hreach : fs.sb.rootTreeHash ≠ newRoot ∨ fs.pendingOldBlocks ≠ [])
    (hfail : publish f (stage fs newRoot) = (.error e, fs')) :
    commitRoot f newRoot (some fs) = (.error e, some fs') ∧
    ((currentRoot (some fs') = currentRoot (some fs) ∧ ∀ b ∈ fs.pendingOldBlocks, Recorded fs' b) ↔
      newRoot = fs.sb.rootTreeHash ∧ Refused f fs newRoot) ∧
    ((currentRoot (some fs') = currentRoot (some fs) ∧
        ∀ b ∈ fs.pendingOldBlocks, Recorded fs' b ∧ FreedLater fs' b) ↔
      (newRoot = fs.sb.rootTreeHash ∧ Refused f fs newRoot) ∧
        ∀ b ∈ fs.pendingOldBlocks, fs.bitmap.isAllocated b = false) ∧
    ∀ f' root fs'' b, commitRoot f' root (some fs') = (.ok (), some fs'') →
      fs''.bitmap.isAllocated b = fs.bitmap.isAllocated b := by
  obtain ⟨hroot, hpending, hjournal, hallocated⟩ := publish_kept hfail
  have hkept : (currentRoot (some fs') = currentRoot (some fs) ∧
      ∀ b ∈ fs.pendingOldBlocks, Recorded fs' b) ↔
        newRoot = fs.sb.rootTreeHash ∧ Refused f fs newRoot := by
    have hsame : currentRoot (some fs') = currentRoot (some fs) ↔ newRoot = fs.sb.rootTreeHash := by
      simp only [currentRoot, Option.map_some, Option.some.injEq, hroot]
      rfl
    have hrecorded (b : Nat) : Recorded fs' b ↔ ∃ r ∈ fs'.journal.pendingFrees, b ∈ r.blocks :=
      or_iff_right (hpending ▸ List.not_mem_nil)
    rw [hsame, Refused, ← pendingFrees_stage fs newRoot]
    refine and_congr_right fun hold => ?_
    simp only [hrecorded, hjournal]
    rcases prepare_pending f.prepare (stage fs newRoot).journal (stage fs newRoot).blocks
      with ⟨hok, hnone⟩ | ⟨herr, hkept⟩
    · -- the journal was written and forgot its ranges
      obtain ⟨b, hb⟩ := List.exists_mem_of_ne_nil _ (hreach.resolve_left (not_not.mpr hold.symm))
      refine ⟨fun hall => ?_, fun h => absurd hok h.1⟩
      obtain ⟨r, hr, -⟩ := hall b hb
      rw [hnone] at hr
      cases hr
    · rw [hkept]
      exact (and_iff_right herr).symm
  refine ⟨?_, hkept, ?_, fun f' root fs'' b hlater => ?_⟩
  · rw [commitRoot, if_neg (not_and_or.mpr hreach), commit, hfail]
    rfl
  · simp only [@freedLater_iff fs' hpending, hallocated, forall₂_and, ← and_assoc, hkept]
    exact Iff.rfl
  · rw [commitRoot_ok hpending hlater]
    exact hallocated b

/-- A mounted store with root 1 and one old block, all of its 300 blocks in use. -/
def sample : State where
  sb := ⟨1, 1, 0, 0, 0⟩
  bitmap := .load ⟨300, META_END, 1, 266, by decide, by decide, by decide, by decide⟩ fun _ _ => 255
  journal := new 0 0
  generation := 1
  pendingOldBlocks := [280]
  blocks := wiped
  disk := fun _ _ => 255
  durable := ⟨1, 1, 0, 0, 0⟩

/-- The cache refuses the journal blocks. -/
def refusing : Faults := ⟨fun _ => some .disk, noFails, none, none, none, noFails, none⟩

/-- With the old root a journal that is refused keeps the old block, but no commit frees it. -/
theorem commitRoot_refused : ∃ fs', commitRoot refusing 1 (some sample) = (.error .disk, some fs') ∧
    currentRoot (some fs') = some 1 ∧ Recorded fs' 280 ∧ ¬ FreedLater fs' 280 ∧
    ∀ f root fs'', commitRoot f root (some fs') = (.ok (), some fs'') →
      fs''.bitmap.isAllocated 280 = true := by
  have hfail : publish refusing (stage sample 1) = (.error .disk, _) := Prod.ext (by decide +kernel) rfl
  obtain ⟨herr, hiff, hfreed, hlater⟩ := commitRoot_fails_iff (.inr (List.cons_ne_nil _ _)) hfail
  obtain ⟨hroot, hkept⟩ := hiff.mpr ⟨rfl, by decide +kernel, by decide⟩
  have hused : sample.bitmap.isAllocated 280 = true := by decide
  refine ⟨_, herr, hroot, hkept 280 (List.mem_singleton_self _), fun h => ?_,
    fun f root fs'' hok => (hlater f root fs'' 280 hok).trans hused⟩
  have hfree := (hfreed.mp ⟨hroot, fun b hb => ⟨hkept b hb, List.mem_singleton.mp hb ▸ h⟩⟩).2
  exact absurd (hfree 280 (List.mem_singleton_self _)) (by rw [hused]; decide)

/-- The device does not flush. -/
def unflushed : Faults := ⟨noFails, noFails, none, some .disk, none, noFails, none⟩

/-- The new root shows, and the old block is forgotten. -/
theorem commitRoot_loses_batch : ∃ fs',
    commitRoot unflushed 2 (some sample) = (.error .disk, some fs') ∧
      currentRoot (some sample) = some 1 ∧ currentRoot (some fs') = some 2 ∧
      280 ∈ sample.pendingOldBlocks ∧ ¬ Recorded fs' 280 :=
  ⟨_, Prod.ext (by decide +kernel) rfl, rfl, by decide +kernel, List.mem_singleton_self _,
    by unfold Recorded; decide +kernel⟩

end NopeekOS.Storage.Commit
