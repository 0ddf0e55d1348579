import NopeekOS.Lib.ByteStream
import NopeekOS.Lib.Run
import NopeekOS.Net.TcpRecv

/-!
# What the receiver delivers

The peer's stream is fixed, and segments carry bytes of it at their sequence numbers, in any
order and with any overlap. `RecvOk` says what then holds of the receive side: what was read
and what waits to be read is the stream up to `rcvOff`, every entry of the reassembly queue
has bytes of the stream at its key, and the runs are the union of the entries above `rcvOff`.
Every segment and every `recv` keeps it (`RecvOk.dataQueue`, `RecvOk.recv`). While entries are
pulled out of the queue the runs are behind; `Draining` is the invariant of that loop.
-/

namespace NopeekOS.Net

open Lib List

/-- An offset in some entry of the queue. -/
def Held (ooo : List (Nat × List Byte)) (x : Nat) : Prop :=
  ∃ e ∈ ooo, e.1 ≤ x ∧ x < e.1 + e.2.length

/-- The receive side while the queue is pulled out, with `ooo` left of it. -/
structure Draining (irs : Nat) (S : Nat → Byte) (delivered : List Byte)
    (ooo : List (Nat × List Byte)) (r : RecvSide) : Prop where
  stream : delivered ++ r.recvBuf = slice S 0 r.rcvOff
  nxt : r.rcvNxt = seqAt (irs + 1) r.rcvOff
  buf : r.recvBuf.length ≤ RECV_BUF_SIZE
  asc : Ascending ooo
  entry : ∀ e ∈ ooo, e.2 = slice S e.1 e.2.length ∧ 0 < e.2.length
  bytes : r.oooBytes = (ooo.map fun e => e.2.length).sum
  runs : RunsOk r.oooRuns
  covers : ∀ x, r.rcvOff ≤ x → (Covers r.oooRuns x ↔ Held ooo x)

/-- **The invariant of the receive side**, for the stream `S` that starts after the number
`irs`, of which `delivered` was read. -/
structure RecvOk (irs : Nat) (S : Nat → Byte) (delivered : List Byte) (r : RecvSide) : Prop where
  stream : delivered ++ r.recvBuf = slice S 0 r.rcvOff
  nxt : r.rcvNxt = seqAt (irs + 1) r.rcvOff
  buf : r.recvBuf.length ≤ RECV_BUF_SIZE
  asc : Ascending r.ooo
  entry : ∀ e ∈ r.ooo, e.2 = slice S e.1 e.2.length ∧ 0 < e.2.length
  bytes : r.oooBytes = (r.ooo.map fun e => e.2.length).sum
  runs : RunsOk r.oooRuns
  covers : ∀ x, Covers r.oooRuns x ↔ r.rcvOff ≤ x ∧ Held r.ooo x

variable {irs : Nat} {S : Nat → Byte} {delivered : List Byte} {r : RecvSide}

/-! ## Pulling segments out of the queue -/

namespace Draining

variable {k : Nat} {seg : List Byte} {rest : List (Nat × List Byte)}

/-- An entry below `x` does not hold it. -/
theorem held_cons_of_le {x : Nat} (h : k + seg.length ≤ x) :
    Held ((k, seg) :: rest) x ↔ Held rest x := by
  unfold Held
  rw [exists_mem_cons_iff]
  refine or_iff_right fun hx => ?_
  have := hx.2
  dsimp only at this
  omega

section

variable (h : Draining irs S delivered ((k, seg) :: rest) r)

include h

theorem bytes_rest : r.oooBytes - seg.length = (rest.map fun e => e.2.length).sum := by
  rw [h.bytes, map_cons, sum_cons]
  exact Nat.add_sub_cancel_left ..

/-- An entry that was delivered before is dropped. -/
theorem stale (hle : k + seg.length ≤ r.rcvOff) :
    Draining irs S delivered rest { r with oooBytes := r.oooBytes - seg.length } :=
  { h with
    asc := (pairwise_cons.mp h.asc).2
    entry := fun e he => h.entry e (.tail _ he)
    bytes := h.bytes_rest
    covers := fun x hx => (h.covers x hx).trans (held_cons_of_le (Nat.le_trans hle hx)) }

/-- An entry that continues the stream is delivered. -/
theorem deliver (hk : k ≤ r.rcvOff) (hlt : r.rcvOff < k + seg.length)
    (hroom : r.recvBuf.length + seg.length - (r.rcvOff - k) ≤ RECV_BUF_SIZE) :
    Draining irs S delivered rest { r with
      oooBytes := r.oooBytes - seg.length
      rcvNxt := add32 r.rcvNxt (seg.length - (r.rcvOff - k))
      rcvOff := r.rcvOff + (seg.length - (r.rcvOff - k))
      recvBuf := r.recvBuf ++ seg.drop (r.rcvOff - k) } where
  stream := by
    have hseg := (h.entry _ mem_cons_self).1
    dsimp only at hseg ⊢
    have hdrop : seg.drop (r.rcvOff - k) = slice S r.rcvOff (seg.length - (r.rcvOff - k)) := by
      rw [hseg, drop_slice, length_slice, Nat.add_sub_cancel' hk]
    rw [hdrop, ← append_assoc, h.stream]
    have happend := slice_append S 0 r.rcvOff (seg.length - (r.rcvOff - k))
    rw [Nat.zero_add] at happend
    exact happend
  nxt := by
    rw [h.nxt, add32_seqAt]
  buf := by
    rw [length_append, length_drop]
    omega
  asc := (pairwise_cons.mp h.asc).2
  entry e he := h.entry e (.tail _ he)
  bytes := h.bytes_rest
  runs := h.runs
  covers x hx := by
    dsimp only at hx
    refine (h.covers x (by omega)).trans (held_cons_of_le ?_)
    omega

end

/-- **The loop** keeps it, and puts what is left of the queue back. -/
theorem drain {ooo : List (Nat × List Byte)} (h : Draining irs S delivered ooo r) :
    Draining irs S delivered (r.drain ooo).ooo (r.drain ooo) ∧ r.rcvOff ≤ (r.drain ooo).rcvOff := by
  induction ooo generalizing r with
  | nil =>
    exact ⟨{ h with }, Nat.le_refl _⟩
  | cons e rest ih =>
    obtain ⟨k, seg⟩ := e
    have hback : Draining irs S delivered ((k, seg) :: rest) { r with ooo := (k, seg) :: rest } :=
      { h with }
    unfold RecvSide.drain
    split
    · rename_i hle
      exact ih (h.stale hle)
    rename_i hlt
    split
    · exact ⟨hback, Nat.le_refl _⟩
    rename_i hk
    split
    · exact ⟨hback, Nat.le_refl _⟩
    rename_i hroom
    obtain ⟨hdone, hle⟩ := ih (h.deliver (Nat.not_lt.mp hk) (Nat.not_le.mp hlt)
      (Nat.not_lt.mp hroom))
    exact ⟨hdone, Nat.le_trans (Nat.le_add_right ..) hle⟩

/-- With the runs trimmed the invariant is whole again. -/
theorem trim (h : Draining irs S delivered r.ooo r) :
    RecvOk irs S delivered { r with oooRuns := oooRunsTrim r.oooRuns r.rcvOff } := by
  obtain ⟨hruns, hcovers⟩ := h.runs.trim r.rcvOff
  refine { h with runs := hruns, covers := fun x => (hcovers x).trans ?_ }
  constructor
  · rintro ⟨hx, hle⟩
    exact ⟨hle, (h.covers x hle).mp hx⟩
  · rintro ⟨hle, hx⟩
    exact ⟨(h.covers x hle).mpr hx, hle⟩

end Draining

/-! ## The segments -/

namespace RecvOk

variable {off : Nat} {payload : List Byte} {granted : Bool}

section

variable (h : RecvOk irs S delivered r)

include h

/-- D-SACKs do not matter. -/
theorem setDsack (d : Option (Nat × Nat)) : RecvOk irs S delivered { r with dsack := d } :=
  { h with }

/-- **The next segment.** -/
theorem inOrder (hpay : payload = slice S r.rcvOff payload.length) (granted : Bool) :
    RecvOk irs S delivered (r.inOrder payload granted) := by
  have hcopy : r.copyLen payload granted ≤ payload.length ∧
      r.recvBuf.length + r.copyLen payload granted ≤ RECV_BUF_SIZE := by
    have hbuf := h.buf
    unfold RecvSide.copyLen
    split <;> omega
  have htake : payload.take (r.copyLen payload granted) =
      slice S r.rcvOff (r.copyLen payload granted) :=
    (congrArg (List.take _) hpay).trans (take_slice _ _ _ _ hcopy.1)
  have hstart : Draining irs S delivered r.ooo { r with
      recvBuf := r.recvBuf ++ payload.take (r.copyLen payload granted)
      rcvNxt := add32 r.rcvNxt (r.copyLen payload granted)
      rcvOff := r.rcvOff + r.copyLen payload granted } := by
    refine ⟨?_, ?_, ?_, h.asc, h.entry, h.bytes, h.runs, fun x hx => ?_⟩
    · have happend := slice_append S 0 r.rcvOff (r.copyLen payload granted)
      rw [Nat.zero_add] at happend
      rw [htake, ← append_assoc, h.stream, happend]
    · rw [h.nxt, add32_seqAt]
    · rw [length_append, length_take]
      omega
    · exact (h.covers x).trans (and_iff_right (Nat.le_trans (Nat.le_add_right ..) hx))
  exact hstart.drain.1.trim

/-- The offset of a segment ahead. -/
theorem off_eq (hle : r.rcvOff ≤ off) (hlt : off < r.rcvOff + 2 ^ 32) :
    r.rcvOff + sub32 (seqAt (irs + 1) off) r.rcvNxt = off := by
  rw [h.nxt, sub32_seqAt hle hlt]
  omega

/-- **A covered segment is held.** -/
theorem held_of_covered {last : Nat} (hlt : off < last)
    (hcov : oooCovered r.oooRuns off last = true) : ∀ x, off ≤ x → x < last → Held r.ooo x :=
  fun x hlo hhi => ((h.covers x).mp ((h.runs.covered_iff hlt).mp hcov x hlo hhi)).2

section

variable (hpay : payload = slice S off payload.length) (hne : 0 < payload.length)
  (hoff : r.rcvOff ≤ off)

include hpay hne hoff

/-- A segment that is put into the queue. -/
theorem insert (hnew : ¬ oooCovered r.oooRuns off (off + payload.length) = true) :
    RecvOk irs S delivered { r.removeInside off (off + payload.length) with
      oooBytes := (r.removeInside off (off + payload.length)).oooBytes + payload.length
      ooo := insertKey off payload (r.removeInside off (off + payload.length)).ooo
      oooRuns := oooRunsAdd r.oooRuns off (off + payload.length) } := by
  have hlt : off < off + payload.length := by omega
  obtain ⟨hruns, hcovers⟩ := h.runs.add hlt
  unfold RecvSide.removeInside
  have hinside (e : Nat × List Byte) : RecvSide.inside off (off + payload.length) e = true ↔
      (off ≤ e.1 ∧ e.1 < off + payload.length) ∧ e.1 + e.2.length ≤ off + payload.length := by
    simp only [RecvSide.inside, Bool.and_eq_true, decide_eq_true_eq]
  generalize RecvSide.inside off (off + payload.length) = inside at hinside ⊢
  -- An entry of the same key that stays would hold the whole segment.
  have hfresh : ∀ e ∈ r.ooo.filter fun e => !inside e, e.1 ≠ off := by
    intro e he hkey
    obtain ⟨hmem, hout⟩ := mem_filter.mp he
    rw [Bool.not_eq_true', ← Bool.not_eq_true, hinside] at hout
    refine hnew ((h.runs.covered_iff hlt).mpr fun x hlo hhi => (h.covers x).mpr ⟨by omega, e, hmem, ?_⟩)
    omega
  have hperm := insertKey_perm (v := payload) (h.asc.filter _) hfresh
  have hsplit := filter_append_perm inside r.ooo
  have hsum := (hsplit.map fun e => e.2.length).sum_nat
  rw [map_append, sum_append, ← h.bytes] at hsum
  refine ⟨h.stream, h.nxt, h.buf, (h.asc.filter _).insertKey _ _, fun e he => ?_, ?_, hruns,
    fun x => (hcovers x).trans ?_⟩
  · rcases mem_cons.mp (hperm.mem_iff.mp he) with rfl | he
    · exact ⟨hpay, hne⟩
    · exact h.entry e (mem_of_mem_filter he)
  · rw [(hperm.map fun e => e.2.length).sum_nat, map_cons, sum_cons]
    dsimp only
    omega
  · rw [h.covers]
    have hheld : Held (insertKey off payload (r.ooo.filter fun e => !inside e)) x ↔
        (off ≤ x ∧ x < off + payload.length) ∨ Held (r.ooo.filter fun e => !inside e) x := by
      unfold Held
      simp only [hperm.mem_iff, exists_mem_cons_iff]
    dsimp only
    rw [hheld]
    constructor
    · rintro (hx | ⟨hx, e, he, hex⟩)
      · exact ⟨by omega, .inl hx⟩
      · by_cases hine : inside e = true
        · have := (hinside e).mp hine
          exact ⟨hx, .inl (by omega)⟩
        · rw [Bool.not_eq_true] at hine
          exact ⟨hx, .inr ⟨e, mem_filter.mpr ⟨he, by rw [hine]; rfl⟩, hex⟩⟩
    · rintro ⟨hx, hx' | ⟨e, he, hex⟩⟩
      · exact .inl hx'
      · exact .inr ⟨hx, e, mem_of_mem_filter he, hex⟩

/-- **A segment behind a gap.** -/
theorem ahead (hlt : off < r.rcvOff + 2 ^ 32) (granted : Bool) :
    RecvOk irs S delivered (r.ahead (seqAt (irs + 1) off) payload granted) := by
  unfold RecvSide.ahead
  dsimp only
  rw [h.off_eq hoff hlt]
  split
  · split
    · exact h.setDsack _
    · exact h
  · rename_i hnew
    split
    · exact h.insert hpay hne hoff hnew
    · exact h

end

theorem behind (seq : Nat) (payload : List Byte) :
    RecvOk irs S delivered (r.behind seq payload) := by
  unfold RecvSide.behind
  dsimp only
  generalize (if seqAfter (add32 seq payload.length) r.rcvNxt = true then r.rcvNxt
    else add32 seq payload.length) = hi
  split
  · exact h.setDsack _
  · exact h

/-- **Any segment** of the stream whose offset can be told from its number. -/
theorem dataQueue (hpay : payload = slice S off payload.length) (hnear : Near off r.rcvOff)
    (hlen : payload.length ≤ 65535) (granted : Bool) :
    RecvOk irs S delivered (r.dataQueue (seqAt (irs + 1) off) payload granted) := by
  unfold RecvSide.dataQueue RecvSide.partialPacket
  have hcond : (payload ≠ [] ∧ seqBefore (seqAt (irs + 1) off) r.rcvNxt = true ∧
      seqAfter (add32 (seqAt (irs + 1) off) payload.length) r.rcvNxt = true) ↔
      payload ≠ [] ∧ off < r.rcvOff ∧ r.rcvOff < off + payload.length := by
    rw [h.nxt, seqBefore_seqAt hnear]
    refine and_congr_right fun _ => and_congr_right fun hlt => ?_
    have hnear' : Near (off + payload.length) r.rcvOff := by
      unfold Near at hnear ⊢
      omega
    rw [add32_seqAt, seqAfter_seqAt hnear']
  by_cases hpart : payload ≠ [] ∧ off < r.rcvOff ∧ r.rcvOff < off + payload.length
  · -- It starts in what is there: the rest of it is next.
    rw [if_pos (hcond.mpr hpart)]
    obtain ⟨hne, hlt, hgt⟩ := hpart
    have hskip : sub32 r.rcvNxt (seqAt (irs + 1) off) = r.rcvOff - off := by
      rw [h.nxt]
      refine sub32_seqAt (Nat.le_of_lt hlt) ?_
      unfold Near at hnear
      omega
    have hrest : payload.drop (r.rcvOff - off) =
        slice S r.rcvOff (payload.drop (r.rcvOff - off)).length := by
      rw [length_drop]
      refine (congrArg (List.drop _) hpay).trans ?_
      rw [drop_slice, Nat.add_sub_cancel' (Nat.le_of_lt hlt)]
    have hne' : payload.drop (r.rcvOff - off) ≠ [] := by
      rw [← length_pos_iff, length_drop]
      omega
    rw [hskip]
    dsimp only
    rw [if_neg hne', if_pos (by split <;> rfl)]
    split
    · exact (h.setDsack (some (seqAt (irs + 1) off, r.rcvNxt))).inOrder hrest granted
    · exact h.inOrder hrest granted
  · rw [if_neg (mt hcond.mp hpart)]
    dsimp only
    split
    · exact h
    rename_i hne
    have hpos := length_pos_iff.mpr hne
    simp only [h.nxt, seqAt_eq_iff hnear, seqAfter_seqAt hnear]
    split
    · rename_i heq
      subst heq
      exact h.inOrder hpay granted
    · split
      · rename_i hgt
        refine h.ahead hpay hpos (Nat.le_of_lt hgt) ?_ granted
        unfold Near at hnear
        omega
      · exact h.behind _ payload

/-- **`recv`.** -/
theorem recv (n : Nat) : RecvOk irs S (delivered ++ (r.recv n).1) (r.recv n).2 := by
  refine { h with stream := ?_, buf := ?_ }
  · show (delivered ++ r.recvBuf.take _) ++ r.recvBuf.drop _ = _
    rw [append_assoc, take_append_drop]
    exact h.stream
  · show (r.recvBuf.drop _).length ≤ _
    rw [length_drop]
    exact Nat.le_trans (Nat.sub_le ..) h.buf

end

end RecvOk

/-! ## Runs -/

/-- The receive side with what was read from it. -/
structure RecvState where
  r : RecvSide
  delivered : List Byte

/-- A segment with the bytes at `off`, or a read of at most `n` bytes. -/
inductive RecvCall
  | segment (off : Nat) (payload : List Byte) (granted : Bool)
  | recv (n : Nat)

namespace RecvState

/-- One call; a segment has the number of its offset. -/
def step (irs : Nat) (s : RecvState) : RecvCall → RecvState
  | .segment off payload granted =>
    ⟨s.r.dataQueue (seqAt (irs + 1) off) payload granted, s.delivered⟩
  | .recv n => ⟨(s.r.recv n).2, s.delivered ++ (s.r.recv n).1⟩

/-- The segment has bytes of the stream, and its number tells its offset. -/
def Fits (S : Nat → Byte) (s : RecvState) : RecvCall → Prop
  | .segment off payload _ => payload = slice S off payload.length ∧ Near off s.r.rcvOff ∧
      payload.length ≤ 65535
  | .recv _ => True

/-- One call whose segment fits. -/
def Step (irs : Nat) (S : Nat → Byte) (s : RecvState) (c : RecvCall) (s' : RecvState) : Prop :=
  s.Fits S c ∧ s' = s.step irs c

end RecvState

/-- The receive side right after the handshake. -/
structure RecvSide.Fresh (irs : Nat) (r : RecvSide) : Prop where
  nxt : r.rcvNxt = seqAt (irs + 1) 0
  off : r.rcvOff = 0
  buf : r.recvBuf = []
  ooo : r.ooo = []
  bytes : r.oooBytes = 0
  runs : r.oooRuns = []

theorem RecvSide.Fresh.ok (h : r.Fresh irs) (S : Nat → Byte) : RecvOk irs S [] r where
  stream := by rw [h.buf, h.off]; rfl
  nxt := by rw [h.off]; exact h.nxt
  buf := by rw [h.buf]; exact Nat.zero_le _
  asc := by rw [h.ooo]; exact .nil
  entry := by rw [h.ooo]; simp
  bytes := by rw [h.bytes, h.ooo]; rfl
  runs := by rw [h.runs]; exact .nil
  covers x := by
    rw [h.runs, h.ooo]
    simp [Covers, Held]

theorem RecvState.ok_run {calls : List RecvCall} {s s' : RecvState}
    (h : RecvOk irs S s.delivered s.r) (hrun : Run (RecvState.Step irs S) s calls s') :
    RecvOk irs S s'.delivered s'.r := by
  refine Run.invariant (I := fun s => RecvOk irs S s.delivered s.r) (fun s c s' hs hstep => ?_) hrun h
  obtain ⟨hfits, rfl⟩ := hstep
  cases c with
  | segment off payload granted => exact hs.dataQueue hfits.1 hfits.2.1 hfits.2.2 granted
  | recv n => exact hs.recv n

/-- **The receiver delivers the stream.** After any segments with bytes of the stream `S` and
any reads: what was read and what waits is the stream up to `rcvOff`, `rcvNxt` is the number of
that offset, every entry of the queue has bytes of the stream at its key, the runs are apart
and cover what the entries hold from `rcvOff` on, `oooBytes` is their total, and a segment that
counts as covered is held whole. -/
theorem tcp_stream {calls : List RecvCall} {r₀ : RecvSide} {s : RecvState} (hfresh : r₀.Fresh irs)
    (hrun : Run (RecvState.Step irs S) ⟨r₀, []⟩ calls s) :
    s.delivered ++ s.r.recvBuf = slice S 0 s.r.rcvOff ∧ s.r.rcvNxt = seqAt (irs + 1) s.r.rcvOff ∧
      (∀ e ∈ s.r.ooo, e.2 = slice S e.1 e.2.length) ∧
      RunsOk s.r.oooRuns ∧
      (∀ x, Covers s.r.oooRuns x ↔ s.r.rcvOff ≤ x ∧ Held s.r.ooo x) ∧
      s.r.oooBytes = (s.r.ooo.map fun e => e.2.length).sum ∧
      (∀ off len, 0 < len → oooCovered s.r.oooRuns off (off + len) = true →
        ∀ x, off ≤ x → x < off + len → Held s.r.ooo x) := by
  have h := RecvState.ok_run (hfresh.ok S) hrun
  exact ⟨h.stream, h.nxt, fun e he => (h.entry e he).1, h.runs, h.covers, h.bytes,
    fun off len hlen hcov => h.held_of_covered (by omega) hcov⟩

/-- A gap that is filled: the second segment comes first. -/
theorem tcp_stream_gap : ∃ s : RecvState,
    Run (RecvState.Step 0 fun x => BitVec.ofNat 8 x)
      ⟨⟨1, 0, 1, 65535, 536, 65535, true, true, [], [], 0, [], none⟩, []⟩
      [.segment 2 [2, 3] true, .segment 0 [0, 1] true, .recv 3] s ∧
    s.delivered ++ s.r.recvBuf = [0, 1, 2, 3] := by
  have hrun : Run (RecvState.Step 0 fun x => BitVec.ofNat 8 x)
      ⟨⟨1, 0, 1, 65535, 536, 65535, true, true, [], [], 0, [], none⟩, []⟩
      [.segment 2 [2, 3] true, .segment 0 [0, 1] true, .recv 3] _ :=
    .cons ⟨⟨rfl, ⟨by decide, by decide⟩, by decide⟩, rfl⟩
      (.cons ⟨⟨rfl, ⟨by decide, by decide⟩, by decide⟩, rfl⟩ (.cons ⟨trivial, rfl⟩ (.nil _)))
  refine ⟨_, hrun, ?_⟩
  have hstream := (tcp_stream ⟨rfl, rfl, rfl, rfl, rfl, rfl⟩ hrun).1
  rw [hstream]
  decide

end NopeekOS.Net
