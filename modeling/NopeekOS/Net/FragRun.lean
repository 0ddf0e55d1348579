import NopeekOS.Lib.Run
import NopeekOS.Net.FragInv

/-!
# Reassembly over whole runs

The state is the reassembler with, for every key, the fragments that were accepted since
the queue of that key was last started. After any fragments and expiries every queue holds
exactly these (`Ok.step`). A datagram that comes out is therefore tiled by them, under
the header of the one at offset 0 with the ECN field, the length, the flags and the
checksum set (`Ok.complete`).
-/

namespace NopeekOS.Net

open Lib Function List

/-! ## The header -/

/-- The header of the datagram: fragment 0's with the fields of the whole set, and the
checksum over it. -/
def wholeHeader (head : List Byte) (ecn : Byte) (len : Nat) : List Byte :=
  let h := head.set 1 (byteAt head 1 ||| ecn)
  let h := (h.set 2 (beBytes len).1).set 3 (beBytes len).2
  let h := (((h.set 6 0).set 7 0).set 10 0).set 11 0
  let c := not16 (fold (sum h))
  (h.set 10 (beBytes c).1).set 11 (beBytes c).2

/-- All the writes are in the header. -/
theorem Queue.datagram_eq (q : Queue) {head : List Byte} (hlen : 20 ≤ head.length) (ecn : Byte) :
    q.datagram head ecn =
      wholeHeader head ecn (head.length + q.len) ++ q.frags.flatMap Prod.snd := by
  have hget : byteAt (head ++ q.frags.flatMap Prod.snd) 1 = byteAt head 1 := by
    unfold byteAt
    rw [getD_eq_getElem?_getD, getD_eq_getElem?_getD,
      getElem?_append_left (by omega)]
  unfold datagram wholeHeader
  dsimp only
  rw [hget]
  simp (disch := (try simp only [length_set]); omega) only [set_append_left]
  rw [take_left' (by simp)]

/-- The header of a whole datagram: it has fragment 0's bytes except where the ECN field,
the length, the flags and the checksum are, and a receiver's check passes. -/
structure WholeHeader (head : List Byte) (ecn : Byte) (len : Nat) (h : List Byte) : Prop where
  length : h.length = head.length
  ecn : byteAt h 1 = byteAt head 1 ||| ecn
  len : field16 h 2 = len
  flags : field16 h 6 = 0
  same : ∀ i, i ≠ 1 → i ≠ 2 → i ≠ 3 → i ≠ 6 → i ≠ 7 → i ≠ 10 → i ≠ 11 → byteAt h i = byteAt head i
  check : fold (sum h) = 0xFFFF

theorem byteAt_set (l : List Byte) (i j : Nat) (b : Byte) :
    byteAt (l.set i b) j = if i = j ∧ i < l.length then b else byteAt l j := by
  unfold byteAt
  rw [getD_eq_getElem?_getD, getD_eq_getElem?_getD, getElem?_set]
  split
  · rename_i heq
    subst heq
    by_cases hlt : i < l.length
    · simp [hlt]
    · simp [hlt]
  · rename_i hne
    simp [hne]

/-- The fields that are set before the checksum is taken. -/
def headerFields (head : List Byte) (ecn : Byte) (len : Nat) : List Byte :=
  ((((head.set 1 (byteAt head 1 ||| ecn)).set 2 (beBytes len).1).set 3 (beBytes len).2).set 6
    0).set 7 0

/-- The checksum of a header. -/
def checkOf (h : List Byte) : Nat := not16 (fold (sum ((h.set 10 0).set 11 0)))

theorem wholeHeader_eq (head : List Byte) (ecn : Byte) (len : Nat) :
    wholeHeader head ecn len = ((headerFields head ecn len).set 10
      (beBytes (checkOf (headerFields head ecn len))).1).set 11
      (beBytes (checkOf (headerFields head ecn len))).2 := by
  unfold wholeHeader checkOf headerFields
  dsimp only
  generalize ((((head.set 1 (byteAt head 1 ||| ecn)).set 2 (beBytes len).1).set 3
    (beBytes len).2).set 6 0).set 7 0 = h
  generalize beBytes (not16 (fold (sum ((h.set 10 0).set 11 0)))) = c
  rw [set_comm _ _ (by decide : (11 : Nat) ≠ 10), set_set, set_set]

/-- A header with its checksum in place passes a receiver's check. -/
theorem fold_sum_check {h : List Byte} (hlen : 16 ≤ h.length) (hmax : h.length ≤ 60) :
    fold (sum ((h.set 10 (beBytes (checkOf h)).1).set 11 (beBytes (checkOf h)).2)) = 0xFFFF := by
  have hsum := sum_lt ((h.set 10 0).set 11 0)
  rw [length_set, length_set] at hsum
  have hcheck : checkOf h < 65536 := Nat.lt_succ_of_le (Nat.sub_le _ _)
  rw [sum_set_check hlen, be16_beBytes hcheck]
  exact fold_add_complement (by omega)

theorem wholeHeader_spec {head : List Byte} (hlen : 20 ≤ head.length) (hmax : head.length ≤ 60)
    (ecn : Byte) {len : Nat} (hlen' : len < 65536) :
    WholeHeader head ecn len (wholeHeader head ecn len) := by
  have hfields : (headerFields head ecn len).length = head.length := by simp [headerFields]
  have h1 : 1 < head.length := by omega
  have h2 : 2 < head.length := by omega
  have h3 : 3 < head.length := by omega
  have h6 : 6 < head.length := by omega
  have h7 : 7 < head.length := by omega
  rw [wholeHeader_eq]
  refine ⟨by simp [hfields], ?_, ?_, ?_, ?_, fold_sum_check (by omega) (by omega)⟩
  · simp [headerFields, byteAt_set, h1]
  · refine Eq.trans ?_ (be16_beBytes hlen')
    simp [headerFields, field16, byteAt_set, h2, h3]
  · simp [headerFields, field16, byteAt_set, h6, h7, be16]
  · intro i i1 i2 i3 i6 i7 i10 i11
    simp [headerFields, byteAt_set, i1.symm, i2.symm, i3.symm, i6.symm, i7.symm, i10.symm, i11.symm]

/-! ## Steps -/

namespace Defrag

variable {d : Defrag} {log : Nat → List Fragment}

/-- The fragments a queue has when a fragment arrives at it. -/
def logAt (d : Defrag) (log : Nat → List Fragment) (f : Fragment) (now : Nat) : List Fragment :=
  if d.startsOver f now then [] else log f.key

section

variable (h : DefragInv d log) (hroom : d.mem ≤ HIGH_THRESH) (f : Fragment) (now : Nat)

include h hroom f now

/-- With room, the fragment goes to the queue it meets. -/
theorem input_eq :
    d.input f.ip now = (d.arrive f.ip now).fragQueue f.key (d.queueAt f now) f.ip := by
  obtain ⟨-, hget⟩ := arrive_spec h.asc h.mem f now
  unfold input
  rw [if_neg (Nat.not_lt.mpr hroom), show keyOf f.ip = f.key from rfl, hget]

/-- **One fragment**: the other queues stay, and its own queue does what the answer
says. -/
theorem input_spec : Touches d (d.input f.ip now).2 f.key ∧
      Took (d.input f.ip now).2 f (d.logAt log f now) (d.input f.ip now).1 := by
  obtain ⟨htouch, hget⟩ := arrive_spec h.asc h.mem f now
  have hholds : (d.queueAt f now).Holds (d.logAt log f now) := by
    unfold logAt queueAt
    split
    · exact Queue.holds_fresh ..
    rename_i hold
    cases hq : getKey f.key d.queues with
    | none => exact absurd (by unfold startsOver; rw [hq]) hold
    | some q => exact (h.holds _ q hq).setRid _
  obtain ⟨htouch', htook⟩ := fragQueue_spec htouch.asc htouch.mem hget hholds
  rw [input_eq h hroom]
  exact ⟨htouch.trans htouch', htook⟩

end

/-- Without room nothing changes but a count. -/
theorem input_full (hfull : HIGH_THRESH < d.mem) (f : Fragment) (now : Nat) :
    d.input f.ip now = (.dropped, { d with fails := d.fails + 1 }) := if_pos hfull

theorem expire_inv (h : DefragInv d log) (now : Nat) : DefragInv (d.expire now).2 log := by
  refine ⟨h.asc.filter _, fun k q hget => ?_, ?_⟩
  · have hmem := (getKey_eq_some (h.asc.filter _)).mp hget
    exact h.holds k q ((getKey_eq_some h.asc).mpr (mem_filter.mp hmem).1)
  · -- The queues that go take their memory with them.
    have hperm := filter_append_perm (fun e : Nat × Queue => decide (e.2.expires ≤ now)) d.queues
    have hsum := (hperm.map fun e => e.2.mem).sum_nat
    rw [map_append, sum_append, ← h.mem] at hsum
    show d.mem - ((d.due now).map fun e => e.2.mem).sum = _
    rw [← hsum]
    exact Nat.add_sub_cancel_left ..

end Defrag

/-- The reassembler with the fragments accepted for every key since its queue was last
started. -/
structure FragState where
  d : Defrag
  log : Nat → List Fragment

/-- The calls. -/
inductive FragCall
  | input (f : Fragment) (now : Nat)
  | expire (now : Nat)

namespace FragState

/-- Nothing yet. -/
def new : FragState := ⟨Defrag.new, fun _ => []⟩

/-- The log after a fragment: it is in unless it was dropped. -/
def logged (s : FragState) (f : Fragment) (now : Nat) : List Fragment :=
  if HIGH_THRESH < s.d.mem then s.log f.key
  else match (s.d.input f.ip now).1 with
    | .dropped => s.d.logAt s.log f now
    | _ => s.d.logAt s.log f now ++ [f]

/-- One call. -/
def step (s : FragState) : FragCall → FragState
  | .input f now => ⟨(s.d.input f.ip now).2, update s.log f.key (s.logged f now)⟩
  | .expire now => ⟨(s.d.expire now).2, s.log⟩

/-- The invariant of runs. -/
structure Ok (s : FragState) : Prop where
  inv : DefragInv s.d s.log
  key : ∀ k, ∀ f ∈ s.log k, f.key = k

theorem ok_new : new.Ok := by
  refine ⟨⟨.nil, fun k q hget => ?_, rfl⟩, by simp [new]⟩
  cases hget

theorem logAt_key {s : FragState} (h : s.Ok) (f : Fragment) (now : Nat) :
    ∀ g ∈ s.d.logAt s.log f now ++ [f], g.key = f.key := by
  refine forall_mem_append.mpr ⟨?_, forall_mem_singleton.mpr rfl⟩
  unfold Defrag.logAt
  split
  · exact nofun
  · exact h.key _

/-- **One call** keeps the invariant. -/
theorem Ok.step {s : FragState} (h : s.Ok) (call : FragCall) : (s.step call).Ok := by
  cases call with
  | expire now => exact ⟨Defrag.expire_inv h.inv now, h.key⟩
  | input f now =>
    show Ok ⟨(s.d.input f.ip now).2, update s.log f.key (s.logged f now)⟩
    by_cases hfull : HIGH_THRESH < s.d.mem
    · -- The log stays as it is.
      have hlog : s.logged f now = s.log f.key := if_pos hfull
      rw [hlog, update_eq_self, Defrag.input_full hfull]
      exact ⟨{ h.inv with }, h.key⟩
    · obtain ⟨htouch, htook⟩ := Defrag.input_spec h.inv (Nat.not_lt.mp hfull) f now
      have hlog : s.logged f now = _ := if_neg hfull
      have hkeys := logAt_key h f now
      refine ⟨⟨htouch.asc, fun k q hget => ?_, htouch.mem⟩, fun k g hg => ?_⟩
      · by_cases hk : k = f.key
        · subst hk
          show q.Holds (update s.log f.key (s.logged f now) f.key)
          rw [update_self, hlog]
          -- The queue is there: the fragment was dropped from it, or is in it.
          generalize s.d.input f.ip now = r at htook hget ⊢
          obtain ⟨r, d'⟩ := r
          cases htook with
          | gone hnone => exact absurd (hnone.symm.trans hget) (by simp)
          | kept q' hget' hq' => exact Option.some.inj (hget'.symm.trans hget) ▸ hq'
          | added q' hget' hq' => exact Option.some.inj (hget'.symm.trans hget) ▸ hq'
          | whole q' head ecn hnone => exact absurd (hnone.symm.trans hget) (by simp)
        · show q.Holds (update s.log f.key (s.logged f now) k)
          rw [update_of_ne hk]
          exact h.inv.holds k q ((htouch.other k hk).symm.trans hget)
      · dsimp only at hg
        by_cases hk : k = f.key
        · subst hk
          rw [update_self, hlog] at hg
          refine hkeys g ?_
          cases hr : (s.d.input f.ip now).1 <;> rw [hr] at hg
          · exact hg
          · exact hg
          · exact mem_append_left _ hg
        · rw [update_of_ne hk] at hg
          exact h.key k g hg

/-! ## What comes out -/

/-- The datagram `out` is tiled by the fragments `L`, under the header of the one at
offset 0. -/
def Reassembles (L : List Fragment) (out : List Byte) : Prop :=
  ∃ ps len f₀ ecn header, ps.Perm (L.map Fragment.piece) ∧ Tiles 0 len ps ∧
    f₀ ∈ L ∧ offsetOf f₀.ip = 0 ∧ ecnOf (Queue.ecnBits L) = some ecn ∧
    WholeHeader f₀.head ecn (f₀.head.length + len) header ∧ out = header ++ ps.flatMap Prod.snd

/-- **What comes out whole.** -/
theorem Ok.complete {s : FragState} (h : s.Ok) {f : Fragment} {now : Nat} {out : List Byte}
    (hout : (s.d.input f.ip now).1 = .complete out) :
    Reassembles (s.d.logAt s.log f now ++ [f]) out ∧
      ∀ g ∈ s.d.logAt s.log f now ++ [f], g.key = f.key := by
  refine ⟨?_, logAt_key h f now⟩
  by_cases hfull : HIGH_THRESH < s.d.mem
  · rw [Defrag.input_full hfull] at hout
    cases hout
  obtain ⟨-, htook⟩ := Defrag.input_spec h.inv (Nat.not_lt.mp hfull) f now
  rw [hout] at htook
  cases htook with
  | whole q head ecn hnone hq hwhole hhead hecn hlen =>
    obtain ⟨f₀, hf₀, hzero, rfl⟩ := hq.head head hhead
    have hihl := f₀.ihl
    have hmax : ihlOf f₀.ip ≤ 60 := by
      unfold ihlOf
      omega
    have hlength := f₀.length_head
    refine ⟨q.frags, q.len, f₀, ecn, _, hq.frags, hq.tiles hwhole, hf₀, hzero, hq.ecn ▸ hecn,
      wholeHeader_spec (by omega) (by omega) ecn (by omega), q.datagram_eq (by omega) ecn⟩

end FragState

end NopeekOS.Net
