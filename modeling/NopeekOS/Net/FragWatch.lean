import NopeekOS.Net.FragDeliver

/-!
# Delivering a whole datagram

The fragments of a datagram arrive in any order, with duplicates and among the fragments of
other datagrams. The pieces that came are kept beside the state (`Watch.came`); as long as
the fragments keep within the time, memory and distance limits, the queue holds exactly the
pieces since the datagram last came out (`Watch.Ok`), and the arrival of the last missing one
returns it (`Watch.Ok.own`). After that its queue is gone, and further duplicates start a new
one.
-/

namespace NopeekOS.Net

open Lib Defrag List

/-! ## The peers -/

namespace Defrag

variable {d : Defrag} {source other : Nat} {now : Nat}

theorem fragQueue_peers (d : Defrag) (key : Nat) (q : Queue) (ip : List Byte) :
    (d.fragQueue key q ip).2.peers = d.peers := by
  have hkill : (d.kill key).peers = d.peers := by
    unfold kill
    split <;> rfl
  have hreasm (d : Defrag) (q : Queue) : (d.reasm key q).2.peers = d.peers := by
    unfold reasm
    dsimp only
    split
    · rfl
    · split <;> rfl
  unfold fragQueue
  dsimp only
  split
  · exact hkill
  split
  · exact hkill
  split
  · split
    · rfl
    · exact hkill
  · split
    · exact hreasm _ _
    · rfl

theorem arrive_peers (d : Defrag) (f : Fragment) (now : Nat) : (d.arrive f.ip now).peers =
      insertKey (keySource f.key) (d.ridOf f now, now) (d.prunePeers (keySource f.key) now) := by
  have htoo (d : Defrag) (key rid : Nat) : (d.tooFar key rid now).peers = d.peers := by
    unfold tooFar
    split
    · rfl
    · split <;> rfl
  have hfind : ((d.findQueue f.key now).countPeer (keySource f.key) now).peers =
      (d.countPeer (keySource f.key) now).peers := by
    unfold findQueue
    split <;> rfl
  exact (htoo _ _ _).trans hfind

theorem ridOf_lt (d : Defrag) (f : Fragment) (now : Nat) : d.ridOf f now < 2 ^ 32 := by
  unfold ridOf nextRid
  split <;> exact Nat.mod_lt _ (by decide)

/-- The peers after a fragment that there is room for. -/
theorem input_peers {log : Nat → List Fragment} (h : DefragInv d log) (hroom : d.mem ≤ HIGH_THRESH)
    (f : Fragment) (now : Nat) : (d.input f.ip now).2.peers =
      insertKey (keySource f.key) (d.ridOf f now, now) (d.prunePeers (keySource f.key) now) := by
  rw [input_eq h hroom, fragQueue_peers, arrive_peers]

theorem prunePeers_ascending (hasc : Ascending d.peers) (source now : Nat) :
    Ascending (d.prunePeers source now) := by
  unfold prunePeers
  split
  · exact hasc.filter _
  · exact hasc

/-- A peer that was used lately is not pruned. -/
theorem getKey_prunePeers (hasc : Ascending d.peers) {rid t : Nat}
    (hget : getKey source d.peers = some (rid, t)) (hlate : now < t + FRAG_TIME) (other : Nat) :
    getKey source (d.prunePeers other now) = some (rid, t) := by
  unfold prunePeers
  split
  · refine (getKey_eq_some (hasc.filter _)).mpr (mem_filter.mpr ⟨?_, ?_⟩)
    · exact (getKey_eq_some hasc).mp hget
    · have htime : FRAG_TIME = 3000 := rfl
      exact decide_eq_true (show now - t < FRAG_TIME by omega)
  · exact hget

end Defrag

namespace FragState

/-- The peers stay a map. -/
theorem Ok.peers {s : FragState} (h : s.Ok) (hasc : Ascending s.d.peers) (call : FragCall) :
    Ascending (s.step call).d.peers := by
  cases call with
  | expire now => exact hasc
  | input f now =>
    show Ascending (s.d.input f.ip now).2.peers
    by_cases hfull : HIGH_THRESH < s.d.mem
    · rw [input_full hfull]
      exact hasc
    · rw [input_peers h.inv (Nat.not_lt.mp hfull)]
      exact (prunePeers_ascending hasc _ _).insertKey _ _

end FragState

/-! ## Watching a datagram arrive -/

/-- The reassembler with the pieces of a datagram that came, the newest first, how many
fragments of its source came since the last of them, when the first of those came that its
queue has, the time, and what came out whole under its key, the newest first. -/
structure Watch where
  s : FragState
  came : List (Nat × List Byte)
  gap : Nat
  start : Nat
  clock : Nat
  outs : List (List Byte)

namespace Cut

variable {dg : Datagram} (cut : Cut dg)

/-- How often the pieces were all there, and those since they last were. -/
def rounds : List (Nat × List Byte) → Nat × List (Nat × List Byte)
  | [] => (0, [])
  | p :: came =>
    if ∀ r ∈ cut.pieces, r ∈ p :: (rounds came).2 then ((rounds came).1 + 1, [])
    else ((rounds came).1, p :: (rounds came).2)

/-- The pieces since all were there. -/
def since (came : List (Nat × List Byte)) : List (Nat × List Byte) := (cut.rounds came).2

/-- The calls that a datagram arrives among: its own fragments within the limits, those of
other keys, and expiries. -/
inductive Deliver : Watch → FragCall → Watch → Prop
  | own {w : Watch} (f : Fragment) (p : Nat × List Byte) (now : Nat) (hp : p ∈ cut.pieces)
      (hf : FragmentOf dg p f) (hclock : w.clock ≤ now) (hroom : w.s.d.mem ≤ HIGH_THRESH)
      (hgap : cut.since w.came ≠ [] → w.gap < MAX_DIST)
      (htime : cut.since w.came ≠ [] → now < w.start + FRAG_TIME) :
      Deliver w (.input f now) ⟨w.s.step (.input f now), p :: w.came, 0,
        if cut.since w.came = [] then now else w.start, now,
        match (w.s.d.input f.ip now).1 with
        | .complete out => out :: w.outs
        | _ => w.outs⟩
  | other {w : Watch} (f : Fragment) (now : Nat) (hkey : f.key ≠ dg.key) (hclock : w.clock ≤ now)
      (htime : cut.since w.came ≠ [] → now < w.start + FRAG_TIME) :
      Deliver w (.input f now) ⟨w.s.step (.input f now), w.came,
        if keySource f.key = keySource dg.key then w.gap + 1 else w.gap, w.start, now, w.outs⟩
  | expire {w : Watch} (now : Nat) (hclock : w.clock ≤ now)
      (htime : cut.since w.came ≠ [] → now < w.start + FRAG_TIME) :
      Deliver w (.expire now) ⟨w.s.step (.expire now), w.came, w.gap, w.start, now, w.outs⟩

/-- All pieces, once more than not at all and not all of them a second time after that:
one round. -/
theorem rounds_once {came : List (Nat × List Byte)} (hall : ∀ r ∈ cut.pieces, r ∈ came)
    (honce : ∀ m l, came = m ++ l → (∀ r ∈ cut.pieces, r ∈ l) → ¬ ∀ r ∈ cut.pieces, r ∈ m) :
    (cut.rounds came).1 = 1 := by
  have hcases : ∀ came, (cut.rounds came = (0, came) ∧ ¬ ∀ r ∈ cut.pieces, r ∈ came) ∨
      ((cut.rounds came).1 = 1 ∧ ∃ l, came = (cut.rounds came).2 ++ l ∧ ∀ r ∈ cut.pieces, r ∈ l) ∨
      ∃ m l, came = m ++ l ∧ (∀ r ∈ cut.pieces, r ∈ l) ∧ ∀ r ∈ cut.pieces, r ∈ m := by
    intro came
    induction came with
    | nil =>
      obtain ⟨p, hp, -⟩ := cut.exists_first
      exact .inl ⟨rfl, fun hall => not_mem_nil (hall p hp)⟩
    | cons p came ih =>
      rcases ih with ⟨hzero, -⟩ | ⟨hone, l, hsplit, hl⟩ | ⟨m, l, hsplit, hl, hm⟩
      · by_cases hnow : ∀ r ∈ cut.pieces, r ∈ p :: came
        · -- The first time all are there.
          have hstep : cut.rounds (p :: came) = (1, []) := by
            rw [rounds, hzero, if_pos hnow]
          exact .inr (.inl ⟨by rw [hstep], p :: came, by rw [hstep]; rfl, hnow⟩)
        · exact .inl ⟨by rw [rounds, hzero, if_neg hnow], hnow⟩
      · by_cases hnow : ∀ r ∈ cut.pieces, r ∈ p :: (cut.rounds came).2
        · exact .inr (.inr ⟨p :: (cut.rounds came).2, l, by rw [cons_append, ← hsplit], hl, hnow⟩)
        have hstep : cut.rounds (p :: came) = ((cut.rounds came).1, p :: (cut.rounds came).2) := by
          rw [rounds, if_neg hnow]
        exact .inr (.inl ⟨by rw [hstep]; exact hone, l,
          by rw [hstep, cons_append, ← hsplit], hl⟩)
      · exact .inr (.inr ⟨p :: m, l, by rw [hsplit]; rfl, hl, fun r hr => .tail _ (hm r hr)⟩)
  rcases hcases came with ⟨-, hnot⟩ | ⟨hone, -⟩ | ⟨m, l, hsplit, hl, hm⟩
  · exact absurd hall hnot
  · exact hone
  · exact absurd hm (honce m l hsplit hl)

end Cut

namespace Watch

variable {dg : Datagram} {cut : Cut dg}

/-- The queue `q` of a datagram whose pieces `got` have come since `start`, with its source
counted no further than `gap`. -/
structure Waits (cut : Cut dg) (d : Defrag) (got : List (Nat × List Byte)) (gap start : Nat)
    (q : Queue) (L : List Fragment) : Prop where
  get : getKey dg.key d.queues = some q
  holds : q.Holds L
  collecting : Collecting cut q L got
  expires : q.expires = start + FRAG_TIME
  peer : ∃ g t, g ≤ gap ∧ start ≤ t ∧ getKey (keySource dg.key) d.peers = some (add32 q.rid g, t)

/-- The invariant of watched runs. -/
structure Ok (cut : Cut dg) (w : Watch) : Prop where
  ok : w.s.Ok
  peers : Ascending w.s.d.peers
  idle : cut.since w.came = [] → getKey dg.key w.s.d.queues = none
  time : cut.since w.came ≠ [] → w.start ≤ w.clock
  busy : cut.since w.came ≠ [] → ∃ q L, Waits cut w.s.d (cut.since w.came) w.gap w.start q L
  outs : w.outs = replicate (cut.rounds w.came).1 dg.bytes

theorem rounds_cons (cut : Cut dg) (p : Nat × List Byte) (came : List (Nat × List Byte)) :
    cut.rounds (p :: came) = if ∀ r ∈ cut.pieces, r ∈ p :: cut.since came then
      ((cut.rounds came).1 + 1, []) else ((cut.rounds came).1, p :: cut.since came) := rfl

theorem since_missing (cut : Cut dg) (came : List (Nat × List Byte)) :
    ¬ ∀ r ∈ cut.pieces, r ∈ cut.since came := by
  obtain ⟨p₀, hp₀, -⟩ := cut.exists_first
  cases came with
  | nil => exact fun hall => not_mem_nil (hall p₀ hp₀)
  | cons p came =>
    unfold Cut.since Cut.rounds
    split
    · exact fun hall => not_mem_nil (hall p₀ hp₀)
    · rename_i hmiss
      exact hmiss

variable {w : Watch} {f : Fragment} {p : Nat × List Byte} {now : Nat}

theorem add32_zero {rid : Nat} (h : rid < 2 ^ 32) : add32 rid 0 = rid := Nat.mod_eq_of_lt h

theorem sub32_add32_le (rid g : Nat) : sub32 (add32 (add32 rid g) 1) rid ≤ g + 1 := by
  unfold sub32 add32
  omega

section

variable (h : w.Ok cut) (htime : cut.since w.came ≠ [] → now < w.start + FRAG_TIME)

include h htime

/-- **The queue an own fragment meets** has the pieces so far. -/
theorem Ok.meets (hf : FragmentOf dg p f) (hgap : cut.since w.came ≠ [] → w.gap < MAX_DIST) :
    ∃ L, (w.s.d.queueAt f now).Holds L ∧ Collecting cut (w.s.d.queueAt f now) L (cut.since w.came) ∧
      (w.s.d.queueAt f now).rid = w.s.d.ridOf f now ∧
      (w.s.d.queueAt f now).expires =
        (if cut.since w.came = [] then now else w.start) + FRAG_TIME := by
  by_cases hidle : cut.since w.came = []
  · -- The first piece starts the queue.
    have hstart : w.s.d.startsOver f now = true := by
      unfold startsOver
      rw [hf.key, h.idle hidle]
    unfold queueAt
    rw [if_pos hstart, hidle, if_pos rfl]
    exact ⟨[], Queue.holds_fresh .., Collecting.fresh .., rfl, rfl⟩
  · obtain ⟨q, L, hq⟩ := h.busy hidle
    obtain ⟨g, t, hg, ht, hpeer⟩ := hq.peer
    have hlate := htime hidle
    have hrid : w.s.d.nextRid (keySource f.key) now = add32 (add32 q.rid g) 1 := by
      unfold nextRid
      rw [hf.key, getKey_prunePeers h.peers hpeer (by omega)]
    -- It is not too far.
    have hnear : w.s.d.startsOver f now = false := by
      have hdist := sub32_add32_le q.rid g
      have hmax := hgap hidle
      unfold startsOver
      rw [hrid, hf.key, hq.get]
      dsimp only
      rw [decide_eq_false (by omega), Bool.and_false]
    have hget : (getKey f.key w.s.d.queues).getD (Queue.fresh 0 0) = q := by
      rw [hf.key, hq.get]
      rfl
    unfold queueAt
    rw [hnear, if_neg Bool.false_ne_true, if_neg hidle, hget]
    exact ⟨L, hq.holds.setRid _, { hq.collecting with }, rfl, hq.expires⟩

variable (hclock : w.clock ≤ now)

include hclock

/-- **A fragment of the datagram.** -/
theorem Ok.own (hp : p ∈ cut.pieces) (hf : FragmentOf dg p f) (hroom : w.s.d.mem ≤ HIGH_THRESH)
    (hgap : cut.since w.came ≠ [] → w.gap < MAX_DIST) :
    Ok cut ⟨w.s.step (.input f now), p :: w.came, 0,
      if cut.since w.came = [] then now else w.start, now,
      match (w.s.d.input f.ip now).1 with
      | .complete out => out :: w.outs
      | _ => w.outs⟩ := by
  obtain ⟨L, hholds, hcol, hrid, hexp⟩ := h.meets htime hf hgap
  obtain ⟨htouch, -⟩ := arrive_spec h.ok.inv.asc h.ok.inv.mem f now
  have hinput : w.s.d.input f.ip now =
      (w.s.d.arrive f.ip now).fragQueue dg.key (w.s.d.queueAt f now) f.ip := by
    rw [input_eq h.ok.inv hroom, hf.key]
  have hpeers := input_peers h.ok.inv hroom f now
  have hprune := prunePeers_ascending h.peers (keySource f.key) now
  have hgot := hcol.fragQueue hholds htouch.asc hp hf (since_missing cut w.came)
  rw [← hinput] at hgot
  have hasc := h.ok.peers h.peers (.input f now)
  by_cases hall : ∀ r ∈ cut.pieces, r ∈ p :: cut.since w.came
  · -- The last missing piece.
    rw [if_pos hall] at hgot
    have hround : cut.rounds (p :: w.came) = ((cut.rounds w.came).1 + 1, []) := by
      rw [rounds_cons, if_pos hall]
    have hsince : cut.since (p :: w.came) = [] := congrArg Prod.snd hround
    refine ⟨h.ok.step (.input f now), hasc, fun _ => hgot.2, fun hne => absurd hsince hne,
      fun hne => absurd hsince hne, ?_⟩
    rw [hgot.1, hround, replicate_succ, h.outs]
  · rw [if_neg hall] at hgot
    obtain ⟨hnot, q, L', hget, hq, hcol', hqrid, hqexp⟩ := hgot
    have hround : cut.rounds (p :: w.came) = ((cut.rounds w.came).1, p :: cut.since w.came) := by
      rw [rounds_cons, if_neg hall]
    have hsince : cut.since (p :: w.came) = p :: cut.since w.came := congrArg Prod.snd hround
    have hstart : (if cut.since w.came = [] then now else w.start) ≤ now := by
      split
      · exact Nat.le_refl _
      · rename_i hbusy
        exact Nat.le_trans (h.time hbusy) hclock
    refine ⟨h.ok.step (.input f now), hasc, fun hnil => ?_, fun _ => hstart,
      fun _ => ⟨q, L', hget, hq, ?_, ?_, 0, now, Nat.le_refl _, hstart, ?_⟩, ?_⟩
    · rw [hsince] at hnil
      cases hnil
    · rw [hsince]
      exact hcol'
    · rw [hqexp, hexp]
    · show getKey _ (w.s.d.input f.ip now).2.peers = _
      rw [hpeers, getKey_insertKey hprune, hf.key, if_pos rfl, hqrid, hrid,
        add32_zero (ridOf_lt ..)]
    · rw [hround]
      cases hr : (w.s.d.input f.ip now).1 with
      | complete out => exact absurd hr (hnot out)
      | pending => exact h.outs
      | dropped => exact h.outs

/-- The fragments of another key. -/
theorem Ok.other (hkey : f.key ≠ dg.key) : Ok cut ⟨w.s.step (.input f now), w.came,
      if keySource f.key = keySource dg.key then w.gap + 1 else w.gap, w.start, now, w.outs⟩ := by
  have hqueue : getKey dg.key (w.s.d.input f.ip now).2.queues = getKey dg.key w.s.d.queues := by
    by_cases hfull : HIGH_THRESH < w.s.d.mem
    · rw [input_full hfull]
    · exact (input_spec h.ok.inv (Nat.not_lt.mp hfull) f now).1.other dg.key hkey.symm
  refine ⟨h.ok.step (.input f now), h.ok.peers h.peers (.input f now),
    fun hidle => hqueue.trans (h.idle hidle), fun hbusy => Nat.le_trans (h.time hbusy) hclock,
    fun hbusy => ?_, h.outs⟩
  obtain ⟨q, L, hq⟩ := h.busy hbusy
  obtain ⟨g, t, hg, ht, hpeer⟩ := hq.peer
  refine ⟨q, L, { hq with get := hqueue.trans hq.get, peer := ?_ }⟩
  show ∃ g t, _ ∧ _ ∧ getKey _ (w.s.d.input f.ip now).2.peers = _
  by_cases hfull : HIGH_THRESH < w.s.d.mem
  · -- Dropped at once, and not counted.
    rw [input_full hfull]
    refine ⟨g, t, ?_, ht, hpeer⟩
    dsimp only
    split <;> omega
  · have hlate := htime hbusy
    have hstart := h.time hbusy
    have hkept : getKey (keySource dg.key) (w.s.d.prunePeers (keySource f.key) now) =
        some (add32 q.rid g, t) := getKey_prunePeers h.peers hpeer (by omega) _
    rw [input_peers h.ok.inv (Nat.not_lt.mp hfull),
      getKey_insertKey (prunePeers_ascending h.peers _ _)]
    by_cases hsource : keySource f.key = keySource dg.key
    · -- One of the same source is counted.
      have hrid : w.s.d.ridOf f now = add32 q.rid (g + 1) := by
        unfold ridOf nextRid
        rw [hsource] at hkept ⊢
        rw [hkept]
        show (((q.rid + g) % 2 ^ 32 + 1) % 2 ^ 32) = (q.rid + (g + 1)) % 2 ^ 32
        omega
      rw [if_pos hsource.symm, if_pos hsource, hrid]
      exact ⟨g + 1, now, Nat.succ_le_succ hg, Nat.le_trans hstart hclock, rfl⟩
    · rw [if_neg (Ne.symm hsource), if_neg hsource, hkept]
      exact ⟨g, t, hg, ht, rfl⟩

/-- An expiry before the time is up. -/
theorem Ok.expire : Ok cut ⟨w.s.step (.expire now), w.came, w.gap, w.start, now, w.outs⟩ := by
  refine ⟨h.ok.step (.expire now), h.peers, fun hidle => ?_,
    fun hbusy => Nat.le_trans (h.time hbusy) hclock, fun hbusy => ?_, h.outs⟩
  · exact getKey_eq_none.mpr fun e he =>
      getKey_eq_none.mp (h.idle hidle) e (mem_of_mem_filter he)
  · obtain ⟨q, L, hq⟩ := h.busy hbusy
    have hlate := htime hbusy
    have hasc := h.ok.inv.asc
    refine ⟨q, L, { hq with get := (getKey_eq_some (hasc.filter _)).mpr (mem_filter.mpr
      ⟨(getKey_eq_some hasc).mp hq.get, ?_⟩) }⟩
    rw [hq.expires, decide_eq_false (Nat.not_le.mpr hlate)]
    rfl

end

/-- **One call** keeps the invariant. -/
theorem Ok.deliver {call : FragCall} {w' : Watch} (h : w.Ok cut) (hstep : cut.Deliver w call w') :
    w'.Ok cut := by
  cases hstep with
  | own f p now hp hf hclock hroom hgap htime => exact h.own htime hclock hp hf hroom hgap
  | other f now hkey hclock htime => exact h.other htime hclock hkey
  | expire now hclock htime => exact h.expire htime hclock

end Watch

/-! ## Whole runs -/

/-- What the fragments in the queues cost. -/
def Defrag.cost (d : Defrag) : Nat :=
  (d.queues.map fun e => (e.2.frags.map fun p => p.2.length + FRAG_OVERHEAD).sum).sum

theorem DefragInv.mem_eq_cost {d : Defrag} {log : Nat → List Fragment} (h : DefragInv d log) :
    d.mem = d.cost := by
  rw [h.mem, cost]
  refine congrArg List.sum (map_congr_left fun e he => ?_)
  exact (h.holds e.1 e.2 ((getKey_eq_some h.asc).mpr he)).mem

namespace FragState

theorem peers_run {calls : List FragCall} {s : FragState}
    (hrun : Run (fun s c s' => s' = s.step c) new calls s) : s.Ok ∧ Ascending s.d.peers := by
  have hnew : new.Ok ∧ Ascending new.d.peers := ⟨ok_new, .nil⟩
  refine Run.invariant (I := fun s => s.Ok ∧ Ascending s.d.peers) (fun s c s' hs hstep => ?_) hrun hnew
  rw [hstep]
  exact ⟨hs.1.step c, hs.1.peers hs.2 c⟩

end FragState

/-- The watch of a datagram that nothing has come of. -/
def Watch.begin (s : FragState) (start clock : Nat) : Watch := ⟨s, [], 0, start, clock, []⟩

theorem Watch.ok_begin {dg : Datagram} (cut : Cut dg) {s : FragState} (hok : s.Ok)
    (hpeers : Ascending s.d.peers) (hnone : getKey dg.key s.d.queues = none) (start clock : Nat) :
    (Watch.begin s start clock).Ok cut :=
  ⟨hok, hpeers, fun _ => hnone, fun hne => absurd rfl hne, fun hne => absurd rfl hne, rfl⟩

theorem Watch.ok_run {dg : Datagram} {cut : Cut dg} {calls : List FragCall} {w w' : Watch}
    (h : w.Ok cut) (hrun : Run cut.Deliver w calls w') : w'.Ok cut :=
  hrun.invariant (fun _ _ _ hw hstep => hw.deliver hstep) h

/-- **Reassembly.** After any calls: what comes out whole is tiled by the fragments of its
key accepted since its queue was last started, under the header of the first with length,
flags, ECN field and checksum set. A datagram that no fragment is queued of, and whose
fragments keep within the limits, comes out as it was sent each time all of them are there,
so exactly once unless all come again after that. The memory is that of the queued
fragments. -/
theorem defrag_run {calls : List FragCall} {s : FragState}
    (hrun : Run (fun s c s' => s' = s.step c) FragState.new calls s) :
    (∀ f now out, (s.d.input f.ip now).1 = .complete out →
      FragState.Reassembles (s.d.logAt s.log f now ++ [f]) out ∧
        ∀ g ∈ s.d.logAt s.log f now ++ [f], g.key = f.key) ∧
    (∀ (dg : Datagram) (cut : Cut dg) (start clock : Nat), getKey dg.key s.d.queues = none →
      ∀ arrivals w, Run cut.Deliver (Watch.begin s start clock) arrivals w →
        w.outs = replicate (cut.rounds w.came).1 dg.bytes ∧
        ((∀ r ∈ cut.pieces, r ∈ w.came) →
          (∀ m l, w.came = m ++ l → (∀ r ∈ cut.pieces, r ∈ l) → ¬ ∀ r ∈ cut.pieces, r ∈ m) →
          w.outs = [dg.bytes])) ∧
    s.d.mem = s.d.cost := by
  obtain ⟨hok, hpeers⟩ := FragState.peers_run hrun
  refine ⟨fun f now out hout => hok.complete hout, ?_, hok.inv.mem_eq_cost⟩
  intro dg cut start clock hnone arrivals w hwatch
  have houts := (Watch.ok_run (Watch.ok_begin cut hok hpeers hnone start clock) hwatch).outs
  refine ⟨houts, fun hall honce => ?_⟩
  rw [houts, cut.rounds_once hall honce]
  rfl

/-! ### Two fragments -/

section TwoFragments

/-- A datagram of 16 bytes. -/
def twoDatagram : Datagram where
  header := [0x45, 0, 0, 36, 0, 1, 0, 0, 64, 17, 0x66, 0xC6, 10, 0, 0, 1, 10, 0, 0, 2]
  payload := [0, 1, 2, 3, 4, 5, 6, 7, 8, 9, 10, 11, 12, 13, 14, 15]
  ihl := by decide
  min := by decide
  len := by decide
  pos := by decide
  flags := by decide
  check := by decide +kernel

/-- Its halves. -/
def twoCut : Cut twoDatagram where
  pieces := [(0, [0, 1, 2, 3, 4, 5, 6, 7]), (8, [8, 9, 10, 11, 12, 13, 14, 15])]
  tiles := ⟨rfl, rfl, rfl⟩
  data := rfl
  pos := by decide
  aligned := by decide

def firstHalf : Fragment where
  ip := [0x45, 0, 0, 28, 0, 1, 0x20, 0, 64, 17, 0, 0, 10, 0, 0, 1, 10, 0, 0, 2,
    0, 1, 2, 3, 4, 5, 6, 7]
  ihl := by decide
  room := by decide

def secondHalf : Fragment where
  ip := [0x45, 0, 0, 28, 0, 1, 0, 1, 64, 17, 0, 0, 10, 0, 0, 1, 10, 0, 0, 2,
    8, 9, 10, 11, 12, 13, 14, 15]
  ihl := by decide
  room := by decide

theorem firstHalf_of : FragmentOf twoDatagram (0, [0, 1, 2, 3, 4, 5, 6, 7]) firstHalf where
  key := by decide +kernel
  piece := by decide +kernel
  tos := by decide
  more := by decide +kernel
  ihl := fun _ => by decide
  head := by
    have hsame : ∀ i < 20, i ∈ [2, 3, 6, 7, 10, 11] ∨
        byteAt firstHalf.ip i = byteAt twoDatagram.header i := by decide +kernel
    intro _ i hi h2 h3 h6 h7 h10 h11
    exact (hsame i hi).resolve_left (by simp [h2, h3, h6, h7, h10, h11])

theorem secondHalf_of : FragmentOf twoDatagram (8, [8, 9, 10, 11, 12, 13, 14, 15]) secondHalf where
  key := by decide +kernel
  piece := by decide +kernel
  tos := by decide
  more := by decide +kernel
  ihl := nofun
  head := nofun

/-- The two halves at time 0. -/
def twoHalves : List FragCall := [.input firstHalf 0, .input secondHalf 0]

/-- They keep within the limits, sent once and sent twice. -/
theorem twoHalves_deliver : ∃ w, Run twoCut.Deliver (Watch.begin FragState.new 0 0) twoHalves w ∧
      w.came = twoCut.pieces.reverse ∧ ∃ w', Run twoCut.Deliver w twoHalves w' ∧
        w'.outs = [twoDatagram.bytes, twoDatagram.bytes] := by
  refine ⟨_, .cons (.own _ _ 0 mem_cons_self firstHalf_of ?_ ?_ ?_ ?_)
    (.cons (.own _ _ 0 (mem_cons_of_mem _ mem_cons_self) secondHalf_of ?_ ?_ ?_ ?_) (.nil _)), rfl, _,
    .cons (.own _ _ 0 mem_cons_self firstHalf_of ?_ ?_ ?_ ?_)
      (.cons (.own _ _ 0 (mem_cons_of_mem _ mem_cons_self) secondHalf_of ?_ ?_ ?_ ?_) (.nil _)), ?_⟩
  all_goals decide +kernel

/-- Sent once, the datagram comes out once. -/
theorem defrag_run_twoHalves : ∃ w, Run twoCut.Deliver (Watch.begin FragState.new 0 0) twoHalves w ∧
    w.outs = [twoDatagram.bytes] := by
  obtain ⟨w, hrun, hcame, -⟩ := twoHalves_deliver
  refine ⟨w, hrun, ((defrag_run (.nil _)).2.1 twoDatagram twoCut 0 0 rfl _ _ hrun).2 ?_ ?_⟩
  · rw [hcame]
    decide
  · intro m l hsplit hl hm
    rw [hcame] at hsplit
    -- Each of the two parts would have both pieces.
    have hnodup : twoCut.pieces.Nodup := by decide
    have hlen : 2 = (m ++ l).length := congrArg length hsplit
    have hl : 2 ≤ l.length := (subperm_of_subset hnodup hl).length_le
    have hm : 2 ≤ m.length := (subperm_of_subset hnodup hm).length_le
    rw [length_append] at hlen
    omega

/-- A half of a datagram of the same source. -/
def halfOf (tos id : Byte) (first : Bool) : List Byte :=
  [0x45, tos, 0, 28, 0, id, if first then 0x20 else 0, if first then 0 else 1, 64, 17, 0, 0,
    10, 0, 0, 1, 10, 0, 0, 2, 0, 1, 2, 3, 4, 5, 6, 7]

/-- The first half, and `n` fragments of other datagrams of its source behind it. -/
def othersAfter (n : Nat) : Defrag :=
  (range n).foldl (fun d i => (d.input (halfOf 0 (.ofNat 8 (i + 2)) true) 0).2)
    (Defrag.new.input firstHalf.ip 0).2

/-- Sent twice, it comes out twice: the duplicates after the datagram start a new queue. With 63
other fragments of the source in between it comes out, with 64 the queue starts over. And if the
halves differ in their ECN bits, the TOS byte is not that of the first. -/
theorem duplicates_come_out_twice :
    (∃ w, Run twoCut.Deliver (Watch.begin FragState.new 0 0) (twoHalves ++ twoHalves) w ∧
      w.outs = [twoDatagram.bytes, twoDatagram.bytes]) ∧
    (((othersAfter 63).input secondHalf.ip 0).1 = .complete twoDatagram.bytes ∧
      ((othersAfter 64).input secondHalf.ip 0).1 = .pending) ∧
    ((Defrag.new.input (halfOf 2 1 true) 0).2.input (halfOf 3 1 false) 0).1 =
      .complete [0x45, 3, 0, 36, 0, 1, 0, 0, 64, 17, 0x66, 0xC3, 10, 0, 0, 1, 10, 0, 0, 2,
        0, 1, 2, 3, 4, 5, 6, 7, 0, 1, 2, 3, 4, 5, 6, 7] := by
  refine ⟨?_, ⟨by decide +kernel, by decide +kernel⟩, by decide +kernel⟩
  obtain ⟨w, hrun, -, w', hrun', houts⟩ := twoHalves_deliver
  exact ⟨w', hrun.append hrun', houts⟩

end TwoFragments

end NopeekOS.Net
