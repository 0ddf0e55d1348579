import NopeekOS.Lib.Lanes
import NopeekOS.Net.Neigh

/-!
# What the calls do to an entry

Every call changes at most one entry at a time, in one of five ways (`Act`): it leaves the
queue, sends a packet past an empty queue, queues a packet, sends the queue or reports it.
`Acted` says this of two states of the table, with the requests that went out; the lemmas
`eventSend_acted`, `update_acted` and `timer_spec` give it for the functions of the source.
The two collections and `create` only take idle entries away, and add one (`Drift`).
-/

namespace NopeekOS.Net

open Lib Neighbour List

variable {P : Type*} {n : Neighbour P}

/-! ## Entries -/

theorem Nud.inTimer_of_asks {state : Nud} (h : state.asks = true) : state.inTimer = true := by
  revert h
  cases state <;> decide

namespace Neighbour

/-- The number of probes an entry starts to ask with. -/
def base (n : Neighbour P) : Nat := if n.state = .incomplete then UCAST_PROBES else 0

/-- The requests since the entry began to ask. -/
def requests (n : Neighbour P) : Nat := if n.state.asks then n.probes - n.base else 0

/-- **The invariant of entries.** -/
structure Ok [Queued P] (n : Neighbour P) : Prop where
  waiting : n.queue ≠ [] → n.state = .incomplete
  timer : n.timer.isSome = n.state.inTimer
  bytes : n.queueBytes = (n.queue.map Queued.truesize).sum
  asked : n.state.asks = true → n.base < n.probes ∧ n.probes ≤ n.base + 3

/-- In the same state the timer and the probes stay; a new state has a timer if it needs one. -/
theorem renew_spec (n : Neighbour P) (now reachableTime : Nat) (ha : LinkAddr) (new : Nud)
    (sameHa : Bool) : ∃ n', n.renew now reachableTime ha new sameHa = n' ∧ n'.queue = n.queue ∧
      n'.queueBytes = n.queueBytes ∧ n'.state = new ∧
      (new = n.state → n'.timer = n.timer ∧ n'.probes = n.probes) ∧
      (new ≠ n.state → n'.timer.isSome = new.inTimer) := by
  refine ⟨_, rfl, ?_⟩
  unfold renew
  dsimp only
  by_cases hnew : new = n.state
  · rw [if_neg (not_not.mpr hnew)]
    cases sameHa <;> simp [hnew]
  · rw [if_pos hnew]
    cases new.inTimer <;> cases sameHa <;> simp [hnew]

theorem rearm_eq (htimer : n.timer = none) (now next : Nat) :
    ∃ t : Option Nat, t.isSome = n.state.inTimer ∧ n.rearm now next = { n with timer := t } := by
  unfold rearm
  cases hin : n.state.inTimer with
  | true => exact ⟨_, rfl, rfl⟩
  | false => exact ⟨none, rfl, by rw [← htimer]; rfl⟩

/-- The timer of an entry that does not ask: it begins to ask with no probes counted, or does
not. -/
theorem fire_spec (hasks : ¬ n.state.asks = true) (now reachableTime : Nat) :
    ∃ m next, n.fire now reachableTime = (m, next) ∧ m.timer = none ∧ m.queue = n.queue ∧
      m.queueBytes = n.queueBytes ∧
      (m.state.asks = false ∨ m.state = .probe ∧ m.probes = 0) := by
  unfold fire
  dsimp only
  split
  · rename_i hstate
    split
    · exact ⟨_, _, rfl, rfl, rfl, rfl, .inl (by dsimp only; rw [hstate]; rfl)⟩
    · split <;> exact ⟨_, _, rfl, rfl, rfl, rfl, .inl rfl⟩
  · split
    · exact ⟨_, _, rfl, rfl, rfl, rfl, .inl rfl⟩
    · exact ⟨_, _, rfl, rfl, rfl, rfl, .inr ⟨rfl, rfl⟩⟩
  · exact ⟨_, _, rfl, rfl, rfl, rfl, .inl (Bool.not_eq_true _ ▸ hasks)⟩

section

variable [Queued P]

theorem ok_create (now : Nat) : (create now : Neighbour P).Ok where
  waiting h := absurd rfl h
  timer := rfl
  bytes := rfl
  asked h := absurd h Bool.false_ne_true

/-- Only an entry that asks for the first time has packets waiting. -/
theorem Ok.queue_eq_nil (h : n.Ok) (hne : n.state ≠ .incomplete) : n.queue = [] := by
  by_contra hqueue
  exact hne (h.waiting hqueue)

/-- Address and times of an entry do not matter. -/
theorem Ok.congr {n n' : Neighbour P} (h : n.Ok) (hstate : n'.state = n.state)
    (htimer : n'.timer = n.timer) (hprobes : n'.probes = n.probes) (hqueue : n'.queue = n.queue)
    (hbytes : n'.queueBytes = n.queueBytes) : n'.Ok ∧ n'.requests = n.requests := by
  have hbase : n'.base = n.base := by rw [base, hstate]; rfl
  refine ⟨⟨?_, ?_, ?_, ?_⟩, ?_⟩
  · rw [hqueue, hstate]
    exact h.waiting
  · rw [htimer, hstate]
    exact h.timer
  · rw [hbytes, hqueue]
    exact h.bytes
  · rw [hstate, hbase, hprobes]
    exact h.asked
  · rw [requests, hstate, hprobes, hbase]
    rfl

/-- A state without requests. -/
theorem ok_plain (hasks : n.state.asks = false) (hqueue : n.queue = [])
    (hbytes : n.queueBytes = 0) (htimer : n.timer.isSome = n.state.inTimer) : n.Ok where
  waiting h := absurd hqueue h
  timer := htimer
  bytes := by rw [hqueue, hbytes]; rfl
  asked h := absurd h (by rw [hasks]; exact Bool.false_ne_true)

/-- A state with `k` requests. -/
theorem ok_asking {k : Nat} (hasks : n.state.asks = true)
    (hwaiting : n.queue ≠ [] → n.state = .incomplete) (htimer : n.timer.isSome = true)
    (hbytes : n.queueBytes = (n.queue.map Queued.truesize).sum) (hprobes : n.probes = n.base + k)
    (hpos : 0 < k) (hle : k ≤ 3) : n.Ok ∧ n.requests = k := by
  refine ⟨⟨hwaiting, ?_, hbytes, fun _ => by omega⟩, ?_⟩
  · rw [htimer, Nud.inTimer_of_asks hasks]
  · rw [requests, if_pos hasks, hprobes]
    exact Nat.add_sub_cancel_left ..

/-- Packets are taken from the front only, and counted. -/
theorem makeRoom_spec (size : Nat) (queue : List P) {bytes : Nat}
    (hbytes : bytes = (queue.map Queued.truesize).sum) :
    ∃ k ≤ queue.length, makeRoom size queue bytes =
      (queue.drop k, ((queue.drop k).map Queued.truesize).sum, k) := by
  induction queue generalizing bytes with
  | nil => exact ⟨0, Nat.le_refl _, by rw [makeRoom, hbytes]; rfl⟩
  | cons old queue ih =>
    rw [map_cons, sum_cons] at hbytes
    unfold makeRoom
    split
    · have hrest : bytes - Queued.truesize old = (queue.map Queued.truesize).sum := by omega
      obtain ⟨k, hk, hroom⟩ := ih hrest
      rw [hroom]
      exact ⟨k + 1, Nat.succ_le_succ hk, rfl⟩
    · exact ⟨0, Nat.zero_le _, by rw [hbytes]; rfl⟩

/-- **Queueing a packet.** -/
theorem enqueue_spec (hbytes : n.queueBytes = (n.queue.map Queued.truesize).sum)
    (p : P) : ∃ k ≤ n.queue.length, (n.enqueue p).2 = k ∧ (n.enqueue p).1 = { n with
      queue := n.queue.drop k ++ [p]
      queueBytes := ((n.queue.drop k ++ [p]).map Queued.truesize).sum } := by
  obtain ⟨k, hk, hroom⟩ := makeRoom_spec (Queued.truesize p) n.queue hbytes
  refine ⟨k, hk, ?_⟩
  unfold enqueue
  rw [hroom]
  simp

end

end Neighbour

/-! ## One entry -/

/-- The ways in which a call changes the entry `n`: the packet it is given, what it sends and
reports, and how many packets it drops. -/
inductive Act (n n' : Neighbour P) : Option P → List (LinkAddr × P) → List P → Nat → Prop
  | quiet (hqueue : n'.queue = n.queue) : Act n n' none [] [] 0
  | pass (p : P) (hqueue : n'.queue = n.queue) (hempty : n.queue = []) (hvalid : n'.state.valid) :
      Act n n' (some p) [(n'.ha, p)] [] 0
  | hold (p : P) (k : Nat) (hk : k ≤ n.queue.length) (hqueue : n'.queue = n.queue.drop k ++ [p]) :
      Act n n' (some p) [] [] k
  | flush (hqueue : n'.queue = []) (hvalid : n'.state.valid) :
      Act n n' none (n.queue.map fun p => (n'.ha, p)) [] 0
  | fail (hqueue : n'.queue = []) (hstate : n'.state = .failed) : Act n n' none [] n.queue 0

/-- What a call did to the table: the entry of `ip` is `n'`, and the rest is as it was. -/
structure Put (s s' : Neighbours P) (ip : Nat) (n' : Neighbour P) (sent : List (LinkAddr × P))
    (asks : Nat) (errs : List P) (drops : Nat) : Prop where
  asc : Ascending s'.t.neighs
  get : getKey ip s'.t.neighs = some n'
  other : ∀ j, j ≠ ip → getKey j s'.t.neighs = getKey j s.t.neighs
  send : s'.out.send = s.out.send ++ sent
  solicit : ∀ j, s'.out.solicit.countP (fun a => a.1 == j) =
    s.out.solicit.countP (fun a => a.1 == j) + if j = ip then asks else 0
  errors : s'.out.errors = s.out.errors ++ errs
  drops : s'.t.drops = s.t.drops + drops
  reachableTime : s'.t.reachableTime = s.t.reachableTime
  rest : s'.t.nextGc = s.t.nextGc

/-- A call that acts on the entry of `ip`, with its requests counted. -/
def Acted [Queued P] (s s' : Neighbours P) (ip : Nat) (n : Neighbour P) (given : Option P) : Prop :=
  ∃ n' sent errs drops asks, Put s s' ip n' sent asks errs drops ∧ Act n n' given sent errs drops ∧
    n'.Ok ∧ (n'.state.asks = true → n'.requests = n.requests + asks)

/-- One change after the other of the same entry. -/
theorem Put.trans {s s₁ s₂ : Neighbours P} {ip : Nat} {n₁ n₂ : Neighbour P} {sent₁ sent₂ : List (LinkAddr × P)}
    {asks₁ asks₂ drops₁ drops₂ : Nat} {errs₁ errs₂ : List P}
    (h₁ : Put s s₁ ip n₁ sent₁ asks₁ errs₁ drops₁) (h₂ : Put s₁ s₂ ip n₂ sent₂ asks₂ errs₂ drops₂) :
    Put s s₂ ip n₂ (sent₁ ++ sent₂) (asks₁ + asks₂) (errs₁ ++ errs₂) (drops₁ + drops₂) where
  asc := h₂.asc
  get := h₂.get
  other j hj := (h₂.other j hj).trans (h₁.other j hj)
  send := by rw [h₂.send, h₁.send, append_assoc]
  solicit j := by
    rw [h₂.solicit, h₁.solicit]
    split <;> omega
  errors := by rw [h₂.errors, h₁.errors, append_assoc]
  drops := by rw [h₂.drops, h₁.drops, Nat.add_assoc]
  reachableTime := h₂.reachableTime.trans h₁.reachableTime
  rest := h₂.rest.trans h₁.rest

namespace Neighbours

variable {s : Neighbours P} {ip now : Nat} {n : Neighbour P}

section

variable (hasc : Ascending s.t.neighs)

include hasc

theorem put_put (ip : Nat) (n : Neighbour P) : Put s (s.put ip n) ip n [] 0 [] 0 where
  asc := hasc.insertKey _ _
  get := (getKey_insertKey hasc _).trans (if_pos rfl)
  other j hj := (getKey_insertKey hasc j).trans (if_neg hj)
  send := (append_nil _).symm
  solicit j := by rw [ite_self]; rfl
  errors := (append_nil _).symm
  drops := rfl
  reachableTime := rfl
  rest := rfl

section

variable (hget : getKey ip s.t.neighs = some n)

include hget

/-- The entry as it is. -/
theorem put_self : Put s s ip n [] 0 [] 0 :=
  ⟨hasc, hget, fun _ _ => rfl, (append_nil _).symm, fun _ => by rw [ite_self]; rfl,
    (append_nil _).symm, rfl, rfl, rfl⟩

theorem put_drop (k : Nat) : Put s (s.drop k) ip n [] 0 [] k :=
  { put_self hasc hget with drops := rfl }

theorem put_send (ha : LinkAddr) (ps : List P) :
    Put s (s.send ha ps) ip n (ps.map fun p => (ha, p)) 0 [] 0 :=
  { put_self hasc hget with send := rfl }

theorem put_probe : Put s (s.probe ip) ip { n with probes := n.probes + 1 } [] 1 [] 0 := by
  have hput := put_put hasc ip { n with probes := n.probes + 1 }
  unfold probe
  rw [hget]
  refine { hput with solicit := fun j => ?_ }
  rw [countP_append, countP_singleton]
  refine congrArg (fun m => s.out.solicit.countP _ + m) ?_
  by_cases hj : j = ip
  · rw [if_pos hj, hj, beq_self_eq_true, if_pos rfl]
  · rw [if_neg hj, if_neg]
    exact fun heq => hj (beq_iff_eq.mp heq).symm

theorem put_invalidate :
    Put s (s.invalidate now ip) ip { n with updated := now, queue := [], queueBytes := 0 } [] 0
      n.queue 0 := by
  have hput := put_put hasc ip { n with updated := now, queue := [], queueBytes := 0 }
  unfold invalidate
  rw [hget]
  exact { hput with errors := rfl }

end

end

end Neighbours

/-- A request after the change of an entry, if one is to go out. -/
theorem Put.probeIf {s s₁ : Neighbours P} {ip : Nat} {n₁ : Neighbour P} {drops : Nat}
    (h : Put s s₁ ip n₁ [] 0 [] drops) (b : Bool) :
    Put s (if b = true then s₁.probe ip else s₁) ip { n₁ with probes := n₁.probes + b.toNat } []
      b.toNat [] drops := by
  cases b with
  | false => exact h
  | true =>
    have := h.trans (Neighbours.put_probe h.asc h.get)
    rw [Nat.zero_add] at this
    exact this

/-! ## The functions of the source -/

namespace Neighbours

section

variable [Queued P] {s : Neighbours P} {ip now : Nat} {n : Neighbour P}

/-- An entry that asks after it was woken, with the request that is to go out counted. -/
theorem wake_asks (hok : n.Ok) (hnot : n.state ≠ .reachable ∧ n.state ≠ .delay ∧ n.state ≠ .probe)
    (hstale : n.state ≠ .stale) (now : Nat) :
    ∃ n₁ b, n.wake now = (n₁, b) ∧ n₁.state = .incomplete ∧ n₁.queue = n.queue ∧
      n₁.queueBytes = n.queueBytes ∧ n₁.timer.isSome = true ∧
      n₁.probes + b.toNat = n₁.base + (n.requests + b.toNat) ∧
      0 < n.requests + b.toNat ∧ n.requests + b.toNat ≤ 3 := by
  by_cases hinc : n.state = .incomplete
  · -- It asks already.
    have hwake : n.wake now = (n, false) := by
      unfold wake
      rw [if_neg (by simp [hinc]), if_neg hstale]
    obtain ⟨hlt, hle⟩ := hok.asked (by rw [hinc]; rfl)
    have hreq : n.requests = n.probes - n.base := if_pos (by rw [hinc]; rfl)
    refine ⟨n, false, hwake, hinc, rfl, rfl, hok.timer.trans (by rw [hinc]; rfl), ?_⟩
    rw [Bool.toNat_false]
    omega
  · have hasks : n.state.asks = false := by
      revert hnot hinc
      cases n.state <;> decide
    have hreq : n.requests = 0 := if_neg (by rw [hasks]; exact Bool.false_ne_true)
    refine ⟨_, true, if_pos ⟨hstale, hinc⟩, rfl, rfl, rfl, rfl, ?_⟩
    rw [hreq]
    exact ⟨rfl, Nat.one_pos, Nat.le_of_ble_eq_true rfl⟩

section

variable (hasc : Ascending s.t.neighs) (hget : getKey ip s.t.neighs = some n) (hok : n.Ok)

include hasc hget hok

variable (now : Nat)

/-- **`event_send`.** The packet may go out, and then nothing waits, or it is queued. -/
theorem eventSend_spec (p : Option P) :
    ∃ n' asks drops, Put s (s.eventSend now ip p).2 ip n' [] asks [] drops ∧ n'.Ok ∧
      (n'.state.asks = true → n'.requests = n.requests + asks) ∧
      (n.state.asks = true → n'.state = n.state) ∧
      (((s.eventSend now ip p).1 = p ∧ n'.queue = n.queue ∧ n.queue = [] ∧
          n'.state.valid = true ∧ drops = 0) ∨
        ((s.eventSend now ip p).1 = none ∧ (p = none → n'.queue = n.queue ∧ drops = 0) ∧
          ∀ x, p = some x → drops ≤ n.queue.length ∧ n'.queue = n.queue.drop drops ++ [x])) := by
  unfold eventSend
  rw [hget]
  dsimp only
  split
  · -- The address may be used.
    rename_i husable
    refine ⟨n, 0, 0, put_self hasc hget, hok, fun _ => rfl, fun _ => rfl,
      .inl ⟨rfl, rfl, hok.queue_eq_nil ?_, ?_, rfl⟩⟩ <;> rcases husable with h | h | h <;> rw [h] <;> decide
  · rename_i hnot
    simp only [not_or] at hnot
    by_cases hstale : n.state = .stale
    · -- It is used while it is confirmed.
      have hwake : n.wake now = ({ n with
          state := .delay, updated := now, timer := some (now + DELAY_PROBE_TIME) }, false) := by
        unfold wake
        rw [if_neg (by simp [hstale]), if_pos hstale]
      have hq := hok.queue_eq_nil (by rw [hstale]; decide)
      rw [hwake]
      refine ⟨_, 0, 0, put_put hasc ip _, ⟨fun h => absurd hq h, rfl, hok.bytes, ?_⟩, ?_, ?_,
        .inl ⟨rfl, rfl, hq, rfl, rfl⟩⟩
      · exact nofun
      · exact nofun
      · rw [hstale]
        exact nofun
    · -- It asks, or begins to.
      obtain ⟨n₁, b, hwake, hstate, hqueue, hbytes, htimer, hprobes, hpos, hle⟩ :=
        wake_asks hok hnot hstale now
      have hstays : n.state.asks = true → .incomplete = n.state := by
        revert hnot
        cases n.state <;> simp [Nud.asks]
      have hfinal {queue : List P} {bytes : Nat} (hsum : bytes = (queue.map Queued.truesize).sum) :=
        ok_asking (n := { n₁ with
            queue := queue, queueBytes := bytes, probes := n₁.probes + b.toNat })
          (by rw [hstate]; rfl) (fun _ => hstate) htimer hsum hprobes hpos hle
      have hsum : n₁.queueBytes = (n₁.queue.map Queued.truesize).sum :=
        hbytes.trans (hok.bytes.trans (by rw [hqueue]))
      rw [hwake]
      dsimp only
      rw [if_pos hstate]
      cases p with
      | none =>
        exact ⟨_, b.toNat, 0, (put_put hasc ip n₁).probeIf b, (hfinal hsum).1,
          fun _ => (hfinal hsum).2, fun h => hstate.trans (hstays h),
          .inr ⟨rfl, fun _ => ⟨hqueue, rfl⟩, nofun⟩⟩
      | some x =>
        obtain ⟨k, hk, hcount, hentry⟩ := enqueue_spec hsum x
        dsimp only
        rw [hcount, hentry]
        have hput := put_put hasc ip { n₁ with
          queue := n₁.queue.drop k ++ [x]
          queueBytes := ((n₁.queue.drop k ++ [x]).map Queued.truesize).sum }
        have hdrop := (hput.trans (put_drop hput.asc hput.get k)).probeIf b
        rw [Nat.zero_add] at hdrop
        refine ⟨_, b.toNat, k, hdrop, (hfinal rfl).1, fun _ => (hfinal rfl).2,
          fun h => hstate.trans (hstays h), .inr ⟨rfl, nofun, ?_⟩⟩
        intro y hy
        cases hy
        rw [← hqueue]
        exact ⟨hk, rfl⟩

/-- **`output`**, from its entry on. An entry that asks goes on asking. -/
theorem transmit_spec (p : P) :
    ∃ n' sent drops asks, Put s (s.transmit now ip p) ip n' sent asks [] drops ∧
      Act n n' (some p) sent [] drops ∧ n'.Ok ∧
      (n'.state.asks = true → n'.requests = n.requests + asks) ∧
      (n.state.asks = true → n'.state = n.state) := by
  unfold transmit
  rw [hget]
  dsimp only
  split
  · -- A confirmed address is used at once.
    rename_i hconn
    have hstate : n.state = .reachable := beq_iff_eq.mp hconn
    have hempty := hok.queue_eq_nil (by rw [hstate]; decide)
    exact ⟨n, _, 0, 0, put_send hasc hget n.ha [p], .pass p rfl hempty (by rw [hstate]; rfl), hok,
      fun _ => rfl, fun _ => rfl⟩
  · have hput := put_put hasc ip { n with used := now }
    have hok' : Neighbour.Ok { n with used := now } := { hok with }
    obtain ⟨n', asks, drops, hsend, hn', hasks, hsame, hgo⟩ :=
      eventSend_spec hput.asc hput.get hok' now (some p)
    have hboth := hput.trans hsend
    rw [Nat.zero_add, Nat.zero_add] at hboth
    generalize (s.put ip { n with used := now }).eventSend now ip (some p) = r at hboth hgo ⊢
    obtain ⟨r, s'⟩ := r
    rcases hgo with ⟨hr, hqueue, hempty, hvalid, rfl⟩ | ⟨hr, -, hhold⟩
    · cases hr
      dsimp only
      rw [hboth.get]
      have hall := hboth.trans (put_send hboth.asc hboth.get n'.ha [p])
      exact ⟨n', _, 0, asks, hall, .pass p hqueue hempty hvalid, hn', hasks, hsame⟩
    · cases hr
      obtain ⟨hk, hqueue⟩ := hhold p rfl
      exact ⟨n', [], drops, asks, hboth, .hold p drops hk hqueue, hn', hasks, hsame⟩

/-- **`resolve`**, from its entry on. -/
theorem eventSend_acted : Acted s (s.eventSend now ip none).2 ip n none := by
  obtain ⟨n', asks, drops, hput, hn', hasks, -, hgo⟩ := eventSend_spec hasc hget hok now none
  rcases hgo with ⟨-, hqueue, -, -, rfl⟩ | ⟨-, hquiet, -⟩
  · exact ⟨n', [], [], 0, asks, hput, .quiet hqueue, hn', hasks⟩
  · obtain ⟨hqueue, rfl⟩ := hquiet rfl
    exact ⟨n', [], [], 0, asks, hput, .quiet hqueue, hn', hasks⟩

/-- **`update`** to a state that has no requests. -/
theorem update_acted (ha : LinkAddr) {asked : Nud}
    (hasked : asked = .reachable ∨ asked = .stale) (overr : Bool) :
    Acted s (s.update now ip ha asked overr) ip n none := by
  -- The entry with its time of confirmation.
  have hconf : ∃ c, (if asked.connected then { n with confirmed := now } else n) =
      { n with confirmed := c } := by
    split
    · exact ⟨now, rfl⟩
    · exact ⟨n.confirmed, rfl⟩
  obtain ⟨c, hconf⟩ := hconf
  unfold update
  rw [hget]
  dsimp only
  rw [hconf]
  split
  · exact ⟨_, [], [], 0, 0, put_put hasc ip _, .quiet rfl, { hok with }, fun _ => rfl⟩
  generalize (n.state.valid && decide (n.ha = ha)) = sameHa
  generalize hnew : (if n.state.valid && (sameHa && asked == .stale) then n.state else asked) = new
  obtain ⟨n', hrenew, hqueue, hbytes, hstate, hstays, hfresh⟩ :=
    renew_spec { n with confirmed := c } now s.t.reachableTime ha new sameHa
  rw [hrenew]
  by_cases hsame : new = n.state
  · -- The state stays, and the queue with it.
    rw [if_pos hsame]
    obtain ⟨htimer, hprobes⟩ := hstays hsame
    obtain ⟨hn', hreq⟩ := hok.congr (hstate.trans hsame) htimer hprobes hqueue hbytes
    exact ⟨_, [], [], 0, 0, put_put hasc ip _, .quiet hqueue, hn', fun _ => hreq⟩
  · rw [if_neg hsame]
    have hnew' : new = asked := by
      split at hnew
      · exact absurd hnew.symm hsame
      · exact hnew.symm
    have hplain : new.asks = false ∧ new.valid = true := by
      rw [hnew']
      rcases hasked with rfl | rfl <;> exact ⟨rfl, rfl⟩
    have hno (m : Neighbour P) (hm : m.state = new) (k : Nat) :
        m.state.asks = true → m.requests = k := fun hasks => by
      rw [hm, hplain.1] at hasks
      cases hasks
    have htimer : n'.timer.isSome = n'.state.inTimer := (hfresh hsame).trans (by rw [hstate])
    have hasks : n'.state.asks = false := by rw [hstate]; exact hplain.1
    have hvalid : n'.state.valid = true := by rw [hstate]; exact hplain.2
    split
    · -- The address is there at last: what waited is sent.
      have hput := put_put hasc ip { n' with queue := [], queueBytes := 0 }
      have hboth := hput.trans (put_send hput.asc hput.get n'.ha n'.queue)
      rw [hqueue] at hboth ⊢
      exact ⟨_, _, [], 0, 0, hboth, .flush rfl hvalid,
        ok_plain hasks rfl rfl htimer, hno _ hstate _⟩
    · rename_i hold
      have hqueue' := hqueue.trans (hok.queue_eq_nil fun h => hold (by rw [h]; rfl))
      refine ⟨n', [], [], 0, 0, put_put hasc ip _, .quiet hqueue,
        ok_plain hasks hqueue' ?_ htimer, hno _ hstate _⟩
      rw [hbytes]
      rw [hok.bytes, ← hqueue, hqueue']
      rfl

/-- **`timer`**, with what it does to an entry that asks: after three requests it fails and
its queue is reported, and before that there is one more request. -/
theorem timer_spec :
    ∃ n' errs asks, Put s (s.timer now ip) ip n' [] asks errs 0 ∧ Act n n' none [] errs 0 ∧
      n'.Ok ∧ (n'.state.asks = true → n'.requests = n.requests + asks) ∧
      (n.state.asks = true → n.requests = 3 → n'.state = .failed ∧ errs = n.queue) ∧
      (n.state.asks = true → n.requests ≠ 3 → n'.state = n.state ∧ asks = 1) := by
  unfold timer
  rw [hget]
  dsimp only
  by_cases hin : n.state.inTimer = false
  · -- There is no timer to fire.
    have htimer : n.timer = none := by
      have := hok.timer
      rw [hin] at this
      exact Option.not_isSome_iff_eq_none.mp (by rw [this]; exact Bool.false_ne_true)
    have hn : { n with timer := none } = n := by rw [← htimer]
    have hnot : ¬ n.state.asks = true := fun h => by
      rw [Nud.inTimer_of_asks h] at hin
      cases hin
    rw [if_pos hin, hn]
    exact ⟨n, [], 0, put_put hasc ip n, .quiet rfl, hok, fun _ => rfl, fun h => absurd h hnot,
      fun h => absurd h hnot⟩
  · rw [if_neg hin]
    by_cases hasks : n.state.asks = true
    · -- It asks.
      have hfire : (n.fire now s.t.reachableTime).1 = { n with timer := none } := by
        unfold fire
        revert hasks
        cases n.state <;> simp [Nud.asks]
      have hmax : maxProbes n.state = n.base + 3 := by
        unfold base
        revert hasks
        cases n.state <;> simp [Nud.asks, maxProbes, UCAST_PROBES, MCAST_PROBES]
      have hreq : n.requests = n.probes - n.base := if_pos hasks
      obtain ⟨hlt, hle⟩ := hok.asked hasks
      rw [hfire]
      by_cases hthree : n.requests = 3
      · have hput := put_put hasc ip { n with timer := none, state := .failed }
        have hinv : Put _ (Neighbours.invalidate _ now ip) ip _ _ _ _ _ :=
          put_invalidate hput.asc hput.get
        rw [if_pos ⟨hasks, by dsimp only; omega⟩]
        exact ⟨_, _, 0, hput.trans hinv, .fail rfl rfl, ok_plain rfl rfl rfl rfl,
          nofun, fun _ _ => ⟨rfl, rfl⟩, fun _ h => absurd hthree h⟩
      · obtain ⟨t, ht, hrearm⟩ := rearm_eq (n := { n with timer := none }) rfl now
          (n.fire now s.t.reachableTime).2
        rw [if_neg (by dsimp only; omega), hrearm, if_pos hasks]
        have hput := put_put hasc ip { n with timer := t }
        have hprobes : n.probes + 1 = n.base + (n.requests + 1) := by omega
        obtain ⟨hn', hreq'⟩ := ok_asking (n := { n with timer := t, probes := n.probes + 1 }) hasks
          hok.waiting (ht.trans (Nud.inTimer_of_asks hasks)) hok.bytes hprobes (by omega) (by omega)
        exact ⟨_, [], 1, hput.trans (put_probe hput.asc hput.get), .quiet rfl, hn', fun _ => hreq',
          fun _ h => absurd h hthree, fun _ _ => ⟨rfl, rfl⟩⟩
    · -- It is used, and may begin to ask.
      have hq : n.queue = [] := hok.queue_eq_nil fun h => hasks (by rw [h]; rfl)
      have hbytes : n.queueBytes = 0 := by rw [hok.bytes, hq]; rfl
      have hzero : n.requests = 0 := if_neg hasks
      obtain ⟨m, next, hfire, htimer, hqueue, hbytes', hstate⟩ :=
        fire_spec hasks now s.t.reachableTime
      obtain ⟨t, ht, hrearm⟩ := rearm_eq htimer now next
      rw [hfire, hrearm]
      have hput := put_put hasc ip { m with timer := t }
      rcases hstate with hno | ⟨hprobe, hprobes⟩
      · have hno' : ¬ m.state.asks = true := by rw [hno]; exact Bool.false_ne_true
        rw [if_neg fun h => hno' h.1, if_neg hno']
        exact ⟨_, [], 0, hput, .quiet hqueue,
          ok_plain hno (hqueue.trans hq) (hbytes'.trans hbytes) ht,
          fun h => absurd h hno', fun h => absurd h hasks, fun h => absurd h hasks⟩
      · rw [if_neg (by rw [hprobe, hprobes]; decide), if_pos (by rw [hprobe]; rfl)]
        obtain ⟨hn', hreq⟩ := ok_asking (n := { m with timer := t, probes := m.probes + 1 })
          (by rw [hprobe]; rfl) (fun h => absurd (hqueue.trans hq) h) (ht.trans (by rw [hprobe]; rfl))
          (by rw [hbytes', hbytes, hqueue, hq]; rfl)
          (show m.probes + 1 = m.base + (n.requests + 1) by rw [base, hprobe, hprobes, hzero]; rfl)
          (by omega) (by omega)
        exact ⟨_, [], 1, hput.trans (put_probe hput.asc hput.get), .quiet hqueue, hn',
          fun _ => hreq, fun h => absurd h hasks, fun h => absurd h hasks⟩

end

end

end Neighbours

end NopeekOS.Net
