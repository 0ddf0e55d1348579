import NopeekOS.Lib.Run
import NopeekOS.Net.NeighInv

/-!
# Runs of the neighbour table

The table refines lanes of packets (`Lanes`), one for each next hop: what a call does to an
entry is a step of the lanes (`Acted.lanes`), and entries come and go only when their queue is
empty (`Drift`). From this follow, for any calls, that no packet is lost or sent twice and
that the packets of a next hop keep their order; beside it go the invariant of entries and
the number of requests since an entry began to ask (`NeighState.asked`).
-/

namespace NopeekOS.Net

open Lib Function Neighbours NeighTable
open List (append_nil mem_cons mem_filter mem_map)

variable {P : Type*} [Queued P] {t' : NeighTable P} {n : Neighbour P}

/-! ## Entries that come and go -/

/-- What happens to an entry outside the functions above: nothing, its time of use is set,
it goes while it is idle, or it is created. -/
inductive Drift : Option (Neighbour P) → Option (Neighbour P) → Prop
  | same (o : Option (Neighbour P)) : Drift o o
  | touched (n : Neighbour P) (used : Nat) : Drift (some n) (some { n with used := used })
  | gone (n : Neighbour P) (hqueue : n.queue = []) (htimer : n.timer = none) : Drift (some n) none
  | created (now : Nat) : Drift none (some (.create now))

/-- The queue of an entry, if there is one. -/
def queueOf (o : Option (Neighbour P)) : List P := (o.map Neighbour.queue).getD []

def requestsOf (o : Option (Neighbour P)) : Nat := (o.map Neighbour.requests).getD 0

def asksOf (o : Option (Neighbour P)) : Bool := (o.map fun n => n.state.asks).getD false

/-- **The invariant of the table.** -/
structure NeighOk (t : NeighTable P) : Prop where
  asc : Ascending t.neighs
  ok : ∀ ip n, getKey ip t.neighs = some n → n.Ok

/-- An entry that asks has a timer. -/
theorem Neighbour.Ok.timer_ne_none (h : n.Ok) (hasks : n.state.asks = true) : n.timer ≠ none := by
  intro hnone
  have htimer := h.timer
  rw [hnone, Nud.inTimer_of_asks hasks] at htimer
  cases htimer

namespace Drift

variable {o o' : Option (Neighbour P)}

theorem ok (h : Drift o o') (hok : ∀ n, o = some n → n.Ok) : ∀ n, o' = some n → n.Ok := by
  intro n hn
  cases h with
  | same => exact hok n hn
  | touched m used =>
    cases hn
    exact { hok m rfl with }
  | gone => cases hn
  | created now =>
    cases hn
    exact Neighbour.ok_create now

omit [Queued P] in
theorem queueOf_eq (h : Drift o o') : queueOf o' = queueOf o := by
  cases h with
  | same => rfl
  | touched => rfl
  | gone n hqueue => exact hqueue.symm
  | created => rfl

/-- Entries that ask stay, and no other begins to ask. -/
theorem asks_eq (h : Drift o o') (hok : ∀ n, o = some n → n.Ok) :
    asksOf o' = asksOf o ∧ requestsOf o' = requestsOf o := by
  cases h with
  | same => exact ⟨rfl, rfl⟩
  | touched => exact ⟨rfl, rfl⟩
  | gone n hqueue htimer =>
    have hasks : n.state.asks = false := Bool.not_eq_true _ ▸ fun h => (hok n rfl).timer_ne_none h htimer
    refine ⟨hasks.symm, ?_⟩
    show 0 = if n.state.asks = true then _ else 0
    rw [hasks]
    rfl
  | created => exact ⟨rfl, rfl⟩

/-- Entries that ask do not go. -/
theorem asking (h : Drift (some n) o) (hok : n.Ok)
    (hasks : n.state.asks = true) : ∃ n', o = some n' ∧ n'.state = n.state := by
  cases h with
  | same => exact ⟨n, rfl, rfl⟩
  | touched => exact ⟨_, rfl, rfl⟩
  | gone _ hqueue htimer => exact absurd htimer (hok.timer_ne_none hasks)

end Drift

/-- A table whose entries drift. -/
structure Drifted (t t' : NeighTable P) : Prop where
  asc : Ascending t'.neighs
  key : ∀ j, Drift (getKey j t.neighs) (getKey j t'.neighs)
  drops : t'.drops = t.drops

omit [Queued P] in
theorem Drifted.refl {t : NeighTable P} (h : Ascending t.neighs) : Drifted t t :=
  ⟨h, fun _ => .same _, rfl⟩

namespace NeighTable

variable {t : NeighTable P}

theorem drifted_ok (h : Drifted t t') (hok : NeighOk t) : NeighOk t' :=
  ⟨h.asc, fun ip n => (h.key ip).ok (fun n => hok.ok ip n) n⟩

omit [Queued P] in
/-- **`forced_gc`** removes idle entries. -/
theorem forcedGc_drifted (hasc : Ascending t.neighs) (now : Nat) :
    Drifted t (t.forcedGc now).2 := by
  have hget := getKey_eraseKeys hasc (t.victims now)
  have hidle : ∀ ip ∈ t.victims now, ∃ n, getKey ip t.neighs = some n ∧ n.queue = [] ∧
      n.timer = none := by
    intro ip hip
    obtain ⟨e, he, rfl⟩ := mem_map.mp (List.mem_of_mem_take hip)
    obtain ⟨hmem, hidle⟩ := mem_filter.mp he
    simp only [Bool.and_eq_true, Option.isNone_iff_eq_none, List.isEmpty_iff] at hidle
    exact ⟨e.2, (getKey_eq_some hasc).mpr hmem, hidle.2.2, hidle.2.1⟩
  unfold forcedGc
  generalize t.victims now = victims at hget hidle ⊢
  refine ⟨(hget 0).1, fun j => ?_, rfl⟩
  rw [(hget j).2]
  split
  · rename_i hvictim
    obtain ⟨n, hn, hqueue, htimer⟩ := hidle j hvictim
    rw [hn]
    exact .gone n hqueue htimer
  · exact .same _

omit [Queued P] in
/-- **`create`**: the entry is there, unless the table is full. -/
theorem create_drifted (hasc : Ascending t.neighs) (now ip : Nat) :
    ∃ t', Drifted t t' ∧ (t.create now ip = (false, t') ∨
      ∃ n, getKey ip t'.neighs = some n ∧ t.create now ip = (true, t')) := by
  unfold create
  split
  · rename_i hsome
    obtain ⟨n, hn⟩ := Option.isSome_iff_exists.mp hsome
    exact ⟨t, .refl hasc, .inr ⟨n, hn, rfl⟩⟩
  rename_i hnone
  rw [Option.not_isSome_iff_eq_none] at hnone
  have hadd (t' : NeighTable P) (h : Drifted t t') :
      let t₁ := { t' with neighs := insertKey ip (Neighbour.create now) t'.neighs }
      Drifted t t₁ ∧ ∃ n, getKey ip t₁.neighs = some n := by
    refine ⟨⟨h.asc.insertKey _ _, fun j => ?_, h.drops⟩,
      _, (getKey_insertKey h.asc ip).trans (if_pos rfl)⟩
    rw [getKey_insertKey h.asc]
    split
    · rename_i hj
      rw [hj, hnone]
      exact .created now
    · exact h.key j
  have hgc := forcedGc_drifted hasc now
  generalize t.forcedGc now = r at hgc
  dsimp only
  split
  · split
    · exact ⟨_, hgc, .inl rfl⟩
    · obtain ⟨hdrift, n, hn⟩ := hadd _ hgc
      exact ⟨_, hdrift, .inr ⟨n, hn, rfl⟩⟩
  · obtain ⟨hdrift, n, hn⟩ := hadd t (.refl hasc)
    exact ⟨_, hdrift, .inr ⟨n, hn, rfl⟩⟩

omit [Queued P] in
theorem touch_eq (now : Nat) (n : Neighbour P) : ∃ used, touch now n = { n with used := used } := by
  unfold touch
  split
  · exact ⟨_, rfl⟩
  · exact ⟨n.used, rfl⟩

/-- Only idle entries are not kept. -/
theorem not_keeps (hok : n.Ok) {now used : Nat}
    (h : ¬ keeps now { n with used := used } = true) : n.queue = [] ∧ n.timer = none := by
  simp only [keeps, Bool.or_eq_true, not_or, Bool.not_eq_true] at h
  have htimer := hok.timer
  rw [h.1] at htimer
  refine ⟨?_, Option.not_isSome_iff_eq_none.mp (by rw [htimer]; exact Bool.false_ne_true)⟩
  by_contra hqueue
  rw [hok.waiting hqueue] at h
  cases h.1

/-- **`periodic`** removes idle entries. -/
theorem periodic_drifted (hok : NeighOk t) (now rnd : Nat) : Drifted t (t.periodic now rnd) := by
  have hrand : ∃ lastRand reachableTime, (if t.lastRand + 300 * NEIGH_HZ < now ∨ t.lastRand = 0 then
      { t with lastRand := max now 1, reachableTime := randReachTime rnd BASE_REACHABLE_TIME }
      else t) = { t with lastRand := lastRand, reachableTime := reachableTime } := by
    split
    · exact ⟨_, _, rfl⟩
    · exact ⟨t.lastRand, t.reachableTime, rfl⟩
  obtain ⟨lastRand, reachableTime, hrand⟩ := hrand
  unfold periodic
  rw [hrand]
  dsimp only
  split
  · exact ⟨hok.asc, fun _ => .same _, rfl⟩
  have hmap : Ascending (t.neighs.map fun e => (e.1, touch now e.2)) :=
    List.pairwise_map.mpr hok.asc
  refine ⟨hmap.filter _, fun j => ?_, rfl⟩
  rw [getKey_filter_map hok.asc (touch now) (keeps now)]
  cases hget : getKey j t.neighs with
  | none => exact .same _
  | some n =>
    obtain ⟨used, htouch⟩ := touch_eq now n
    rw [Option.map_some, htouch, Option.filter_some]
    split
    · exact .touched n used
    · rename_i hkeep
      obtain ⟨hqueue, htimer⟩ := not_keeps (hok.ok j n hget) hkeep
      exact .gone n hqueue htimer

end NeighTable

/-! ## The lanes -/

/-- The table and what was handed to it as lanes. -/
structure Refines (s : Neighbours P) (handed : List P) (l : Lanes Nat P) : Prop where
  handed : l.handed = handed
  sent : l.sent = s.out.send.map Prod.snd
  reported : l.reported = s.out.errors
  lost : l.lost.length = s.t.drops
  lane : ∀ ip, l.lane ip = queueOf (getKey ip s.t.neighs)

section Lanes

variable {s s' : Neighbours P} {ip : Nat} {n : Neighbour P} {handed : List P} {l : Lanes Nat P}
  {hop : P → Nat} {given : Option P} {n' : Neighbour P} {sent : List (LinkAddr × P)}
  {asks drops : Nat} {errs : List P}

omit [Queued P] in
/-- Drifting entries are no step. -/
theorem Drifted.refines (h : Drifted s.t t') (hl : Refines s handed l) :
    Refines { s with t := t' } handed l :=
  ⟨hl.handed, hl.sent, hl.reported, hl.lost.trans h.drops.symm,
    fun ip => (hl.lane ip).trans (h.key ip).queueOf_eq.symm⟩

omit [Queued P] in
/-- Lanes that took what was put for `ip`. -/
theorem Refines.put {l' : Lanes Nat P} {handed' : List P} (hl : Refines s handed l)
    (h : Put s s' ip n' sent asks errs drops) (hhanded : l'.handed = handed')
    (hsent : l'.sent = l.sent ++ sent.map Prod.snd) (hreported : l'.reported = l.reported ++ errs)
    (hlost : l'.lost.length = l.lost.length + drops)
    (hlane : l'.lane = update l.lane ip n'.queue) : Refines s' handed' l' := by
  refine ⟨hhanded, ?_, ?_, ?_, fun j => ?_⟩
  · rw [hsent, hl.sent, h.send, List.map_append]
  · rw [hreported, hl.reported, h.errors]
  · rw [hlost, hl.lost, h.drops]
  · rw [hlane]
    by_cases hj : j = ip
    · rw [hj, update_self, h.get]
      rfl
    · rw [update_of_ne hj, h.other j hj]
      exact hl.lane j

theorem NeighOk.put (hok : NeighOk s.t) (h : Put s s' ip n' sent asks errs drops) (hn' : n'.Ok) :
    NeighOk s'.t := by
  refine ⟨h.asc, fun j m hm => ?_⟩
  by_cases hj : j = ip
  · rw [hj, h.get] at hm
    cases hm
    exact hn'
  · rw [h.other j hj] at hm
    exact hok.ok j m hm

/-- **What a call does to an entry is a step of the lanes.** -/
theorem Acted.lanes (h : Acted s s' ip n given) (hget : getKey ip s.t.neighs = some n)
    (hgiven : ∀ p, given = some p → hop p = ip) (hl : Refines s handed l) :
    ∃ l', Lanes.Steps hop l l' ∧ Refines s' (handed ++ given.toList) l' := by
  obtain ⟨n', sent, errs, drops, asks, hput, hact, -, -⟩ := h
  have hnone : l.handed = handed ++ [] := hl.handed.trans (append_nil _).symm
  have hlane : l.lane ip = n.queue := by rw [hl.lane, hget]; rfl
  have hself (hqueue : n'.queue = n.queue) : l.lane = update l.lane ip n'.queue := by
    rw [hqueue, ← hlane, update_eq_self]
  have hnil {xs : List P} : xs = xs ++ [] := (append_nil xs).symm
  cases hact with
  | quiet hqueue => exact ⟨l, .refl, hl.put hput hnone hnil hnil rfl (hself hqueue)⟩
  | pass p hqueue hempty hvalid =>
    have hidle : l.lane (hop p) = [] := by rw [hgiven p rfl, hlane, hempty]
    exact ⟨_, .single (.pass l p hidle),
      hl.put hput (by rw [hl.handed]; rfl) rfl hnil rfl (hself hqueue)⟩
  | hold p k hk hqueue =>
    refine ⟨_, .single (.wait l p drops), hl.put hput (by rw [hl.handed]; rfl) hnil hnil ?_ ?_⟩
    · rw [List.length_append, hgiven p rfl, hlane, List.length_take]
      omega
    · rw [hgiven p rfl, hlane, hqueue]
  | flush hqueue hvalid =>
    refine ⟨_, .single (.flush l ip), hl.put hput hnone ?_ hnil rfl (by rw [hqueue])⟩
    rw [hlane, List.map_map]
    exact congrArg _ (List.map_id _).symm
  | fail hqueue hstate =>
    refine ⟨_, .single (.fail l ip), hl.put hput hnone hnil ?_ rfl (by rw [hqueue])⟩
    rw [hlane]

end Lanes

/-! ## The calls -/

/-- The requests for `j` so far. -/
def Neighbours.asksFor (s : Neighbours P) (j : Nat) : Nat :=
  s.out.solicit.countP fun a => a.1 == j

/-- What a call does: it keeps the invariant and is steps of the lanes, counts the requests of
entries that ask, and sends to addresses that the entries have after it. -/
structure Stepped (hop : P → Nat) (s s' : Neighbours P) (given : List P) : Prop where
  ok : NeighOk s'.t
  more : ∀ j, s.asksFor j ≤ s'.asksFor j
  lanes : ∀ handed l, Refines s handed l → ∃ l', Lanes.Steps hop l l' ∧
    Refines s' (handed ++ given) l'
  asks : ∀ j, asksOf (getKey j s'.t.neighs) = true →
    requestsOf (getKey j s'.t.neighs) + s.asksFor j =
      requestsOf (getKey j s.t.neighs) + s'.asksFor j
  sends : ∃ new, s'.out.send = s.out.send ++ new ∧ ∀ e ∈ new, s'.t.lookup (hop e.2) = some e.1

section Calls

variable {s s' : Neighbours P} {ip : Nat} {n : Neighbour P} {hop : P → Nat} {given : List P}

theorem Stepped.refl (hop : P → Nat) (hok : NeighOk s.t) : Stepped hop s s [] :=
  ⟨hok, fun _ => Nat.le_refl _, fun handed l hl => ⟨l, .refl, by rw [append_nil]; exact hl⟩,
    fun _ _ => rfl, [], (append_nil _).symm, nofun⟩

/-- A call that acts on one entry. -/
theorem Acted.stepped {given : Option P} (h : Acted s s' ip n given) (hok : NeighOk s.t)
    (hget : getKey ip s.t.neighs = some n) (hgiven : ∀ p, given = some p → hop p = ip)
    (hown : ∀ p ∈ n.queue, hop p = ip) : Stepped hop s s' given.toList := by
  obtain ⟨n', sent, errs, drops, asks, hput, hact, hn', hcount⟩ := id h
  refine ⟨hok.put hput hn', fun j => ?_, fun handed l hl => h.lanes hget hgiven hl,
    fun j hasks => ?_, sent, hput.send, fun e he => ?_⟩
  · exact (Nat.le_add_right ..).trans_eq (hput.solicit j).symm
  · have hsolicit : s'.asksFor j = s.asksFor j + _ := hput.solicit j
    by_cases hj : j = ip
    · subst hj
      rw [hput.get] at hasks ⊢
      rw [hget, hsolicit, if_pos rfl]
      have hreq : n'.requests = n.requests + asks := hcount hasks
      show n'.requests + _ = n.requests + _
      omega
    · rw [hput.other j hj, hsolicit, if_neg hj, Nat.add_zero]
  · have hlookup (hvalid : n'.state.valid = true) : s'.t.lookup ip = some n'.ha := by
      unfold lookup
      rw [hput.get, Option.filter_some, if_pos hvalid]
      rfl
    cases hact with
    | quiet => cases he
    | pass p hqueue hempty hvalid =>
      rw [List.mem_singleton.mp he]
      rw [hgiven p rfl]
      exact hlookup hvalid
    | hold => cases he
    | flush hqueue hvalid =>
      obtain ⟨p, hp, rfl⟩ := mem_map.mp he
      rw [hown p hp]
      exact hlookup hvalid
    | fail => cases he

/-- Drifting before a call. -/
theorem Stepped.after (hok : NeighOk s.t) (hdrift : Drifted s.t t')
    (h : Stepped hop { s with t := t' } s' given) : Stepped hop s s' given := by
  refine ⟨h.ok, h.more, fun handed l hl => h.lanes handed l (hdrift.refines hl), fun j hasks => ?_,
    h.sends⟩
  have := h.asks j hasks
  rw [((hdrift.key j).asks_eq fun n => hok.ok j n).2] at this
  exact this

theorem Drifted.stepped (hdrift : Drifted s.t t') (hok : NeighOk s.t) :
    Stepped hop s { s with t := t' } [] :=
  .after hok hdrift (.refl hop (drifted_ok hdrift hok))

/-- Drifting after a call that sends nothing. -/
theorem Stepped.before (h : Stepped hop s s' given)
    (hdrift : Drifted s'.t t') (hquiet : s'.out.send = s.out.send) :
    Stepped hop s { s' with t := t' } given := by
  refine ⟨drifted_ok hdrift h.ok, h.more, fun handed l hl => ?_, fun j hasks => ?_,
    [], by rw [append_nil]; exact hquiet, nofun⟩
  · obtain ⟨l', hsteps, hl'⟩ := h.lanes handed l hl
    exact ⟨l', hsteps, hdrift.refines hl'⟩
  · obtain ⟨hask, hreq⟩ := (hdrift.key j).asks_eq fun n => h.ok.ok j n
    rw [hask] at hasks
    rw [hreq]
    exact h.asks j hasks

/-! ### The timers -/

/-- What the timers of a tick do to the entry `n` of `j`. -/
structure Timed (s s' : Neighbours P) (j : Nat) (n n' : Neighbour P) (asks : Nat) : Prop where
  get : getKey j s'.t.neighs = some n'
  count : s'.asksFor j = s.asksFor j + asks
  requests : n'.state.asks = true → n'.requests = n.requests + asks
  fails : n.state.asks = true → n.requests = 3 → n'.state = .failed ∧
    ∃ a b, s'.out.errors = s.out.errors ++ a ++ n.queue ++ b
  again : n.state.asks = true → n.requests ≠ 3 → n'.state = n.state ∧ asks = 1

/-- What the timers of the entries `ips` do. -/
structure Ticked (hop : P → Nat) (s s' : Neighbours P) (ips : List Nat) : Prop where
  ok : NeighOk s'.t
  lanes : ∀ handed l, Refines s handed l → ∃ l', Lanes.Steps hop l l' ∧ Refines s' handed l'
  send : s'.out.send = s.out.send
  errors : ∃ errs, s'.out.errors = s.out.errors ++ errs
  other : ∀ j, j ∉ ips → getKey j s'.t.neighs = getKey j s.t.neighs ∧ s'.asksFor j = s.asksFor j
  timed : ∀ j, j ∈ ips → ∀ n, getKey j s.t.neighs = some n → ∃ n' asks, Timed s s' j n n' asks

/-- **The timers** of a list of entries, one after the other. -/
theorem timers_spec (hop : P → Nat) (now : Nat) {ips : List Nat} (hnodup : ips.Nodup)
    (hok : NeighOk s.t) (hin : ∀ ip ∈ ips, ∃ n, getKey ip s.t.neighs = some n) :
    Ticked hop s (ips.foldl (fun s ip => s.timer now ip) s) ips := by
  induction ips generalizing s with
  | nil =>
    exact ⟨hok, fun handed l hl => ⟨l, .refl, hl⟩, rfl, ⟨[], (append_nil _).symm⟩,
      fun j _ => ⟨rfl, rfl⟩, nofun⟩
  | cons ip ips ih =>
    obtain ⟨hnew, hnodup⟩ := List.nodup_cons.mp hnodup
    rw [List.foldl_cons]
    obtain ⟨n₀, hget⟩ := hin ip List.mem_cons_self
    obtain ⟨n₀', errs₀, asks₀, hput, hact, hn₀', hasks, hfails, hagain⟩ :=
      timer_spec hok.asc hget (hok.ok ip n₀ hget) now
    have hacted : Acted s (s.timer now ip) ip n₀ none :=
      ⟨n₀', [], errs₀, 0, asks₀, hput, hact, hn₀', hasks⟩
    have hcount (j : Nat) : (s.timer now ip).asksFor j = s.asksFor j + _ := hput.solicit j
    generalize s.timer now ip = s₁ at hput hacted hcount ⊢
    have hok₁ : NeighOk s₁.t := hok.put hput hn₀'
    have hin₁ : ∀ j ∈ ips, ∃ n, getKey j s₁.t.neighs = some n := fun j hj => by
      rw [hput.other j fun h => hnew (h ▸ hj)]
      exact hin j (.tail _ hj)
    obtain ⟨hok', hlanes, hsend, ⟨errs, herrs⟩, hother, htimed⟩ := ih hnodup hok₁ hin₁
    generalize ips.foldl (fun s ip => s.timer now ip) s₁ = s₂ at hok' hlanes hsend herrs hother htimed ⊢
    have herrors := hput.errors
    refine ⟨hok', fun handed l hl => ?_, ?_, ⟨errs₀ ++ errs, ?_⟩, fun j hj => ?_, fun j hj n hn => ?_⟩
    · obtain ⟨l₁, hsteps₁, hl₁⟩ := hacted.lanes hget (nofun) hl
      rw [Option.toList_none, append_nil] at hl₁
      obtain ⟨l₂, hsteps₂, hl₂⟩ := hlanes handed l₁ hl₁
      exact ⟨l₂, hsteps₁.trans hsteps₂, hl₂⟩
    · rw [hsend, hput.send, append_nil]
    · rw [herrs, herrors, List.append_assoc]
    · have hne : j ≠ ip := fun heq => hj (heq ▸ List.mem_cons_self)
      obtain ⟨hget₂, hcount₂⟩ := hother j fun h => hj (.tail _ h)
      rw [hget₂, hput.other j hne, hcount₂, hcount, if_neg hne]
      exact ⟨rfl, rfl⟩
    · by_cases hj' : j = ip
      · -- Its own timer, and then no more.
        subst hj'
        rw [hget] at hn
        cases hn
        obtain ⟨hget₂, hcount₂⟩ := hother j hnew
        refine ⟨n₀', asks₀, hget₂.trans hput.get, ?_, hasks, fun ha hthree => ?_, hagain⟩
        · rw [hcount₂, hcount, if_pos rfl]
        · obtain ⟨hstate, rfl⟩ := hfails ha hthree
          refine ⟨hstate, [], errs, ?_⟩
          rw [herrs, herrors, append_nil]
      · -- The timers before it are of other entries.
        have hmem := (mem_cons.mp hj).resolve_left hj'
        obtain ⟨n', asks, ht⟩ := htimed j hmem n ((hput.other j hj').trans hn)
        refine ⟨n', asks, ht.get, ?_, ht.requests, fun ha hthree => ?_, ht.again⟩
        · rw [ht.count, hcount, if_neg hj', Nat.add_zero]
        · obtain ⟨hstate, a, b, heq⟩ := ht.fails ha hthree
          refine ⟨hstate, errs₀ ++ a, b, ?_⟩
          rw [heq, herrors]
          simp only [List.append_assoc]

omit [Queued P] in
theorem due_nodup (hasc : Ascending s.t.neighs) (now : Nat) : (s.t.due now).Nodup :=
  List.pairwise_map.mpr ((hasc.filter _).imp Nat.ne_of_lt)

omit [Queued P] in
theorem due_get (hasc : Ascending s.t.neighs) {now : Nat} :
    ∀ j ∈ s.t.due now, ∃ n, getKey j s.t.neighs = some n := by
  intro j hj
  obtain ⟨e, he, rfl⟩ := mem_map.mp hj
  exact ⟨e.2, (getKey_eq_some hasc).mpr (mem_filter.mp he).1⟩

/-- **`tick`**: the timers, and then entries go. -/
theorem tick_spec (hop : P → Nat) (hok : NeighOk s.t) (now rnd : Nat) :
    ∃ s₁ t', Ticked hop s s₁ (s.t.due now) ∧ Drifted s₁.t t' ∧
      s.tick now rnd = { s₁ with t := t' } := by
  have hticked := timers_spec hop now (due_nodup hok.asc now) hok (due_get hok.asc)
  unfold tick
  generalize (s.t.due now).foldl (fun s ip => s.timer now ip) s = s₁ at hticked ⊢
  dsimp only
  split
  · have hdrift := periodic_drifted hticked.ok now rnd
    exact ⟨s₁, { s₁.t.periodic now rnd with nextGc := now + BASE_REACHABLE_TIME / 2 }, hticked,
      ⟨hdrift.asc, hdrift.key, hdrift.drops⟩, rfl⟩
  · exact ⟨s₁, s₁.t, hticked, .refl hticked.ok.asc, rfl⟩

theorem tick_stepped (hop : P → Nat) (hok : NeighOk s.t) (now rnd : Nat) :
    Stepped hop s (s.tick now rnd) [] := by
  obtain ⟨s₁, t', ⟨hok₁, hlanes, hsend, -, hother, htimed⟩, hdrift, heq⟩ := tick_spec hop hok now rnd
  rw [heq]
  have hcases (j : Nat) : (∃ n n' asks, getKey j s.t.neighs = some n ∧ Timed s s₁ j n n' asks) ∨
      (getKey j s₁.t.neighs = getKey j s.t.neighs ∧ s₁.asksFor j = s.asksFor j) := by
    by_cases hdue : j ∈ s.t.due now
    · obtain ⟨n, hget⟩ := due_get hok.asc j hdue
      obtain ⟨n', asks, ht⟩ := htimed j hdue n hget
      exact .inl ⟨n, n', asks, hget, ht⟩
    · exact .inr (hother j hdue)
  refine Stepped.before ⟨hok₁, fun j => ?_, fun handed l hl => ?_, fun j hasks => ?_,
    [], by rw [append_nil]; exact hsend, nofun⟩ hdrift hsend
  · rcases hcases j with ⟨n, n', asks, -, ht⟩ | ⟨-, hcount⟩
    · rw [ht.count]
      exact Nat.le_add_right ..
    · rw [hcount]
  · rw [append_nil]
    exact hlanes handed l hl
  · rcases hcases j with ⟨n, n', asks, hget, ht⟩ | ⟨hget, hcount⟩
    · rw [ht.get] at hasks ⊢
      rw [hget, ht.count]
      have hreq : n'.requests = n.requests + asks := ht.requests hasks
      show n'.requests + _ = n.requests + _
      omega
    · rw [hget, hcount]

/-- A tick at an entry that asks and whose timer is due. -/
theorem tick_due (hok : NeighOk s.t) {now t : Nat} (hget : getKey ip s.t.neighs = some n)
    (hasks : n.state.asks = true) (htimer : n.timer = some t) (hdue : t ≤ now) (rnd : Nat) :
    (n.requests = 3 → (∀ n', getKey ip (s.tick now rnd).t.neighs = some n' → n'.state = .failed) ∧
      ∃ a b, (s.tick now rnd).out.errors = s.out.errors ++ a ++ n.queue ++ b) ∧
    (n.requests ≠ 3 → ∃ n', getKey ip (s.tick now rnd).t.neighs = some n' ∧ n'.state = n.state ∧
      (s.tick now rnd).asksFor ip = s.asksFor ip + 1) := by
  obtain ⟨s₁, t', hticked, hdrift, heq⟩ := tick_spec (fun _ => 0) hok now rnd
  have hmem : ip ∈ s.t.due now := by
    refine mem_map.mpr ⟨(ip, n), mem_filter.mpr ⟨(getKey_eq_some hok.asc).mp hget, ?_⟩, rfl⟩
    rw [htimer, Option.any_some]
    exact decide_eq_true hdue
  obtain ⟨n', asks, ht⟩ := hticked.timed ip hmem n hget
  rw [heq]
  have hkey := hdrift.key ip
  rw [ht.get] at hkey
  refine ⟨fun hthree => ?_, fun hfew => ?_⟩
  · obtain ⟨hstate, herrs⟩ := ht.fails hasks hthree
    refine ⟨fun m hm => ?_, herrs⟩
    rw [hm] at hkey
    cases hkey with
    | same => exact hstate
    | touched => exact hstate
  · obtain ⟨hstate, rfl⟩ := ht.again hasks hfew
    obtain ⟨m, hm, hsame⟩ := hkey.asking (hticked.ok.ok ip n' ht.get) (hstate ▸ hasks)
    exact ⟨m, hm, hsame.trans hstate, ht.count⟩

/-- A packet that there is no entry for is dropped. -/
theorem drop_stepped (hop : P → Nat) (hok : NeighOk s.t) (p : P) : Stepped hop s (s.drop 1) [p] := by
  refine ⟨⟨hok.asc, hok.ok⟩, fun _ => Nat.le_refl _, fun handed l hl => ?_, fun _ _ => rfl,
    [], (append_nil _).symm, nofun⟩
  refine ⟨_, .single (.refuse l p), ⟨?_, hl.sent, hl.reported, ?_, hl.lane⟩⟩
  · rw [hl.handed]
  · rw [List.length_append, hl.lost]
    rfl

variable (hok : NeighOk s.t) (hown : ∀ j, ∀ p ∈ queueOf (getKey j s.t.neighs), hop p = j)

include hok hown

/-- A call that acts on an entry after drifting. -/
theorem Drifted.acted {given : Option P} (hdrift : Drifted s.t t')
    (hget : getKey ip t'.neighs = some n) (hact : n.Ok → Acted { s with t := t' } s' ip n given)
    (hgiven : ∀ p, given = some p → hop p = ip) : Stepped hop s s' given.toList := by
  have hok' := drifted_ok hdrift hok
  refine .after hok hdrift (Acted.stepped (hact (hok'.ok ip n hget)) hok' hget hgiven
    fun p hp => hown ip p ?_)
  rw [← (hdrift.key ip).queueOf_eq, hget]
  exact hp

/-- **`output`.** -/
theorem output_stepped (now : Nat) {p : P} (hip : hop p = ip) :
    Stepped hop s (s.output now ip p) [p] := by
  unfold output
  obtain ⟨t', hdrift, hno | ⟨n, hget, hyes⟩⟩ := create_drifted hok.asc now ip
  · rw [hno]
    exact .after hok hdrift (drop_stepped hop (drifted_ok hdrift hok) p)
  · rw [hyes]
    show Stepped hop s _ (some p).toList
    refine hdrift.acted hok hown hget (fun hn => ?_) ?_
    · obtain ⟨n', sent, drops, asks, hput, hact, hn', hasks, -⟩ :=
        transmit_spec (s := { s with t := t' }) hdrift.asc hget hn now p
      exact ⟨n', sent, [], drops, asks, hput, hact, hn', hasks⟩
    · rintro q ⟨⟩
      exact hip

/-- **`resolve`.** -/
theorem resolve_stepped (now ip : Nat) : Stepped hop s (s.resolve now ip).2 [] := by
  unfold resolve
  obtain ⟨t', hdrift, hno | ⟨n, hget, hyes⟩⟩ := create_drifted hok.asc now ip
  · rw [hno]
    exact hdrift.stepped hok
  · rw [hyes]
    exact hdrift.acted hok hown hget (fun hn => eventSend_acted hdrift.asc hget hn now) nofun

/-- **`arp_input`.** -/
theorem arpInput_stepped (now : Nat) (arp : List Byte) (toUs : Bool) (ourIp : Nat) :
    Stepped hop s (s.arpInput now arp toUs ourIp).2 [] := by
  have hrefl : Stepped hop s s [] := .refl hop hok
  unfold arpInput
  dsimp only
  -- The packets that nothing is learnt from.
  iterate 6
    split
    · exact hrefl
  split
  · -- A request for our address.
    obtain ⟨t', hdrift, hno | ⟨n, hget, hyes⟩⟩ := create_drifted hok.asc now
      (beNat ((arp.drop 14).take 4))
    · rw [hno]
      exact hdrift.stepped hok
    · rw [hyes]
      exact hdrift.acted hok hown hget
        (fun hn => update_acted hdrift.asc hget hn now _ (.inr rfl) true) nofun
  · -- An entry that is there.
    split
    · exact hrefl
    rename_i n hget
    exact Acted.stepped (update_acted hok.asc hget (hok.ok _ n hget) now _ (ite_eq_or_eq ..) _)
      hok hget (nofun) fun p hp => hown _ p (by rw [hget]; exact hp)

end Calls

/-! ## Runs -/

/-- The calls. -/
inductive NeighCall (P : Type*)
  | output (now ip : Nat) (p : P)
  | resolve (now ip : Nat)
  | arpInput (now : Nat) (arp : List Byte) (toUs : Bool) (ourIp : Nat)
  | tick (now rnd : Nat)

namespace NeighCall

/-- The packets that a call hands over. -/
def given : NeighCall P → List P
  | output _ _ p => [p]
  | _ => []

/-- A packet is handed over for its next hop. -/
def Fits (hop : P → Nat) : NeighCall P → Prop
  | output _ ip p => hop p = ip
  | _ => True

end NeighCall

/-- The table after a call. -/
def Neighbours.call (s : Neighbours P) : NeighCall P → Neighbours P
  | .output now ip p => s.output now ip p
  | .resolve now ip => (s.resolve now ip).2
  | .arpInput now arp toUs ourIp => (s.arpInput now arp toUs ourIp).2
  | .tick now rnd => s.tick now rnd

theorem Neighbours.call_stepped {s : Neighbours P} {hop : P → Nat} (hok : NeighOk s.t)
    (hown : ∀ j, ∀ p ∈ queueOf (getKey j s.t.neighs), hop p = j) (c : NeighCall P)
    (hfits : c.Fits hop) : Stepped hop s (s.call c) c.given := by
  cases c with
  | output now ip p => exact output_stepped hok hown now hfits
  | resolve now ip => exact resolve_stepped hok hown now ip
  | arpInput now arp toUs ourIp => exact arpInput_stepped hok hown now arp toUs ourIp
  | tick now rnd => exact tick_stepped hop hok now rnd

/-- **Without an answer** an entry that asks goes on asking, until its timer finds that it has
asked three times. -/
theorem Neighbours.call_asks {s : Neighbours P} {ip : Nat} (hok : NeighOk s.t)
    (hget : getKey ip s.t.neighs = some n) (hasks : n.state.asks = true) (c : NeighCall P)
    (hc : ∀ now arp toUs ourIp, c ≠ .arpInput now arp toUs ourIp) :
    (∃ n', getKey ip (s.call c).t.neighs = some n' ∧ n'.state = n.state) ∨
      (n.requests = 3 ∧ ∃ now rnd t, c = .tick now rnd ∧ n.timer = some t ∧ t ≤ now) := by
  have hn := hok.ok ip n hget
  -- After `create` the entry is still there.
  have hkept {t' : NeighTable P} (hdrift : Drifted s.t t') :
      ∃ m, getKey ip t'.neighs = some m ∧ m.state = n.state := by
    have hkey := hdrift.key ip
    rw [hget] at hkey
    exact hkey.asking hn hasks
  -- And it is so after a change of the entry of `j`.
  have hthere {t' : NeighTable P} (hdrift : Drifted s.t t') {s₂ : Neighbours P}
      {j asks drops : Nat} {m' n' : Neighbour P} {errs : List P} {sent : List (LinkAddr × P)}
      (hput : Put { s with t := t' } s₂ j n' sent asks errs drops)
      (hm' : getKey j t'.neighs = some m') (hsame : m'.state.asks = true → n'.state = m'.state) :
      ∃ n', getKey ip s₂.t.neighs = some n' ∧ n'.state = n.state := by
    obtain ⟨m, hm, hstate⟩ := hkept hdrift
    by_cases hj : ip = j
    · subst hj
      rw [hm] at hm'
      cases hm'
      exact ⟨n', hput.get, (hsame (by rw [hstate]; exact hasks)).trans hstate⟩
    · exact ⟨m, (hput.other ip hj).trans hm, hstate⟩
  cases c with
  | arpInput now arp toUs ourIp => exact absurd rfl (hc now arp toUs ourIp)
  | output now j p =>
    left
    show ∃ n', getKey ip (s.output now j p).t.neighs = some n' ∧ _
    unfold output
    obtain ⟨t', hdrift, hno | ⟨m', hm', hyes⟩⟩ := create_drifted hok.asc now j
    · obtain ⟨m, hm⟩ := hkept hdrift
      rw [hno]
      exact ⟨m, hm⟩
    · rw [hyes]
      obtain ⟨n', _, _, _, hput, -, -, -, hsame⟩ := transmit_spec (s := { s with t := t' })
        hdrift.asc hm' ((drifted_ok hdrift hok).ok j m' hm') now p
      exact hthere hdrift hput hm' hsame
  | resolve now j =>
    left
    show ∃ n', getKey ip (s.resolve now j).2.t.neighs = some n' ∧ _
    unfold resolve
    obtain ⟨t', hdrift, hno | ⟨m', hm', hyes⟩⟩ := create_drifted hok.asc now j
    · rw [hno]
      exact hkept hdrift
    · rw [hyes]
      obtain ⟨n', _, _, hput, -, -, hsame, -⟩ := eventSend_spec (s := { s with t := t' })
        hdrift.asc hm' ((drifted_ok hdrift hok).ok j m' hm') now none
      exact hthere hdrift hput hm' hsame
  | tick now rnd =>
    cases htimer : n.timer with
    | none => exact absurd htimer (hn.timer_ne_none hasks)
    | some t =>
      by_cases hdue : t ≤ now
      · obtain ⟨-, hagain⟩ := tick_due hok hget hasks htimer hdue rnd
        by_cases hthree : n.requests = 3
        · exact .inr ⟨hthree, now, rnd, t, rfl, rfl, hdue⟩
        · obtain ⟨n', hget', hstate, -⟩ := hagain hthree
          exact .inl ⟨n', hget', hstate⟩
      · -- Its timer does not fire.
        left
        obtain ⟨s₁, t', hticked, hdrift, heq⟩ := tick_spec (fun _ => 0) hok now rnd
        have hnot : ip ∉ s.t.due now := by
          intro hmem
          obtain ⟨e, he, rfl⟩ := mem_map.mp hmem
          obtain ⟨hmem, hfires⟩ := mem_filter.mp he
          have heq := (getKey_eq_some hok.asc).mpr hmem
          rw [hget] at heq
          cases heq
          rw [htimer, Option.any_some, decide_eq_true_eq] at hfires
          exact hdue hfires
        show ∃ n', getKey ip (s.tick now rnd).t.neighs = some n' ∧ _
        rw [heq]
        have hkey := hdrift.key ip
        rw [(hticked.other ip hnot).1, hget] at hkey
        exact hkey.asking hn hasks

/-- The table with the packets handed to it and the requests for each entry since it began to
ask. -/
structure NeighState (P : Type*) where
  s : Neighbours P
  handed : List P
  asked : Nat → Nat

namespace NeighState

variable {hop : P → Nat} {st : NeighState P}

/-- Nothing yet. -/
def new : NeighState P := ⟨.new, [], fun _ => 0⟩

/-- One call. The requests of an entry that asks are counted from when it began. -/
def step (st : NeighState P) (c : NeighCall P) : NeighState P :=
  let s' := st.s.call c
  ⟨s', st.handed ++ c.given, fun j =>
    if asksOf (getKey j s'.t.neighs) then
      (if asksOf (getKey j st.s.t.neighs) then st.asked j else 0) + (s'.asksFor j - st.s.asksFor j)
    else 0⟩

theorem step_asked (st : NeighState P) {c : NeighCall P} {j : Nat}
    (h : asksOf (getKey j (st.s.call c).t.neighs) = true) : (st.step c).asked j =
      (if asksOf (getKey j st.s.t.neighs) then st.asked j else 0) +
        ((st.s.call c).asksFor j - st.s.asksFor j) := if_pos h

/-- The invariant of runs. -/
structure Ok (hop : P → Nat) (st : NeighState P) : Prop where
  ok : NeighOk st.s.t
  lanes : ∃ l, l.Ok hop ∧ Refines st.s st.handed l
  asked : ∀ j, asksOf (getKey j st.s.t.neighs) = true →
    st.asked j = requestsOf (getKey j st.s.t.neighs)

theorem ok_new : (new : NeighState P).Ok hop where
  ok := ⟨.nil, nofun⟩
  lanes := ⟨_, Lanes.ok_empty, rfl, rfl, rfl, rfl, fun _ => rfl⟩
  asked _ h := nomatch h

theorem Ok.own (h : st.Ok hop) : ∀ j, ∀ p ∈ queueOf (getKey j st.s.t.neighs), hop p = j := by
  obtain ⟨l, hl, href⟩ := h.lanes
  intro j p hp
  rw [← href.lane j] at hp
  exact hl.own j p hp

omit [Queued P] in
theorem requestsOf_eq_zero {o : Option (Neighbour P)} (h : asksOf o = false) : requestsOf o = 0 := by
  cases o with
  | none => rfl
  | some n => exact if_neg (by rw [show n.state.asks = false from h]; exact Bool.false_ne_true)

/-- **One call** keeps the invariant. -/
theorem Ok.step (h : st.Ok hop) (c : NeighCall P) (hfits : c.Fits hop) : (st.step c).Ok hop := by
  have hcall := call_stepped h.ok h.own c hfits
  refine ⟨hcall.ok, ?_, fun j hasks => ?_⟩
  · obtain ⟨l, hl, href⟩ := h.lanes
    obtain ⟨l', hsteps, href'⟩ := hcall.lanes st.handed l href
    exact ⟨l', hl.steps hsteps, href'⟩
  · have hreq := hcall.asks j hasks
    have hmore := hcall.more j
    rw [st.step_asked hasks]
    show _ = requestsOf (getKey j (st.s.call c).t.neighs)
    cases hbefore : asksOf (getKey j st.s.t.neighs) with
    | true =>
      rw [if_pos rfl, h.asked j hbefore]
      omega
    | false =>
      rw [requestsOf_eq_zero hbefore] at hreq
      rw [if_neg Bool.false_ne_true]
      omega

/-- **The invariant** after any calls. -/
theorem ok_run {calls : List (NeighCall P)}
    (hrun : Run (fun st c st' => c.Fits hop ∧ st' = st.step c) new calls st) : st.Ok hop := by
  refine hrun.invariant (fun st c st' hst hstep => ?_) ok_new
  rw [hstep.2]
  exact hst.step c hstep.1

end NeighState

/-- **The neighbour table loses nothing.** After any calls, for every next hop: what was
handed over for it is, packet for packet, sent, waiting, reported or dropped, and what is
sent or waits is in the order it came in. Only entries that ask for the first time have
packets waiting, the timer runs in the four states that need it, and an entry has asked one
to three times. What a call sends goes to the address that the entry has. A timer that is
due at an entry that has asked three times fails it and reports its queue, and otherwise
makes it ask once more; without an ARP packet nothing else stops an entry from asking. -/
theorem neigh_run (hop : P → Nat) {calls : List (NeighCall P)} {st : NeighState P}
    (hrun : Run (fun st c st' => c.Fits hop ∧ st' = st.step c) NeighState.new calls st) :
    (∃ lost : List P, lost.length = st.s.t.drops ∧ ∀ ip,
      (Lanes.itemsFor hop ip st.handed).Perm
        (Lanes.itemsFor hop ip (st.s.out.send.map Prod.snd) ++ queueOf (getKey ip st.s.t.neighs) ++
          Lanes.itemsFor hop ip st.s.out.errors ++ Lanes.itemsFor hop ip lost) ∧
      (Lanes.itemsFor hop ip (st.s.out.send.map Prod.snd) ++
        queueOf (getKey ip st.s.t.neighs)).Sublist (Lanes.itemsFor hop ip st.handed)) ∧
    (∀ ip n, getKey ip st.s.t.neighs = some n → (n.queue ≠ [] → n.state = .incomplete) ∧
      (n.timer.isSome = true ↔ n.state = .incomplete ∨ n.state = .reachable ∨ n.state = .delay ∨
        n.state = .probe) ∧
      (n.state = .incomplete ∨ n.state = .probe → 1 ≤ st.asked ip ∧ st.asked ip ≤ 3)) ∧
    (∀ c : NeighCall P, c.Fits hop → ∃ sent, (st.s.call c).out.send = st.s.out.send ++ sent ∧
      ∀ e ∈ sent, (st.s.call c).t.lookup (hop e.2) = some e.1) ∧
    (∀ ip n t now rnd, getKey ip st.s.t.neighs = some n → n.state = .incomplete ∨ n.state = .probe →
      n.timer = some t → t ≤ now →
      (st.asked ip = 3 →
        (∀ n', getKey ip (st.step (.tick now rnd)).s.t.neighs = some n' → n'.state = .failed) ∧
        ∃ a b, (st.step (.tick now rnd)).s.out.errors = st.s.out.errors ++ a ++ n.queue ++ b) ∧
      (st.asked ip ≠ 3 → (st.step (.tick now rnd)).asked ip = st.asked ip + 1 ∧
        ∃ n', getKey ip (st.step (.tick now rnd)).s.t.neighs = some n' ∧ n'.state = n.state)) ∧
    (∀ ip n c, getKey ip st.s.t.neighs = some n → n.state = .incomplete ∨ n.state = .probe →
      (∀ now arp toUs ourIp, c ≠ .arpInput now arp toUs ourIp) →
      (∃ n', getKey ip (st.step c).s.t.neighs = some n' ∧ n'.state = n.state) ∨
      (st.asked ip = 3 ∧ ∃ now rnd t, c = .tick now rnd ∧ n.timer = some t ∧ t ≤ now)) := by
  have hok := NeighState.ok_run hrun
  have hasks {n : Neighbour P} (h : n.state = .incomplete ∨ n.state = .probe) :
      n.state.asks = true := by
    rcases h with h | h <;> rw [h] <;> rfl
  have hasked {ip : Nat} {n : Neighbour P} (hget : getKey ip st.s.t.neighs = some n)
      (h : n.state.asks = true) : st.asked ip = n.requests := by
    have := hok.asked ip (by rw [hget]; exact h)
    rw [this, hget]
    rfl
  refine ⟨?_, fun ip n hget => ⟨(hok.ok.ok ip n hget).waiting, ?_, fun h => ?_⟩, fun c hfits => ?_,
    fun ip n t now rnd hget h htimer hdue => ?_, fun ip n c hget h hc => ?_⟩
  · obtain ⟨l, hl, href⟩ := hok.lanes
    refine ⟨l.lost, href.lost, fun ip => ?_⟩
    rw [← href.handed, ← href.sent, ← href.reported, ← href.lane]
    exact ⟨hl.perm ip, hl.order ip⟩
  · rw [(hok.ok.ok ip n hget).timer]
    cases n.state <;> simp [Nud.inTimer]
  · obtain ⟨hlt, hle⟩ := (hok.ok.ok ip n hget).asked (hasks h)
    have hreq : n.requests = n.probes - n.base := if_pos (hasks h)
    rw [hasked hget (hasks h)]
    omega
  · exact (call_stepped hok.ok hok.own c hfits).sends
  · obtain ⟨hfails, hagain⟩ := tick_due hok.ok hget (hasks h) htimer hdue rnd
    rw [hasked hget (hasks h)]
    refine ⟨hfails, fun hfew => ?_⟩
    obtain ⟨n', hget', hstate, hcount⟩ := hagain hfew
    refine ⟨?_, n', hget', hstate⟩
    have hafter : asksOf (getKey ip (st.s.call (.tick now rnd)).t.neighs) = true := by
      show asksOf (getKey ip (st.s.tick now rnd).t.neighs) = true
      rw [hget', ← hasks h, ← hstate]
      rfl
    have hbefore : asksOf (getKey ip st.s.t.neighs) = true := by
      rw [hget]
      exact hasks h
    rw [st.step_asked hafter, if_pos hbefore, hasked hget (hasks h)]
    show n.requests + ((st.s.tick now rnd).asksFor ip - st.s.asksFor ip) = n.requests + 1
    omega
  · rw [hasked hget (hasks h)]
    exact call_asks hok.ok hget (hasks h) c hc

/-- A packet by its next hop and its size. -/
structure SizedPacket where
  hop : Nat
  size : Nat

instance : Queued SizedPacket := ⟨SizedPacket.size⟩

/-- A packet to a next hop that does not answer: two ticks later it has been asked for three
times, and the next tick reports the packet. -/
theorem neigh_run_unanswered : ∃ st : NeighState SizedPacket,
    Run (fun st c st' => c.Fits SizedPacket.hop ∧ st' = st.step c) NeighState.new
      [.output 0 1 ⟨1, 60⟩, .tick 100 0, .tick 200 0] st ∧ st.asked 1 = 3 ∧
    ∃ a b, (st.step (.tick 300 0)).s.out.errors = st.s.out.errors ++ a ++ [⟨1, 60⟩] ++ b := by
  have hrun : Run (fun st c st' => c.Fits SizedPacket.hop ∧ st' = st.step c) NeighState.new
      [.output 0 1 ⟨1, 60⟩, .tick 100 0, .tick 200 0] _ :=
    .cons ⟨rfl, rfl⟩ (.cons ⟨trivial, rfl⟩ (.cons ⟨trivial, rfl⟩ (.nil _)))
  refine ⟨_, hrun, by decide, ?_⟩
  exact (((neigh_run SizedPacket.hop hrun).2.2.2.1 1 _ 300 300 0 rfl (.inl rfl) rfl (Nat.le_refl _)).1
    (by decide)).2

end NopeekOS.Net
