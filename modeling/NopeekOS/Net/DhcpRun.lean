import NopeekOS.Net.DhcpTick

/-!
# What holds of every run of the DHCP client

Any sequence of calls with arbitrary datagrams, random numbers and clock readings, the first on a
new client. The events reported follow the protocol of `DhcpLife` from the first on
(`Ctx.Logged`), and a lease that was granted is held, until an ACK replaces it, it is reported
Expired or the caller stops the client (`since_held`). The clock need not even be monotone.
-/

namespace NopeekOS.Net.Dhcp

open Lib Event
open Option (some)
open List (append_assoc mem_append_left mem_append_right replicate)

/-! ## One call -/

variable {x : Ctx} {now : Nat} {l : Lease} {toLeaseAddr : Bool}

theorem receive_ne_none {b : List Byte}
    (h : x.accepts b toLeaseAddr now = some l) : x.receive b toLeaseAddr now ≠ none := by
  unfold Ctx.accepts at h
  unfold Ctx.receive
  split at h
  · cases h
  next hhears =>
  rw [if_neg hhears]
  split at h
  · next l' hparse =>
    rw [hparse]
    simp
  · cases h

variable {y : Ctx}

/-- A call that hands over an ACK the client takes: it holds the lease, and moves on. -/
theorem Step.granted {b : List Byte}
    (h : Step x (.receive b toLeaseAddr now) y) (hacc : x.accepts b toLeaseAddr now = some l) :
    ∃ evs, x.client.state ≠ .bound ∧ Moves (x.enterBound l now) evs y := by
  obtain ⟨-, fuel, h⟩ := h
  rw [Ctx.call] at h
  -- What is taken was received: only then is there an ACK.
  cases hr : x.receive b toLeaseAddr now with
  | none => exact absurd hr (receive_ne_none hacc)
  | some z =>
    rcases receive_cases hr with ⟨hnone, -⟩ | ⟨l', hacc', hs, rfl⟩
    · rw [hacc] at hnone
      cases hnone
    obtain rfl : l = l' := some.inj (hacc.symm.trans hacc')
    rw [hr] at h
    obtain ⟨⟨evs, hy⟩, -⟩ := Moves.tick (Follows.enterBound hs l now).1.wf h
    exact ⟨evs, hs, hy⟩

variable {c : Call}

/-- What a call did: the client moved, or it was stopped, or it took an ACK and moved on. -/
theorem Step.cases (hwf : x.client.Wf) (h : Step x c y) :
    (∃ evs, Moves x evs y) ∨ (c = .stop ∧ y = x.stop) ∨
      ∃ b toLeaseAddr now l evs, c = .receive b toLeaseAddr now ∧
        x.accepts b toLeaseAddr now = some l ∧ x.client.state ≠ .bound ∧
        Moves (x.enterBound l now) evs y := by
  obtain ⟨hstart, fuel, h⟩ := h
  cases c with
  | start now =>
    have hin := Moves.start (hstart now rfl) now
    obtain ⟨⟨evs, hy⟩, -⟩ := Moves.tick hin.wf h
    exact .inl ⟨_, hin.trans hy⟩
  | stop => exact .inr (.inl ⟨rfl, (some.inj h).symm⟩)
  | receive b toLeaseAddr now =>
    cases hacc : x.accepts b toLeaseAddr now with
    | none =>
      refine .inl (Moves.ticked hwf (fun z hz => ?_) h)
      rcases receive_cases hz with ⟨-, hm⟩ | ⟨l, hl, -⟩
      · exact hm
      · rw [hacc] at hl
        cases hl
    | some l =>
      obtain ⟨evs, hs, hm⟩ := Step.granted ⟨hstart, fuel, h⟩ hacc
      exact .inr (.inr ⟨b, toLeaseAddr, now, l, evs, rfl, hacc, hs, hm⟩)
  | tick now => exact .inl (Moves.tick hwf h).1
  | sendRenew now =>
    exact .inl (Moves.ticked hwf (fun z hz => ⟨[], Moves.sendRenew hwf hz⟩) h)
  | sendDecline now => exact .inl (Moves.ticked hwf (fun z hz => Moves.sendDecline hwf hz) h)
  | setRequestAddress a =>
    obtain rfl := some.inj h
    exact .inl ⟨[], .silent rfl rfl rfl { hwf with }⟩
  | setMtu mtu =>
    obtain rfl := some.inj h
    refine .inl ⟨[], ?_⟩
    unfold Client.setMtu
    split <;> exact .silent rfl rfl rfl { hwf with }

/-- Every call follows the protocol. -/
theorem Step.follows (hwf : x.client.Wf) (h : Step x c y) : ∃ evs, Follows x evs y := by
  rcases h.cases hwf with ⟨evs, hm⟩ | ⟨-, rfl⟩ | ⟨b, d, now, l, evs, -, -, hs, hm⟩
  · exact ⟨evs, hm.toFollows⟩
  · exact ⟨_, (Follows.stop x).1⟩
  · exact ⟨_, (Follows.enterBound hs l now).1.trans hm.toFollows⟩

/-! ## The log -/

/-- The log of a client: it keeps to the protocol, and says whether a lease is held. -/
structure Ctx.Logged (x : Ctx) : Prop where
  wf : x.client.Wf
  accepts : Session.Accepts kind false x.out.events
  after : Session.after kind false x.out.events = x.client.state.held

theorem Ctx.Logged.new (hw : Vector Byte 6) (mtu : Nat) (rnd : Nat → Nat) :
    (Ctx.new hw mtu rnd).Logged where
  wf := .of_unheld rfl rfl rfl rfl (fun h => absurd rfl h)
  accepts := Session.accepts_nil
  after := rfl

theorem Ctx.Logged.step (h : x.Logged) (hstep : Step x c y) : y.Logged := by
  obtain ⟨evs, hf⟩ := hstep.follows h.wf
  refine ⟨hf.wf, ?_, ?_⟩
  · rw [hf.events, Session.accepts_append, h.after]
    exact ⟨h.accepts, hf.accepts⟩
  · rw [hf.events, Session.after_append, h.after]
    exact hf.after

variable {calls : List Call}

theorem Ctx.Logged.run (h : x.Logged) (hrun : Run Step x calls y) : y.Logged :=
  hrun.invariant (fun _ _ _ hI hstep => hI.step hstep) h

/-- The clock a call reads. -/
def Call.clock : Call → Option Nat
  | .start now | .receive _ _ now | .tick now | .sendRenew now | .sendDecline now => some now
  | .stop | .setRequestAddress _ | .setMtu _ => none

/-- **Every call returns** after any calls, while the clock is below `u64::MAX`. -/
theorem calls_return {hw : Vector Byte 6} {mtu : Nat} {rnd : Nat → Nat}
    (hrun : Run Step (.new hw mtu rnd) calls x)
    (hstart : ∀ now, c = .start now → x.client.state = .stopped)
    (hclock : ∀ now, c.clock = some now → now < INFINITY) : ∃ y, Step x c y := by
  have hwf := ((Ctx.Logged.new hw mtu rnd).run hrun).wf
  suffices h : ∃ fuel y, x.call fuel c = some y by
    obtain ⟨fuel, y, hy⟩ := h
    exact ⟨y, hstart, fuel, hy⟩
  -- Before its `tick` a call leaves a well-formed client.
  have hticked : ∀ now (r : Option Ctx), now < INFINITY → (∀ z, r = some z → z.client.Wf) →
      ∃ fuel y, x.ticked fuel now r = some y := by
    intro now r hnow hr
    cases r with
    | none => exact ⟨0, x, rfl⟩
    | some z => exact Returns.of_lt (hr z rfl) hnow
  cases c with
  | start now => exact Returns.of_lt (Moves.start (hstart now rfl) now).wf (hclock now rfl)
  | stop => exact ⟨0, _, rfl⟩
  | receive b toLeaseAddr now =>
    refine hticked now _ (hclock now rfl) fun z hz => ?_
    rcases receive_cases hz with ⟨-, evs, hm⟩ | ⟨l, -, hs, rfl⟩
    · exact hm.wf
    · exact (Follows.enterBound hs l now).1.wf
  | tick now => exact Returns.of_lt hwf (hclock now rfl)
  | sendRenew now => exact hticked now _ (hclock now rfl) fun z hz => (Moves.sendRenew hwf hz).wf
  | sendDecline now =>
    refine hticked now _ (hclock now rfl) fun z hz => ?_
    obtain ⟨evs, hm⟩ := Moves.sendDecline hwf hz
    exact hm.wf
  | setRequestAddress a => exact ⟨0, _, rfl⟩
  | setMtu mtu => exact ⟨0, _, rfl⟩

/-- A client is started, its timers run, a datagram arrives that is none of its own, and its
timers run again. -/
theorem calls_return_start : ∃ x y,
    Run Step (.new (Vector.replicate 6 2) 1500 fun _ => 0)
      [.start 0, .tick 10000000, .receive [] false 20000000] x ∧ Step x (.tick 90000000) y := by
  have hnew : Run Step (.new (Vector.replicate 6 2) 1500 fun _ => 0) [] _ := .nil _
  obtain ⟨x₁, h₁⟩ := calls_return hnew (c := .start 0) (fun _ _ => rfl)
    fun _ h => by cases h; decide
  obtain ⟨x₂, h₂⟩ := calls_return (.single h₁) (c := .tick 10000000) nofun
    fun _ h => by cases h; decide
  obtain ⟨x₃, h₃⟩ := calls_return (.cons h₁ (.single h₂)) (c := .receive [] false 20000000) nofun
    fun _ h => by cases h; decide
  have hrun := Run.cons h₁ (.cons h₂ (.single h₃))
  obtain ⟨y, hy⟩ := calls_return hrun (c := .tick 90000000) nofun fun _ h => by cases h; decide
  exact ⟨x₃, y, hrun, hy⟩

/-- The log only grows. -/
theorem Ctx.events_run (hwf : x.client.Wf) (hrun : Run Step x calls y) :
    ∃ rest, y.out.events = x.out.events ++ rest := by
  induction hrun with
  | nil x => exact ⟨[], by simp⟩
  | cons hstep _ ih =>
    obtain ⟨evs, hf⟩ := hstep.follows hwf
    obtain ⟨rest, hrest⟩ := ih hf.wf
    exact ⟨evs ++ rest, by rw [hrest, hf.events, append_assoc]⟩

/-! ## From the moment a lease is granted -/

theorem grants_of_opens {e : Event} (h : e.kind = .opens) : e.grants = true := by
  cases e <;> simp_all [kind, grants]

variable {evs : List Event}

/-- Without an ACK no session opens. -/
theorem Follows.unheld (h : Follows x evs y) (hx : x.client.state.held = false)
    (hq : ∀ e ∈ evs, e.grants = false) : y.client.state.held = false := by
  rw [← h.after, hx]
  refine Session.after_false_of_no_opens fun e he hopens => ?_
  have := (grants_of_opens hopens).symm.trans (hq e he)
  cases this

/-- A move that reports Expired leaves no lease. -/
theorem Moves.unheld_of_expired (h : Moves x evs y) (hexp : expired ∈ evs) :
    y.client.state.held = false := by
  rw [← h.after]
  refine Session.after_false_of_closes ⟨_, hexp, rfl⟩ fun e he hopens => ?_
  have := (grants_of_opens hopens).symm.trans (h.quiet e he)
  cases this

variable {z : Ctx}

/-- From a client without a lease: an ACK is taken, or there is none at the end either. -/
theorem since_unheld (hwf : y.client.Wf) (hy : y.client.state.held = false)
    (hrun : Run Step y calls z) :
    ∃ since, z.out.events = y.out.events ++ since ∧
      ((∃ g ∈ since, g.grants = true) ∨ z.client.state.held = false) := by
  induction hrun with
  | nil y => exact ⟨[], by simp, .inr hy⟩
  | cons hstep hrest ih =>
    obtain ⟨evs, hf⟩ := hstep.follows hwf
    by_cases hg : ∃ g ∈ evs, g.grants = true
    · -- Whatever comes behind it, the ACK is in the log.
      obtain ⟨g, hmem, hgrants⟩ := hg
      obtain ⟨rest, hev⟩ := Ctx.events_run hf.wf hrest
      exact ⟨evs ++ rest, by rw [hev, hf.events, append_assoc],
        .inl ⟨g, mem_append_left _ hmem, hgrants⟩⟩
    · have hq : ∀ e ∈ evs, e.grants = false := fun e he => by
        by_contra hne
        exact hg ⟨e, he, by simpa using hne⟩
      obtain ⟨since, hev, hend⟩ := ih hf.wf (hf.unheld hy hq)
      refine ⟨evs ++ since, by rw [hev, hf.events, append_assoc], ?_⟩
      rcases hend with ⟨g, hmem, hgrants⟩ | hz
      · exact .inl ⟨g, mem_append_right _ hmem, hgrants⟩
      · exact .inr hz

/-- What became of the lease `l` behind the log `since` and the calls that made it: an ACK replaced
it, or it is held, or it is gone and the caller knows. -/
def Fate (l : Lease) (since : List Event) (calls : List Call) (z : Ctx) : Prop :=
  (∃ g ∈ since, g.grants = true) ∨ (z.client.state.held = true ∧ z.client.lease = some l) ∨
    (z.client.state.held = false ∧ (expired ∈ since ∨ (Call.stop ∈ calls ∧ stop ∈ since)))

theorem Fate.mono {since since' : List Event} {calls' : List Call} (h : Fate l since calls z)
    (hs : since ⊆ since') (hc : calls ⊆ calls') : Fate l since' calls' z := by
  rcases h with ⟨g, hg, hgr⟩ | hheld | ⟨hz, hexp | ⟨hstop, hmem⟩⟩
  · exact .inl ⟨g, hs hg, hgr⟩
  · exact .inr (.inl hheld)
  · exact .inr (.inr ⟨hz, .inl (hs hexp)⟩)
  · exact .inr (.inr ⟨hz, .inr ⟨hc hstop, hs hmem⟩⟩)

/-- A lease that is gone stays gone, unless an ACK comes. -/
theorem Fate.of_gone {f : List Call} (hf : Follows x evs y) (hy : y.client.state.held = false)
    (hgone : expired ∈ evs ∨ (Call.stop ∈ f ∧ stop ∈ evs)) (hrun : Run Step y calls z) :
    ∃ since, z.out.events = x.out.events ++ since ∧ Fate l since (f ++ calls) z := by
  obtain ⟨since, hev, hend⟩ := since_unheld hf.wf hy hrun
  refine ⟨evs ++ since, by rw [hev, hf.events, append_assoc], ?_⟩
  rcases hend with ⟨g, hg, hgr⟩ | hz
  · exact .inl ⟨g, mem_append_right _ hg, hgr⟩
  refine .inr (.inr ⟨hz, ?_⟩)
  rcases hgone with hexp | ⟨hstop, hmem⟩
  · exact .inl (mem_append_left _ hexp)
  · exact .inr ⟨mem_append_left _ hstop, mem_append_left _ hmem⟩

/-- A lease over a move: it stays, and goes on as `next` says, or it is reported Expired. -/
theorem Fate.of_moves (hm : Moves x evs y) (hx : x.client.state.held = true)
    (hl : x.client.lease = some l) (hrun : Run Step y calls z)
    (next : y.client.state.held = true → y.client.lease = some l → ∃ since, z.out.events = y.out.events ++ since ∧ Fate l since calls z) :
    ∃ since, z.out.events = x.out.events ++ since ∧ Fate l since calls z := by
  rcases hm.keeps hx with ⟨hheld, hlease⟩ | hexp
  · obtain ⟨since, hev, hfate⟩ := next hheld (hlease.trans hl)
    refine ⟨evs ++ since, by rw [hev, hm.events, append_assoc], ?_⟩
    exact hfate.mono (List.subset_append_right _ _) (List.Subset.refl _)
  · exact Fate.of_gone (f := []) hm.toFollows (hm.unheld_of_expired hexp) (.inl hexp) hrun

/-- **From a client that holds a lease**, over any run. -/
theorem since_held (hwf : y.client.Wf) (hy : y.client.state.held = true)
    (hl : y.client.lease = some l) (hrun : Run Step y calls z) :
    ∃ since, z.out.events = y.out.events ++ since ∧ Fate l since calls z := by
  induction hrun with
  | nil y => exact ⟨[], by simp, .inr (.inl ⟨hy, hl⟩)⟩
  | @cons y y₁ z c calls hstep hrun ih =>
    rcases hstep.cases hwf with ⟨evs, hm⟩ | ⟨rfl, rfl⟩ | ⟨b, d, now, l', evs, -, -, hs, hm⟩
    · obtain ⟨since, hev, hfate⟩ := Fate.of_moves hm hy hl hrun (ih hm.wf)
      exact ⟨since, hev, hfate.mono (List.Subset.refl _) (List.subset_cons_self _ _)⟩
    · -- The caller stops the client, which runs.
      obtain ⟨hf, hheld⟩ := Follows.stop y
      have hne : y.client.state ≠ .stopped := fun h => by rw [h] at hy; cases hy
      rw [if_neg hne] at hf
      exact Fate.of_gone (f := [.stop]) hf hheld (.inr ⟨by simp, by simp⟩) hrun
    · -- An ACK replaces it.
      have hf := (Follows.enterBound hs l' now).1.trans hm.toFollows
      obtain ⟨rest, hrest⟩ := Ctx.events_run hf.wf hrun
      refine ⟨([y.client.boundEvent l'] ++ evs) ++ rest, ?_, .inl ⟨y.client.boundEvent l', ?_, ?_⟩⟩
      · rw [hrest, hf.events, append_assoc]
      · simp
      · exact (boundEvent_allowed l' hs).2.2

/-! ## A tick past the end of a lease -/

/-- The timer of a lease that is over is due. -/
theorem Client.Wf.expire_due {c : Client} (h : c.Wf) (hheld : c.state.held = true)
    (hl : c.lease = some l) (hfin : l.lifetime ≠ INFINITY) (hnow : l.timestamp + l.lifetime ≤ now) :
    ∃ e, c.timeoutExpire = some e ∧ e ≤ now ∧ e ≤ INFINITY := by
  obtain ⟨l', hl', hexp⟩ := h.clock hheld
  obtain rfl : l = l' := some.inj (hl.symm.trans hl')
  refine ⟨satAdd l.timestamp l.lifetime, by rw [hexp, Lease.expiry, if_neg hfin], ?_, ?_⟩
  · exact Nat.le_trans (Nat.min_le_left _ _) hnow
  · exact Nat.min_le_right _ _

/-- The tick returns, and behind it the lease is gone: it was, or it is now reported Expired. -/
theorem Fate.tick {since : List Event} (hwf : z.client.Wf) (hfin : l.lifetime ≠ INFINITY)
    (hnow : l.timestamp + l.lifetime ≤ now) (h : Fate l since calls z) :
    (∃ g ∈ since, g.grants = true) ∨ (∃ w, Step z (.tick now) w) ∧ ∀ w, Step z (.tick now) w →
        w.client.state.held = false ∧ (w.client.lease = none ∨ w.client.state = .requesting) ∧
        ∃ more, w.out.events = z.out.events ++ more ∧
          (expired ∈ since ++ more ∨ (Call.stop ∈ calls ∧ stop ∈ since)) := by
  have hstep : Returns now z → ∃ w, Step z (.tick now) w :=
    fun ⟨fuel, w, hw⟩ => ⟨w, (nofun), fuel, hw⟩
  have hcarried : ∀ w : Ctx, w.client.Wf → w.client.state.held = false →
      w.client.lease = none ∨ w.client.state = .requesting := by
    intro w hw hheld
    by_cases hs : w.client.state = .requesting
    · exact .inr hs
    · exact .inl (hw.lease_none hheld hs)
  rcases h with hg | ⟨hheld, hl⟩ | ⟨hz, hgone⟩
  · exact .inl hg
  · obtain ⟨e, he, hle, hinf⟩ := hwf.expire_due hheld hl hfin hnow
    refine .inr ⟨hstep (.of_held hwf hheld (.inr ⟨e, he, hle, hinf⟩)), fun w hw => ?_⟩
    obtain ⟨-, fuel, hw⟩ := hw
    obtain ⟨⟨more, hm⟩, hnone⟩ := Moves.tick hwf hw
    -- Held still, its timer would be due, and the loop would have gone on.
    have hexp : expired ∈ more := by
      rcases hm.keeps hheld with ⟨hheld', hlease⟩ | hexp
      · obtain ⟨e', he', hle', -⟩ := hm.wf.expire_due hheld' (hlease.trans hl) hfin hnow
        have := due_eq_none_iff.mp hnone .expire e' he'
        omega
      · exact hexp
    have hheld' := hm.unheld_of_expired hexp
    exact ⟨hheld', hcarried w hm.wf hheld', more, hm.events,
      .inl (mem_append_right _ hexp)⟩
  · refine .inr ⟨hstep (.of_not_held hwf hz), fun w hw => ?_⟩
    obtain ⟨-, fuel, hw⟩ := hw
    obtain ⟨⟨more, hm⟩, -⟩ := Moves.tick hwf hw
    have hheld' := hm.toFollows.unheld hz hm.quiet
    refine ⟨hheld', hcarried w hm.wf hheld', more, hm.events, ?_⟩
    rcases hgone with hexp | hstop
    · exact .inl (mem_append_left _ hexp)
    · exact .inr hstop

/-! ## The life cycle -/

/-- An IpAcquire with neither Expired nor Stop behind it. -/
def AcquireOpen (es : List Event) : Prop :=
  ∃ pre post, es = pre ++ ipAcquire :: post ∧ expired ∉ post ∧ stop ∉ post

theorem acquireOpen_iff {es : List Event} : AcquireOpen es ↔ Session.OpenIn kind es := by
  constructor
  · rintro ⟨pre, post, rfl, hexp, hstop⟩
    refine ⟨pre, .ipAcquire, post, rfl, rfl, fun f hf => ?_⟩
    cases f <;> simp_all [kind]
  · rintro ⟨pre, e, post, rfl, hopens, hpost⟩
    obtain rfl : e = .ipAcquire := by cases e <;> simp_all [kind]
    exact ⟨pre, post, rfl, fun h => hpost _ h rfl, fun h => hpost _ h rfl⟩

/-! ## A lease of a minute -/

/-- A client before its first call. -/
def freshClient : Ctx := Ctx.new (Vector.replicate 6 2) 1500 fun _ => 0

/-- An ACK with rapid commit: 10.0.0.2 from 10.0.0.1, for 60 s. -/
def minuteAck : List Byte :=
  [2, 1, 6, 0, 0, 0, 0, 0, 0, 0, 0, 0, 0, 0, 0, 0, 10, 0, 0, 2] ++ replicate 8 0 ++
    replicate 6 2 ++ replicate 202 0 ++ MAGIC_COOKIE ++
    [53, 1, 5, 54, 4, 10, 0, 0, 1, 51, 4, 0, 0, 0, 60, 80, 0, 255]

def minuteLease : Lease where
  address := 0x0a000002
  subnetMask := 0xff000000
  serverAddress := 0x0a000001
  lifetime := 60 * USEC_PER_SEC
  t1 := 30 * USEC_PER_SEC
  t2 := 52500000
  broadcast := none
  routers := []
  dns := []
  ntp := []
  staticRoutes := []
  classlessRoutes := []
  mtu := none
  timestamp := 0

/-- The client starts at 0 -/
def started : Ctx := (freshClient.call 4 (.start 0)).get (by decide +kernel)

/-- and is granted the lease at once. -/
def granted : Ctx := (started.call 4 (.receive minuteAck false 0)).get (by decide +kernel)

/-- Stopped then, it reports nothing more after a minute. -/
theorem minute_granted : Step freshClient (.start 0) started ∧
    started.accepts minuteAck false 0 = some minuteLease ∧ started.out.events = [] ∧
    Step started (.receive minuteAck false 0) granted ∧ granted.out.events = [.ipAcquire] ∧
    (Ctx.tick (60 * USEC_PER_SEC) 1 granted.stop).map (·.out.events) = some [.ipAcquire, .stop] :=
  ⟨⟨fun _ _ => rfl, 4, (Option.some_get _).symm⟩, by decide +kernel, by decide +kernel,
    ⟨(nofun), 4, (Option.some_get _).symm⟩, by decide +kernel, by decide +kernel⟩

/-! ## Every run -/

/-- **The life cycle of a lease**, for every run of calls on a new client. In the log Renew and
IpChange come only while an IpAcquire is open, and an IpAcquire only while none is; the client is
bound, renewing or rebinding exactly while one is. A lease with an end that was granted by an ACK
is replaced by a later one, or a `tick` at or past its end returns, and behind it the client holds
none (at most an offer it requests) and Expired was reported since, unless the caller stopped the
client meanwhile, which reports Stop. -/
theorem lease_life_cycle {hw : Vector Byte 6} {mtu : Nat} {rnd : Nat → Nat} {calls : List Call}
    {x : Ctx} (hrun : Run Step (Ctx.new hw mtu rnd) calls x) :
    (∀ pre e post, x.out.events = pre ++ e :: post →
      ((e = .ipChange ∨ e = .renew) → AcquireOpen pre) ∧ (e = .ipAcquire → ¬ AcquireOpen pre)) ∧
    (x.client.state.held = true ↔ AcquireOpen x.out.events) ∧
    ∀ b toLeaseAddr t l y later z now, x.accepts b toLeaseAddr t = some l →
      l.lifetime ≠ INFINITY → Step x (.receive b toLeaseAddr t) y → Run Step y later z →
      l.timestamp + l.lifetime ≤ now →
      ∃ e since, z.out.events = x.out.events ++ e :: since ∧ e.grants = true ∧
        ((∃ g ∈ since, g.grants = true) ∨ (∃ w, Step z (.tick now) w) ∧ ∀ w, Step z (.tick now) w →
            w.client.state.held = false ∧ (w.client.lease = none ∨ w.client.state = .requesting) ∧
            ∃ more, w.out.events = z.out.events ++ more ∧
              (expired ∈ since ++ more ∨ (Call.stop ∈ later ∧ stop ∈ since))) := by
  have hlog : x.Logged := (Ctx.Logged.new hw mtu rnd).run hrun
  refine ⟨fun pre e post heq => ?_, ?_, ?_⟩
  · have hallowed : Session.Allowed kind (Session.after kind false pre) e :=
      Session.Accepts.allowed (heq ▸ hlog.accepts)
    rw [acquireOpen_iff, ← Session.after_eq_true_iff]
    constructor
    · rintro (rfl | rfl) <;> exact hallowed.2 rfl
    · rintro rfl
      simp [hallowed.1 rfl]
  · rw [acquireOpen_iff, ← Session.after_eq_true_iff, hlog.after]
  · intro b toLeaseAddr t l y later z now hacc hfin hstep hlater hnow
    obtain ⟨evs, hs, hm⟩ := hstep.granted hacc
    obtain ⟨hf, hbound, hl⟩ := Follows.enterBound hs l t
    have hheld : (x.enterBound l t).client.state.held = true := by rw [hbound]; rfl
    obtain ⟨since, hev, hfate⟩ := Fate.of_moves hm hheld hl hlater
      fun hy hly => since_held hm.wf hy hly hlater
    have hz : z.Logged := (hlog.step hstep).run hlater
    refine ⟨x.client.boundEvent l, since, ?_, (boundEvent_allowed l hs).2.2, ?_⟩
    · rw [hev, hf.events, append_assoc]
      rfl
    · exact hfate.tick hz.wf hfin hnow

/-- The lease of a minute is over after a minute: the tick returns and Expired is in the log. -/
theorem lease_life_cycle_minute : ∃ x y w, Run Step freshClient [.start 0] x ∧
    Step x (.receive minuteAck false 0) y ∧ Step y (.tick (60 * USEC_PER_SEC)) w ∧
    w.client.state.held = false ∧ expired ∈ w.out.events := by
  obtain ⟨hx, hacc, hxlog, hy, hylog, -⟩ := minute_granted
  obtain ⟨e, since, hev, -, hend⟩ := (lease_life_cycle (.single hx)).2.2 minuteAck false 0
    minuteLease granted [] granted (60 * USEC_PER_SEC) hacc (by decide) hy (.nil _) (by decide)
  obtain rfl : since = [] := by
    rw [hylog, hxlog] at hev
    simp_all
  rcases hend with ⟨g, hg, -⟩ | ⟨⟨w, hw⟩, hall⟩
  · cases hg
  obtain ⟨hheld, -, more, hmore, hexp | ⟨-, hstop⟩⟩ := hall w hw
  · refine ⟨_, _, w, .single hx, hy, hw, hheld, ?_⟩
    rw [hmore]
    exact mem_append_right _ (by simpa using hexp)
  · cases hstop

/-- A client that is stopped with its lease reports Stop, and never that the lease expired. -/
theorem stopped_lease_not_expired : ∃ x y z w, Run Step freshClient [.start 0] x ∧
    x.accepts minuteAck false 0 = some minuteLease ∧ minuteLease.lifetime ≠ INFINITY ∧
    Step x (.receive minuteAck false 0) y ∧ Step y .stop z ∧
    minuteLease.timestamp + minuteLease.lifetime ≤ 60 * USEC_PER_SEC ∧
    Step z (.tick (60 * USEC_PER_SEC)) w ∧ w.out.events = [.ipAcquire, .stop] := by
  obtain ⟨hx, hacc, -, hy, -, htick⟩ := minute_granted
  obtain ⟨w, hw, hlog⟩ := Option.map_eq_some_iff.mp htick
  exact ⟨_, _, granted.stop, w, .single hx, hacc, by decide, hy, ⟨(nofun), 0, rfl⟩,
    by decide, ⟨(nofun), 1, hw⟩, hlog⟩

end NopeekOS.Net.Dhcp
