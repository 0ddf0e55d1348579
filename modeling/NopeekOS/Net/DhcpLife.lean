import NopeekOS.Lib.Run
import NopeekOS.Lib.Session
import NopeekOS.Net.DhcpClient

/-!
# The life of a DHCP lease

To its caller the client is a session: IpAcquire opens it, Renew and IpChange come while it is open,
Expired and Stop close it. `Moves x evs y` says that the client went from `x` to `y` reporting `evs`
as that protocol allows, that it is open at the end exactly if a lease is held, and that a lease
held before is held still or was reported Expired. Every internal function moves; moves compose,
so a `tick` moves however many timers it fires. Only an ACK, which grants a lease, does not: it
has its own lemma.
-/

namespace NopeekOS.Net.Dhcp

open Lib Client Event State Session List

/-- What an event means for the caller's session. -/
def Event.kind : Event → Session.Kind
  | .ipAcquire => .opens
  | .ipChange | .renew => .within
  | .expired | .stop => .closes
  | .selecting | .transientFailure => .neutral

/-- The events of an ACK that was taken. -/
def Event.grants : Event → Bool
  | .ipAcquire | .ipChange | .renew => true
  | .expired | .stop | .selecting | .transientFailure => false

/-- When the timer of a lease is due, none for one that never ends. -/
def Lease.expiry (l : Lease) : Option Nat :=
  if l.lifetime = INFINITY then none else some (satAdd l.timestamp l.lifetime)

/-- What holds of the client between any two of its steps: a lease it holds has its timer set, and
without one there are no timers of a lease; an offered lease is only kept while it is requested. -/
structure Client.Wf (c : Client) : Prop where
  unheld : c.state.held = false → c.timeoutT1 = none ∧ c.timeoutT2 = none ∧ c.timeoutExpire = none
  lease : c.lease ≠ none → c.state.held = true ∨ c.state = .requesting
  clock : c.state.held = true → ∃ l, c.lease = some l ∧ c.timeoutExpire = l.expiry

/-- The client went from `x` to `y` reporting `evs` as the protocol allows. -/
structure Follows (x : Ctx) (evs : List Event) (y : Ctx) : Prop where
  events : y.out.events = x.out.events ++ evs
  accepts : Session.Accepts kind x.client.state.held evs
  after : after kind x.client.state.held evs = y.client.state.held
  wf : y.client.Wf

/-- It did so without an ACK or the caller's stop: a lease is lost only with Expired. -/
structure Moves (x : Ctx) (evs : List Event) (y : Ctx) : Prop extends Follows x evs y where
  quiet : ∀ e ∈ evs, e.grants = false
  keeps : x.client.state.held = true →
    (y.client.state.held = true ∧ y.client.lease = x.client.lease) ∨ expired ∈ evs

variable {x y z : Ctx} {evs evs' : List Event}

theorem Follows.trans (h : Follows x evs y) (h' : Follows y evs' z) :
    Follows x (evs ++ evs') z where
  events := by rw [h'.events, h.events, append_assoc]
  accepts := accepts_append.mpr ⟨h.accepts, h.after ▸ h'.accepts⟩
  after := by rw [after_append, h.after, h'.after]
  wf := h'.wf

namespace Moves

theorem trans (h : Moves x evs y) (h' : Moves y evs' z) : Moves x (evs ++ evs') z where
  toFollows := h.toFollows.trans h'.toFollows
  quiet e he := (mem_append.mp he).elim (h.quiet e) (h'.quiet e)
  keeps hheld := by
    rcases h.keeps hheld with ⟨hy, hlease⟩ | hexp
    · rcases h'.keeps hy with ⟨hz, hlease'⟩ | hexp
      · exact .inl ⟨hz, hlease'.trans hlease⟩
      · exact .inr (mem_append_right _ hexp)
    · exact .inr (mem_append_left _ hexp)

theorem andThen (h : Moves x evs y) (h' : ∃ evs', Moves y evs' z) : ∃ evs, Moves x evs z := by
  obtain ⟨evs', h'⟩ := h'
  exact ⟨_, h.trans h'⟩

/-- Nothing is reported and the lease stays. -/
theorem silent (hev : y.out.events = x.out.events)
    (hheld : y.client.state.held = x.client.state.held) (hlease : y.client.lease = x.client.lease)
    (hwf : y.client.Wf) : Moves x [] y where
  events := by simp [hev]
  accepts := accepts_nil
  after := hheld.symm
  quiet := by simp
  keeps h := .inl ⟨hheld.trans h, hlease⟩
  wf := hwf

/-- A neutral event is reported and the lease stays. -/
theorem remark {e : Event} (he : e.kind = .neutral) (hgr : e.grants = false) (hwf : x.client.Wf) :
    Moves x [e] (x.push e) where
  events := rfl
  accepts := by simp [Session.Allowed, he]
  after := by simp [Session.next, he, Ctx.push]
  quiet f hf := by rw [mem_singleton.mp hf]; exact hgr
  keeps h := .inl ⟨h, rfl⟩
  wf := hwf

section

variable (hheld : y.client.state.held = false) (hwf : y.client.Wf)

include hheld hwf

/-- Without a lease nothing is lost. -/
theorem unheld (hx : x.client.state.held = false) (hev : y.out.events = x.out.events) :
    Moves x [] y where
  events := hev.trans (append_nil _).symm
  accepts := accepts_nil
  after := hx.trans hheld.symm
  quiet := by simp
  keeps h := by simp [hx] at h
  wf := hwf

/-- The client lets go of its lease and says so. -/
theorem lost (hx : x.client.state.held = true) (hev : y.out.events = x.out.events ++ [expired]) :
    Moves x [expired] y where
  events := hev
  accepts := by simp [Session.Allowed, kind, hx]
  after := by simp [Session.next, kind, hheld]
  quiet := by simp [grants]
  keeps _ := .inr (by simp)
  wf := hwf

end

end Moves

/-! ## Clients without a lease -/

/-- A client that holds no lease and has no timer of one is well formed when what it carries is an
offer it requests. -/
theorem Client.Wf.of_unheld {c : Client} (hheld : c.state.held = false) (h1 : c.timeoutT1 = none)
    (h2 : c.timeoutT2 = none) (he : c.timeoutExpire = none)
    (hl : c.lease ≠ none → c.state = .requesting) : c.Wf where
  unheld _ := ⟨h1, h2, he⟩
  lease h := .inr (hl h)
  clock h := by rw [hheld] at h; cases h

/-- Without a lease held or requested, none is carried. -/
theorem Client.Wf.lease_none {c : Client} (h : c.Wf) (hheld : c.state.held = false)
    (hreq : c.state ≠ .requesting) : c.lease = none := by
  by_contra hne
  rcases h.lease hne with hh | hr
  · rw [hheld] at hh
    cases hh
  · exact hreq hr

/-! ## Changing the state, sending -/

section frames

variable (c : Client) (s : State) (x : Ctx)

/-- `set_state` touches the state and the counters of attempts. -/
theorem setState_eq : ∃ d r,
    c.setState s = { c with state := s, discoverAttempt := d, requestAttempt := r } := by
  unfold setState
  split
  · next h => exact ⟨c.discoverAttempt, c.requestAttempt, by rw [← h]⟩
  · cases s <;> exact ⟨_, _, rfl⟩

@[simp] theorem setState_fields : (c.setState s).state = s ∧ (c.setState s).lease = c.lease ∧
    (c.setState s).timeoutT1 = c.timeoutT1 ∧ (c.setState s).timeoutT2 = c.timeoutT2 ∧
    (c.setState s).timeoutExpire = c.timeoutExpire := by
  obtain ⟨d, r, h⟩ := setState_eq c s
  rw [h]
  exact ⟨rfl, rfl, rfl, rfl, rfl⟩

/-- Sending touches what the client listens for and what was sent. -/
theorem sendMessage_eq (kind : Byte) (now : Nat) : ∃ rx sent,
    x.sendMessage kind now =
      { x with client := { x.client with rx := rx }, out := { x.out with send := sent } } := by
  unfold Ctx.sendMessage
  split
  · exact ⟨x.client.rx, x.out.send, rfl⟩
  split
  · split
    · exact ⟨x.client.rx, x.out.send, rfl⟩
    · split
      · exact ⟨x.client.rx, x.out.send, rfl⟩
      · exact ⟨_, _, rfl⟩
  · split <;> exact ⟨_, _, rfl⟩

end frames

/-- Sending moves nothing of the lease. -/
theorem Moves.sendMessage {x : Ctx} (hwf : x.client.Wf) (kind : Byte) (now : Nat) :
    Moves x [] (x.sendMessage kind now) := by
  obtain ⟨rx, sent, h⟩ := sendMessage_eq x kind now
  rw [h]
  exact .silent rfl rfl rfl { hwf with }

/-! ## Starting over -/

variable (x : Ctx)

variable (now : Nat)

/-- What starting over leaves: no lease, no timer but the next message's. -/
theorem startDelayed_spec :
    (x.startDelayed now).out = x.out ∧ (x.startDelayed now).client.state.held = false ∧
      (x.startDelayed now).client.Wf := by
  unfold Ctx.startDelayed
  dsimp only
  split
  · refine ⟨rfl, ?_, .of_unheld ?_ ?_ ?_ ?_ ?_⟩ <;>
      simp [Ctx.withClient, Ctx.drawn, disableEventSources, held]
  next h =>
  have hs : x.client.state = .initReboot := by simpa [disableEventSources] using h
  refine ⟨rfl, ?_, .of_unheld ?_ ?_ ?_ ?_ ?_⟩ <;>
    simp [Ctx.withClient, Ctx.drawn, disableEventSources, held, hs]

theorem startNow_spec : (x.startNow now).out = x.out ∧ (x.startNow now).client.state.held = false ∧
      (x.startNow now).client.Wf :=
  startDelayed_spec _ now

/-- `restart` reports the lease it lets go. -/
theorem Moves.restart :
    Moves x (if x.client.state.held then [expired] else []) (x.restart now) := by
  unfold Ctx.restart
  dsimp only
  generalize hy : (if x.client.state.held = true then _ else x : Ctx) = y
  -- At once or after a delay, it starts over behind the report.
  generalize hz : (if y.client.state = .rebooting then y.startNow now else _ : Ctx) = z
  obtain ⟨hout, hheld, hwf⟩ : z.out = y.out ∧ z.client.state.held = false ∧ z.client.Wf := by
    rw [← hz]
    split
    · exact startNow_spec y now
    · exact startDelayed_spec _ now
  cases hx : x.client.state.held with
  | true => exact lost hheld hwf hx (by rw [hout, ← hy, if_pos hx]; rfl)
  | false => exact unheld hheld hwf hx (by rw [hout, ← hy, if_neg (by simp [hx])])

/-- The lease's timer: it is reported and gone. -/
theorem Moves.timeoutExpireFired {x : Ctx} (hheld : x.client.state.held = true) (now : Nat) :
    Moves x [.expired] (x.timeoutExpireFired now) := by
  obtain ⟨hout, hunheld, hwf⟩ := startNow_spec (x.push .expired) now
  exact .lost hunheld hwf hheld (congrArg Out.events hout)

theorem clientInitialize_wf (c : Client) : c.clientInitialize.Wf := by
  refine .of_unheld ?_ ?_ ?_ ?_ ?_ <;>
    simp [clientInitialize, disableEventSources, held]

/-- `stop` reports Stop, unless the client is stopped. -/
theorem Follows.stop : Follows x (if x.client.state = .stopped then [] else [.stop]) x.stop ∧
      x.stop.client.state.held = false := by
  have hheld : x.stop.client.state.held = false := by
    simp [Ctx.stop, Ctx.withClient, clientInitialize, held]
  have hwf : x.stop.client.Wf := by
    unfold Ctx.stop
    exact clientInitialize_wf _
  refine ⟨⟨?_, ?_, ?_, hwf⟩, hheld⟩ <;> by_cases hs : x.client.state = .stopped
  · simp [Ctx.stop, hs, Ctx.withClient]
  · simp [Ctx.stop, hs, Ctx.withClient, Ctx.push]
  · simp [hs]
  · simp [hs, Session.Allowed, kind]
  · rw [hheld, hs]
    rfl
  · simp [hs, hheld, Session.next, kind]

/-- A client that gives up without a lease. -/
theorem Moves.stop {x : Ctx} (hheld : x.client.state.held = false) :
    Moves x (if x.client.state = .stopped then [] else [.stop]) x.stop where
  toFollows := (Follows.stop x).1
  quiet e he := by
    split at he
    · cases he
    · rw [mem_singleton.mp he]
      rfl
  keeps h := by rw [hheld] at h; cases h

/-! ## Which timer fires -/

/-- The fold over the due timers ends at one of them that none comes before, at the first if that
is one. -/
theorem foldl_earlier (y : Nat × Timer) (l : List (Nat × Timer)) :
    ∃ z ∈ y :: l, l.foldl earlier (some y) = some z ∧ (∀ w ∈ y :: l, z.1 ≤ w.1) ∧
      (z = y ∨ z.1 < y.1) := by
  induction l generalizing y with
  | nil => exact ⟨y, by simp, rfl, by simp, .inl rfl⟩
  | cons v l ih =>
    rw [foldl_cons]
    by_cases hlt : v.1 < y.1
    · obtain ⟨z, hz, hfold, hmin, -⟩ := ih v
      have hzv := hmin v mem_cons_self
      exact ⟨z, mem_cons_of_mem y hz, by simpa [earlier, hlt] using hfold,
        forall_mem_cons.mpr ⟨by omega, hmin⟩, .inr (by omega)⟩
    · obtain ⟨z, hz, hfold, hmin, hfirst⟩ := ih y
      refine ⟨z, ?_, by simpa [earlier, hlt] using hfold, ?_, hfirst⟩
      · rcases mem_cons.mp hz with rfl | hz
        · exact mem_cons_self
        · exact mem_cons_of_mem _ (mem_cons_of_mem _ hz)
      · obtain ⟨hzy, hmin⟩ := forall_mem_cons.mp hmin
        exact forall_mem_cons.mpr ⟨hzy, forall_mem_cons.mpr ⟨by omega, hmin⟩⟩

variable {now t : Nat} {k : Timer} {c : Client}

/-- The timers among `ks` that are due. -/
def Client.dueAmong (c : Client) (now : Nat) (ks : List Timer) : List (Nat × Timer) :=
  ks.filterMap fun k => ((c.timer k).filter (· ≤ now)).map (·, k)

theorem mem_dueAmong {ks : List Timer} :
    (t, k) ∈ c.dueAmong now ks ↔ k ∈ ks ∧ c.timer k = some t ∧ t ≤ now := by
  simp only [dueAmong, mem_filterMap, Option.map_eq_some_iff, Option.filter_eq_some_iff,
    Prod.mk.injEq, decide_eq_true_eq]
  constructor
  · rintro ⟨k, hk, t, h, rfl, rfl⟩
    exact ⟨hk, h⟩
  · rintro ⟨hk, h⟩
    exact ⟨k, hk, t, h, rfl, rfl⟩

/-- All timers, in the order `tick` lists them. -/
theorem mem_dueTimers :
    (t, k) ∈ c.dueAmong now [.expire, .t2, .t1, .resend] ↔ c.timer k = some t ∧ t ≤ now :=
  mem_dueAmong.trans (and_iff_right (by cases k <;> simp))

/-- Nothing fires exactly if no timer is due. -/
theorem due_eq_none_iff : c.due now = none ↔ ∀ k t, c.timer k = some t → now < t := by
  rw [due, ← dueAmong]
  generalize hl : c.dueAmong now _ = l
  constructor
  · intro h k t hk
    by_contra hle
    have hmem : (t, k) ∈ l := hl ▸ mem_dueTimers.mpr ⟨hk, by omega⟩
    cases l with
    | nil => cases hmem
    | cons y l =>
      obtain ⟨z, -, hz, -, -⟩ := foldl_earlier y l
      rw [foldl_cons, earlier, hz] at h
      cases h
  · intro h
    have hnil : l = [] := by
      refine eq_nil_iff_forall_not_mem.mpr fun ⟨t, k⟩ hmem => ?_
      obtain ⟨hk, hle⟩ := mem_dueTimers.mp (hl ▸ hmem)
      have := h k t hk
      omega
    rw [hnil]
    rfl

/-- What fires is due, and no timer comes before it. -/
theorem due_some (h : c.due now = some (t, k)) :
    c.timer k = some t ∧ t ≤ now ∧ ∀ k' t', c.timer k' = some t' → t ≤ t' := by
  rw [due, ← dueAmong] at h
  generalize hl : c.dueAmong now _ = l at h
  cases l with
  | nil => cases h
  | cons y l =>
    obtain ⟨z, hmem, hz, hmin, -⟩ := foldl_earlier y l
    rw [foldl_cons, earlier, hz] at h
    cases h
    obtain ⟨hk, hle⟩ := mem_dueTimers.mp (hl ▸ hmem)
    refine ⟨hk, hle, fun k' t' hk' => ?_⟩
    by_cases hdue : t' ≤ now
    · exact hmin (t', k') (hl ▸ mem_dueTimers.mpr ⟨hk', hdue⟩)
    · omega

/-! ## Timers -/

section

variable {x : Ctx} (hwf : x.client.Wf)

include hwf

/-- The next message of a cycle: the lease stays, a third DISCOVER is remarked on. -/
theorem Moves.resend (now next : Nat) : ∃ evs, Moves x evs (x.resend now next) := by
  unfold Ctx.resend
  generalize hy : x.withClient { x.client with timeoutResend := some (satAdd now next) } = y
  have hxy : Moves x [] y := by
    subst hy
    exact .silent rfl rfl rfl { hwf with }
  dsimp only
  split
  · have hsend := hxy.trans (Moves.sendMessage hxy.wf DHCP_DISCOVER now)
    split
    · exact ⟨_, hsend.trans (.remark rfl rfl hsend.wf)⟩
    · exact ⟨_, hsend⟩
  · exact ⟨_, hxy.trans (.sendMessage hxy.wf DHCP_REQUEST now)⟩

section

variable (hheld : x.client.state.held = false)

include hheld

/-- The client changes into another state without a lease, and counts. -/
theorem Moves.enter {s : State} (hs : s.held = false)
    (hreq : x.client.state = .requesting → s = .requesting) (d r : Nat) (rnd : Nat → Nat) :
    Moves x [] { x with
      client := { x.client.setState s with discoverAttempt := d, requestAttempt := r }
      rnd := rnd } := by
  obtain ⟨h1, h2, he⟩ := hwf.unheld hheld
  obtain ⟨d', r', heq⟩ := setState_eq x.client s
  rw [heq]
  refine .silent rfl (hs.trans hheld.symm) rfl (.of_unheld hs h1 h2 he fun hne => hreq ?_)
  by_contra hno
  exact hne (hwf.lease_none hheld hno)

theorem Moves.fireDiscover (hreq : x.client.state ≠ .requesting) (now : Nat) :
    ∃ evs, Moves x evs (x.fireDiscover now) := by
  unfold Ctx.fireDiscover
  dsimp only
  split
  · have hin : Moves x [] (x.withClient (x.client.setState .selecting)) :=
      .enter hwf hheld rfl (fun h => absurd h hreq) _ _ x.rnd
    exact ⟨_, hin.trans (.stop (by simp [Ctx.withClient, held]))⟩
  · generalize requestTimeout _ (x.rnd 0) = next
    have hin : Moves x [] (x.drawn.withClient { x.client.setState .selecting with
        discoverAttempt := (x.client.setState .selecting).discoverAttempt + 1 }) :=
      .enter hwf hheld rfl (fun h => absurd h hreq) _ _ x.drawn.rnd
    exact hin.andThen (Moves.resend hin.wf now next)

/-- A REQUEST, or back to INIT, from a state without a lease that stays one. -/
theorem Moves.fireRequest {s : State} (hs : s.held = false)
    (hreq : x.client.state = .requesting → s = .requesting) (attempts part now : Nat) :
    ∃ evs, Moves x evs (x.fireRequest s attempts part now) := by
  unfold Ctx.fireRequest
  dsimp only
  split
  · have hin : Moves x [] (x.withClient (x.client.setState s)) :=
      .enter hwf hheld hs hreq _ _ x.rnd
    exact ⟨_, hin.trans (.restart _ now)⟩
  · generalize requestTimeout _ (x.rnd 0) / part = next
    have hin : Moves x [] (x.drawn.withClient { x.client.setState s with
        requestAttempt := (x.client.setState s).requestAttempt + 1 }) :=
      .enter hwf hheld hs hreq _ _ x.drawn.rnd
    exact hin.andThen (Moves.resend hin.wf now next)

end

theorem Moves.timeoutResendFired (now : Nat) : ∃ evs, Moves x evs (x.timeoutResendFired now) := by
  unfold Ctx.timeoutResendFired
  split
  case h_1 => exact Moves.resend hwf now _
  case h_2 => exact Moves.resend hwf now _
  case h_3 hs => exact Moves.fireDiscover hwf (by simp [hs, held]) (by simp [hs]) now
  case h_4 hs => exact Moves.fireDiscover hwf (by simp [hs, held]) (by simp [hs]) now
  case h_5 hs => exact Moves.fireRequest hwf (by simp [hs, held]) rfl (by simp [hs]) _ _ now
  case h_6 hs => exact Moves.fireRequest hwf (by simp [hs, held]) rfl (by simp [hs]) _ _ now
  case h_7 hs => exact Moves.fireRequest hwf (by simp [hs, held]) rfl (fun _ => rfl) _ _ now
  case h_8 => exact ⟨_, .silent rfl rfl rfl hwf⟩
  case h_9 => exact ⟨_, .silent rfl rfl rfl hwf⟩

/-- T1 or T2: the client goes on to another state with its lease. -/
theorem Moves.toHeld (hheld : x.client.state.held = true) (hc : c.state.held = true)
    (hl : c.lease = x.client.lease) (he : c.timeoutExpire = x.client.timeoutExpire) :
    Moves x [] (x.withClient c) := by
  refine .silent rfl (hc.trans hheld.symm) hl ⟨fun h => ?_, fun _ => .inl hc, fun _ => ?_⟩
  · exact absurd (hc.symm.trans h) (by simp)
  · show ∃ l, c.lease = some l ∧ c.timeoutExpire = l.expiry
    rw [hl, he]
    exact hwf.clock hheld

end

variable {x}

/-- A timer of a lease is only set while one is held. -/
theorem Client.Wf.held_of_timer (h : c.Wf) (hk : k ≠ .resend) (ht : c.timer k = some t) :
    c.state.held = true := by
  by_contra hno
  obtain ⟨h1, h2, he⟩ := h.unheld (by simpa using hno)
  cases k with
  | expire => simp [timer, he] at ht
  | t2 => simp [timer, h2] at ht
  | t1 => simp [timer, h1] at ht
  | resend => exact hk rfl

/-- **One turn of `tick`**: whichever timer fires, the client moves. -/
theorem Moves.fire (hwf : x.client.Wf) (ht : x.client.timer k = some t) (now : Nat) :
    ∃ evs, Moves x evs (x.fire now k) := by
  have resent {c : Client} (hin : Moves x [] (x.withClient c)) :
      ∃ evs, Moves x evs ((x.withClient c).timeoutResendFired now) :=
    hin.andThen (Moves.timeoutResendFired hin.wf now)
  cases k with
  | expire =>
    have hheld := hwf.held_of_timer (by simp) ht
    -- The timer is taken down first; the lease it was for goes with it.
    exact ⟨[.expired], by
      have h := Moves.timeoutExpireFired
        (x := x.withClient { x.client with timeoutExpire := none }) hheld now
      exact { h with }⟩
  | t2 | t1 =>
    have hheld := hwf.held_of_timer (by simp) ht
    exact resent (Moves.toHeld hwf hheld (by simp [held]) (by simp) (by simp))
  | resend => exact resent (.silent rfl rfl rfl { hwf with })

/-- **A `tick` that returns**: the client moved, and no timer is due any more. -/
theorem Moves.tick {fuel : Nat} (hwf : x.client.Wf) (h : Ctx.tick now fuel x = some y) :
    (∃ evs, Moves x evs y) ∧ y.client.due now = none := by
  induction fuel generalizing x with
  | zero => cases h
  | succ fuel ih =>
    rw [Ctx.tick] at h
    split at h
    · next hdue =>
      cases h
      exact ⟨⟨[], .silent rfl rfl rfl hwf⟩, hdue⟩
    · next t k hdue =>
      obtain ⟨evs, hfire⟩ := Moves.fire hwf (due_some hdue).1 now
      obtain ⟨⟨evs', hrest⟩, hnone⟩ := ih hfire.wf h
      exact ⟨⟨evs ++ evs', hfire.trans hrest⟩, hnone⟩

/-! ## Calls -/

/-- `start` of a stopped client, up to its `tick`. -/
theorem Moves.start (hs : x.client.state = .stopped) (now : Nat) : Moves x [] (x.start now) := by
  obtain ⟨hout, hheld, hwf⟩ := startNow_spec
    (x.withClient (if x.client.lastAddr ≠ 0 then x.client.setState .initReboot else x.client)) now
  exact .unheld hheld hwf (by rw [hs]; rfl) (congrArg Out.events hout)

theorem Moves.sendRenew (hwf : x.client.Wf) (h : x.sendRenew now = some y) : Moves x [] y := by
  unfold Ctx.sendRenew at h
  split at h
  · cases h
  next hs =>
  cases h
  have hbound : x.client.state = .bound := by simpa using hs
  exact .toHeld hwf (by rw [hbound]; rfl) (by simp [held]) (by simp) (by simp)

theorem Moves.sendDecline (hwf : x.client.Wf) (h : x.sendDecline now = some y) :
    ∃ evs, Moves x evs y := by
  unfold Ctx.sendDecline at h
  split at h
  · cases h
  · rw [← Option.some.inj h]
    exact ⟨_, (Moves.sendMessage hwf DHCP_DECLINE now).trans (.restart _ now)⟩

variable {b : List Byte}

/-- An OFFER is taken while selecting only. -/
theorem parseMessage_offer {l : Lease} (h : c.parseMessage b = some (.offer l)) :
    c.state = .selecting := by
  simp only [parseMessage, Option.bind_eq_bind, Option.bind_eq_some_iff] at h
  obtain ⟨m, -, kind, -, h⟩ := h
  split_ifs at h with _ hs <;> simp_all

/-- An ACK is not taken while bound: the client asked for none. -/
theorem parseMessage_ack {l : Lease} (h : c.parseMessage b = some (.ack l)) : c.state ≠ .bound := by
  intro hs
  simp only [parseMessage, Option.bind_eq_bind, Option.bind_eq_some_iff] at h
  obtain ⟨m, -, kind, -, h⟩ := h
  split_ifs at h <;> simp_all [takesAck]

/-- The lease of an ACK the client takes, with the time it came. -/
def Ctx.accepts (x : Ctx) (b : List Byte) (toLeaseAddr : Bool) (now : Nat) : Option Lease :=
  if x.client.hears toLeaseAddr = false then none
  else
    match x.client.parseMessage b with
    | some (.ack l) => some { l with timestamp := now }
    | _ => none

/-- The fields of a client that just took an ACK. -/
theorem setLeaseTimeouts_spec (x : Ctx) (l : Lease) (now : Nat) :
    (x.setLeaseTimeouts l now).out = x.out ∧
      (x.setLeaseTimeouts l now).client.state = x.client.state ∧
      (x.setLeaseTimeouts l now).client.lease = x.client.lease ∧
      (x.setLeaseTimeouts l now).client.timeoutExpire = l.expiry := by
  unfold Ctx.setLeaseTimeouts Lease.expiry
  by_cases hinf : l.lifetime = INFINITY
  · rw [if_pos hinf, if_pos hinf]
    exact ⟨rfl, rfl, rfl, rfl⟩
  · rw [if_neg hinf, if_neg hinf]
    exact ⟨rfl, rfl, rfl, rfl⟩

/-- The event of an ACK fits the session: the first one opens it, the others come within. -/
theorem boundEvent_allowed (l : Lease) (hs : c.state ≠ .bound) :
    Session.Allowed kind c.state.held (c.boundEvent l) ∧
      next kind c.state.held (c.boundEvent l) = true ∧
      (c.boundEvent l).grants = true := by
  unfold boundEvent
  cases hst : c.state <;> dsimp only
  case bound => exact absurd hst hs
  case renewing | rebinding =>
    split <;> exact ⟨by simp [Session.Allowed, kind, held], rfl, rfl⟩
  all_goals exact ⟨by simp [Session.Allowed, kind, held], rfl, rfl⟩

/-- **An ACK is taken**: the client reports it and holds the lease, with its timer set. -/
theorem Follows.enterBound (hs : x.client.state ≠ .bound) (l : Lease) (now : Nat) :
    Follows x [x.client.boundEvent l] (x.enterBound l now) ∧
      (x.enterBound l now).client.state = .bound ∧
      (x.enterBound l now).client.lease = some l := by
  obtain ⟨hallowed, hnext, -⟩ := boundEvent_allowed l hs
  unfold Ctx.enterBound
  dsimp only
  generalize hc : x.withClient { ({ ({ x.client with lease := some l }).disableEventSources with
    startDelay := 0 }.setState .bound) with lastAddr := l.address } = y
  have hy : y.out = x.out ∧ y.client.state = .bound ∧ y.client.lease = some l := by
    subst hc
    refine ⟨rfl, ?_, ?_⟩ <;> simp [Ctx.withClient, disableEventSources]
  obtain ⟨hout, hstate, hlease, hexp⟩ := setLeaseTimeouts_spec y l now
  rw [hy.2.1] at hstate
  rw [hy.2.2] at hlease
  have hheld : (y.setLeaseTimeouts l now).client.state.held = true := by rw [hstate]; rfl
  refine ⟨⟨?_, ⟨hallowed, trivial⟩, ?_, ?_⟩, hstate, hlease⟩
  · simp [Ctx.push, hout, hy.1]
  · exact hnext.trans hheld.symm
  · refine ⟨fun h => ?_, fun _ => .inl hheld, fun _ => ⟨l, hlease, hexp⟩⟩
    exact absurd (hheld.symm.trans h) (by simp)

/-- **An OFFER is taken**: it is kept while it is requested. -/
theorem Moves.offer (hs : x.client.state = .selecting) (l : Lease) (now : Nat) :
    Moves x [.selecting]
      (((x.withClient { x.client with lease := some l }).push .selecting).withClient
        (({ x.client with lease := some l } : Client).enterRequesting now)) where
  events := rfl
  accepts := by simp [Session.Allowed, kind]
  after := by
    simp [Session.next, kind, Ctx.withClient, enterRequesting, hs, held]
  wf := by
    refine .of_unheld ?_ ?_ ?_ ?_ ?_ <;>
      simp [Ctx.withClient, enterRequesting, disableEventSources, held]
  quiet := by simp [grants]
  keeps h := by simp [hs, held] at h

/-- What `receive` did before its `tick`: without an ACK the client moved, with one it follows the
protocol to the lease granted. -/
theorem receive_cases {toLeaseAddr : Bool} (h : x.receive b toLeaseAddr now = some y) :
    (x.accepts b toLeaseAddr now = none ∧ ∃ evs, Moves x evs y) ∨
      ∃ l, x.accepts b toLeaseAddr now = some l ∧ x.client.state ≠ .bound ∧
        y = x.enterBound l now := by
  unfold Ctx.receive at h
  unfold Ctx.accepts
  split at h
  · cases h
  next hhears =>
  rw [if_neg hhears]
  split at h
  · cases h
  · next l hparse =>
    rw [hparse]
    rw [← Option.some.inj h]
    exact .inl ⟨rfl, _, .offer (parseMessage_offer hparse) _ now⟩
  · next l hparse =>
    rw [hparse]
    exact .inr ⟨_, rfl, parseMessage_ack hparse, (Option.some.inj h).symm⟩
  · next hparse =>
    rw [hparse]
    rw [← Option.some.inj h]
    exact .inl ⟨rfl, _, .restart x now⟩

/-- A call that ends with a `tick`. -/
theorem Moves.ticked {fuel : Nat} {r : Option Ctx} (hwf : x.client.Wf)
    (hr : ∀ z, r = some z → ∃ evs, Moves x evs z) (h : x.ticked fuel now r = some y) :
    ∃ evs, Moves x evs y := by
  cases r with
  | none =>
    obtain rfl := Option.some.inj h
    exact ⟨[], .silent rfl rfl rfl hwf⟩
  | some z =>
    obtain ⟨evs, hz⟩ := hr z rfl
    obtain ⟨⟨evs', hy⟩, -⟩ := Moves.tick hz.wf h
    exact ⟨_, hz.trans hy⟩

end NopeekOS.Net.Dhcp
