import NopeekOS.Net.DhcpLife

/-!
# The client's loop ends

`tick` goes on until no timer is due, and a message that is sent sets its timer again. Below
`u64::MAX` the new time is past the clock. At `u64::MAX` the sum saturates and the timer is due
again at once: without a lease the attempts are counted and run out; with one that is over the
lease's own timer comes first. Only a lease that is not over, renewed at that time, is left, and
there the loop does not end.
-/

namespace NopeekOS.Net.Dhcp

open Lib Ctx Client

/-- A `tick` from here returns. -/
def Returns (now : Nat) (x : Ctx) : Prop := ∃ fuel y, tick now fuel x = some y

variable {x : Ctx} {now : Nat} {k : Timer}

theorem Returns.of_none (h : x.client.due now = none) : Returns now x :=
  ⟨1, x, by rw [tick, h]⟩

theorem Returns.of_fire {t : Nat} (h : x.client.due now = some (t, k))
    (hr : Returns now (x.fire now k)) : Returns now x := by
  obtain ⟨fuel, y, hy⟩ := hr
  exact ⟨fuel + 1, y, by rw [tick, h]; exact hy⟩

/-- The message's timer fires only before every timer of the lease. -/
theorem due_resend_lt {c : Client} {t t' : Nat}
    (h : c.due now = some (t, .resend)) (hk : k ≠ .resend) (ht : c.timer k = some t') : t < t' := by
  by_cases hdue : t' ≤ now
  · -- The lease's timers are folded first; the message's is taken after them if it is smaller.
    have hsplit : c.due now = (c.dueAmong now [.resend]).foldl earlier
        ((c.dueAmong now [.expire, .t2, .t1]).foldl earlier none) := by
      rw [← List.foldl_append, dueAmong, dueAmong, ← List.filterMap_append]
      rfl
    have hmem : (t', k) ∈ c.dueAmong now [.expire, .t2, .t1] :=
      mem_dueAmong.mpr ⟨by cases k <;> simp_all, ht, hdue⟩
    have hne : (t, .resend) ∉ c.dueAmong now [.expire, .t2, .t1] :=
      fun hin => by simpa using (mem_dueAmong.mp hin).1
    rw [hsplit] at h
    generalize c.dueAmong now [.expire, .t2, .t1] = l at h hmem hne
    cases l with
    | nil => cases hmem
    | cons y l =>
      obtain ⟨z, hz, hfold, hmin, -⟩ := foldl_earlier y l
      obtain ⟨w, -, hfold', -, hw⟩ := foldl_earlier z (c.dueAmong now [.resend])
      rw [List.foldl_cons, earlier, hfold, hfold'] at h
      cases h
      rcases hw with rfl | hlt
      · exact absurd hz hne
      · exact Nat.lt_of_lt_of_le hlt (hmin _ hmem)
  · have := (due_some h).2.1
    omega

/-! ## Without a lease -/

/-- The message's timer is taken off before it fires. -/
def Ctx.resent (x : Ctx) : Ctx := x.withClient { x.client with timeoutResend := none }

/-- Without a lease only the message's timer fires. -/
theorem Returns.of_unheld {y : Ctx} (hwf : x.client.Wf) (hheld : x.client.state.held = false)
    (hy : x.resent.timeoutResendFired now = y) (h : y.client.Wf → Returns now y) :
    Returns now x := by
  cases hdue : x.client.due now with
  | none => exact .of_none hdue
  | some p =>
    obtain ⟨t, k⟩ := p
    have htimer := (due_some hdue).1
    cases k with
    | resend =>
      obtain ⟨evs, hfire⟩ := Moves.fire hwf htimer now
      have hfired : x.fire now .resend = y := hy
      exact .of_fire hdue (hfired ▸ h (hfired ▸ hfire.wf))
    | expire | t2 | t1 =>
      have := hwf.held_of_timer (by simp) htimer
      rw [hheld] at this
      cases this

/-- The next message sets its timer; what the client counts stays. -/
theorem resend_eq (x : Ctx) (now next : Nat) : ∃ rx out,
    x.resend now next = { x with
      client := { x.client with timeoutResend := some (satAdd now next), rx := rx }
      out := out } := by
  unfold resend
  generalize hc : { x.client with timeoutResend := some (satAdd now next) } = c
  dsimp only
  split
  · obtain ⟨rx, sent, h⟩ := sendMessage_eq (x.withClient c) DHCP_DISCOVER now
    rw [h]
    split
    · exact ⟨rx, _, by subst hc; rfl⟩
    · exact ⟨rx, _, by subst hc; rfl⟩
  · obtain ⟨rx, sent, h⟩ := sendMessage_eq (x.withClient c) DHCP_REQUEST now
    rw [h]
    exact ⟨rx, _, by subst hc; rfl⟩

/-- A stopped client sends nothing. -/
theorem Returns.of_stopped (hwf : x.client.Wf) (hs : x.client.state = .stopped) :
    Returns now x := by
  have hheld : x.client.state.held = false := by rw [hs]; rfl
  obtain ⟨h1, h2, he⟩ := hwf.unheld hheld
  have hfired : x.resent.timeoutResendFired now = x.resent := by
    rw [timeoutResendFired, show x.resent.client.state = _ from hs]
  -- No timer is left.
  refine .of_unheld hwf hheld hfired fun _ => .of_none (due_eq_none_iff.mpr fun k t hk => ?_)
  cases k <;> simp_all [timer, resent, withClient]

/-- Every call of `fireDiscover` uses an attempt up. -/
theorem fireDiscover_cases (x : Ctx) (now : Nat) : (x.fireDiscover now).client.state = .stopped ∨
      ((x.fireDiscover now).client.state = .selecting ∧
        x.client.discoverAttempt < x.client.maxDiscoverAttempts ∧
        (x.fireDiscover now).client.discoverAttempt = x.client.discoverAttempt + 1 ∧
        (x.fireDiscover now).client.maxDiscoverAttempts = x.client.maxDiscoverAttempts) := by
  have hset : x.client.setState .selecting = { x.client with state := .selecting } := by
    unfold setState
    split
    · next h => rw [← h]
    · rfl
  unfold fireDiscover
  rw [hset]
  dsimp only
  split
  · left
    simp [stop, withClient, clientInitialize]
  next hlt =>
  right
  generalize requestTimeout _ (x.rnd 0) = next
  obtain ⟨rx, out, h⟩ := resend_eq (x.drawn.withClient { x.client with
    state := .selecting, discoverAttempt := x.client.discoverAttempt + 1 }) now next
  rw [h]
  exact ⟨rfl, by omega, rfl, rfl⟩

/-- A client that looks for a server stops when its attempts are used up. -/
theorem Returns.of_discovering (hwf : x.client.Wf)
    (hs : x.client.state = .init ∨ x.client.state = .selecting) : Returns now x := by
  -- The attempts left decrease with every turn.
  induction hn : x.client.maxDiscoverAttempts - x.client.discoverAttempt using Nat.strongRecOn
    generalizing x with
  | ind n ih =>
    have hheld : x.client.state.held = false := by rcases hs with hs | hs <;> rw [hs] <;> rfl
    have hfired : x.resent.timeoutResendFired now = x.resent.fireDiscover now := by
      rcases hs with hs | hs <;> rw [timeoutResendFired, show x.resent.client.state = _ from hs]
    refine .of_unheld hwf hheld hfired fun hwf' => ?_
    rcases fireDiscover_cases x.resent now with hstop | ⟨hsel, hlt, hatt, hmax⟩
    · exact .of_stopped hwf' hstop
    refine ih _ ?_ hwf' (.inr hsel) rfl
    rw [hatt, hmax]
    simp only [resent, withClient] at hlt ⊢
    omega

/-- Starting over leads to INIT, or to INIT-REBOOT from there. -/
theorem startDelayed_state (x : Ctx) (now : Nat) : (x.startDelayed now).client.state =
      if x.client.state = .initReboot then .initReboot else .init := by
  unfold startDelayed
  by_cases hs : x.client.state = .initReboot <;>
    simp [withClient, disableEventSources, hs]

theorem restart_state {x : Ctx} (now : Nat) (hs : x.client.state ≠ .initReboot) :
    (x.restart now).client.state = .init := by
  unfold restart
  dsimp only
  generalize hpush : (if x.client.state.held = true then _ else x : Ctx) = y
  have hy : y.client.state ≠ .initReboot := by
    rw [← hpush]
    split <;> exact hs
  split
  · rw [startNow, startDelayed_state]
    exact if_neg hy
  · rw [startDelayed_state]
    exact if_neg hy

/-- Every call of `fireRequest` uses an attempt up, or leads back to INIT. -/
theorem fireRequest_cases (x : Ctx) {s : State} (hs : s ≠ .initReboot) (attempts part now : Nat) :
    (x.fireRequest s attempts part now).client.state = .init ∨
      ((x.fireRequest s attempts part now).client.state = s ∧
        (x.client.setState s).requestAttempt < attempts ∧
        (x.fireRequest s attempts part now).client.requestAttempt =
          (x.client.setState s).requestAttempt + 1) := by
  unfold fireRequest
  dsimp only
  split
  · exact .inl (restart_state now (by simpa [withClient] using hs))
  next hlt =>
  right
  generalize requestTimeout _ (x.rnd 0) / part = next
  obtain ⟨rx, out, h⟩ := resend_eq (x.drawn.withClient { x.client.setState s with
    requestAttempt := (x.client.setState s).requestAttempt + 1 }) now next
  rw [h]
  exact ⟨by simp [withClient], by omega, rfl⟩

/-- A client in a state that counts its REQUESTs goes back to INIT when they are used up. -/
theorem Returns.of_counting {s : State} {attempts part : Nat} (hunheld : s.held = false)
    (hreboot : s ≠ .initReboot) (hfires : ∀ z : Ctx, z.client.state = s →
      z.timeoutResendFired now = z.fireRequest s attempts part now)
    (hwf : x.client.Wf) (hs : x.client.state = s) : Returns now x := by
  -- The attempts left decrease with every turn.
  induction hn : attempts - x.client.requestAttempt using Nat.strongRecOn generalizing x with
  | ind n ih =>
    refine .of_unheld hwf (hs ▸ hunheld) (hfires x.resent hs) fun hwf' => ?_
    have hsame : (x.resent.client.setState s).requestAttempt = x.client.requestAttempt := by
      simp [resent, withClient, setState, hs]
    rcases fireRequest_cases x.resent hreboot attempts part now with hinit | ⟨hst, hlt, hatt⟩
    · exact .of_discovering hwf' (.inl hinit)
    refine ih _ ?_ hwf' hst rfl
    rw [hatt]
    omega

/-- **Without a lease every `tick` returns.** -/
theorem Returns.of_not_held (hwf : x.client.Wf) (hheld : x.client.state.held = false) :
    Returns now x := by
  have hrebooting : ∀ z : Ctx, z.client.Wf → z.client.state = .rebooting → Returns now z :=
    fun z hz hs => .of_counting rfl (by simp) (fun w hw => by rw [timeoutResendFired, hw]) hz hs
  cases hs : x.client.state with
  | stopped => exact .of_stopped hwf hs
  | init => exact .of_discovering hwf (.inl hs)
  | selecting => exact .of_discovering hwf (.inr hs)
  | rebooting => exact hrebooting x hwf hs
  | requesting =>
    exact .of_counting rfl (by simp) (fun w hw => by rw [timeoutResendFired, hw]) hwf hs
  | initReboot =>
    refine .of_unheld hwf hheld (by rw [timeoutResendFired, show x.resent.client.state = _ from hs])
      fun hwf' => ?_
    rcases fireRequest_cases x.resent (s := .rebooting) (by simp)
      MAX_REQUEST_ATTEMPTS_ON_REBOOTING 4 now with hinit | ⟨hst, -, -⟩
    · exact .of_discovering hwf' (.inl hinit)
    · exact hrebooting _ hwf' hst
  | bound | renewing | rebinding => simp [hs, State.held] at hheld

/-! ## With a lease -/

/-- The message's timer is due, and before the lease's. -/
def Client.resendFirst (c : Client) (now : Nat) : Bool :=
  c.timeoutResend.any fun r => r ≤ now && c.timeoutExpire.all (r < ·)

/-- The turns before the lease's own timer, or before nothing is due. -/
def Client.turns (c : Client) (now : Nat) : Nat :=
  c.timeoutT1.isSome.toNat + c.timeoutT2.isSome.toNat + (c.resendFirst now).toNat

/-- The clock can be passed, or the client holds a lease that is over. -/
def Client.Ends (c : Client) (now : Nat) : Prop :=
  now < INFINITY ∨ ∃ e, c.timeoutExpire = some e ∧ e ≤ now ∧ e ≤ INFINITY

/-- A timer set from here on does not fire before the lease's again. -/
theorem resendFirst_satAdd {c : Client} (h : c.Ends now) {d : Nat} (hd : 0 < d)
    (hr : c.timeoutResend = some (satAdd now d)) : c.resendFirst now = false := by
  simp only [resendFirst, hr, Option.any_some, Bool.and_eq_false_iff,
    decide_eq_false_iff_not]
  unfold satAdd
  rcases h with hlt | ⟨e, he, hle, hinf⟩
  · exact .inl (by omega)
  · right
    simp only [he, Option.all_some, decide_eq_false_iff_not]
    omega

/-- Renewing or rebinding, the client sends a REQUEST, and its timer does not come first: what
is left of `n` turns are those of T1 and T2. -/
theorem timeoutResendFired_held {n : Nat} {z : Ctx} {e : Option Nat}
    (hs : z.client.state = .renewing ∨ z.client.state = .rebinding) (hends : z.client.Ends now)
    (he : z.client.timeoutExpire = e)
    (hlt : z.client.timeoutT1.isSome.toNat + z.client.timeoutT2.isSome.toNat < n) :
    (z.timeoutResendFired now).client.state.held = true ∧
      (z.timeoutResendFired now).client.timeoutExpire = e ∧
      (z.timeoutResendFired now).client.turns now < n := by
  obtain ⟨t, heq⟩ : ∃ t, z.timeoutResendFired now = z.resend now (reacquisitionTimeout now t) := by
    rcases hs with hs | hs
    · exact ⟨z.client.t2Time, by rw [timeoutResendFired, hs]⟩
    · exact ⟨z.client.expireTime, by rw [timeoutResendFired, hs]⟩
  have hpos : 0 < reacquisitionTimeout now t :=
    Nat.lt_of_lt_of_le (by decide : 0 < 60 * USEC_PER_SEC) (Nat.le_max_right _ _)
  generalize reacquisitionTimeout now t = d at heq hpos
  obtain ⟨rx, out, h⟩ := resend_eq z now d
  have hno : ({ z.client with timeoutResend := some (satAdd now d), rx := rx } :
      Client).resendFirst now = false := resendFirst_satAdd hends hpos rfl
  have hheld : z.client.state.held = true := by rcases hs with hs | hs <;> rw [hs] <;> rfl
  rw [heq, h]
  exact ⟨hheld, he, by simpa [turns, hno] using hlt⟩

/-- A turn with a lease that leaves its timer alone uses one of the turns up. -/
theorem turns_fire {t : Nat} (hheld : x.client.state.held = true)
    (hends : x.client.Ends now) (hdue : x.client.due now = some (t, k)) (hk : k ≠ .expire) :
    (x.fire now k).client.state.held = true ∧
      (x.fire now k).client.timeoutExpire = x.client.timeoutExpire ∧
      (x.fire now k).client.turns now < x.client.turns now := by
  obtain ⟨ht, hle, -⟩ := due_some hdue
  cases k with
  | expire => exact absurd rfl hk
  | t2 | t1 =>
    simp only [timer] at ht
    refine timeoutResendFired_held (by simp [withClient])
      (by simpa [Client.Ends, withClient] using hends) (by simp [withClient]) ?_
    simp [turns, withClient, ht]
    omega
  | resend =>
    -- It came before the lease's timer; behind it, it does not.
    have hr : x.client.timeoutResend = some t := ht
    have hfirst : x.client.resendFirst now = true := by
      simp only [resendFirst, hr, Option.any_some, Bool.and_eq_true, decide_eq_true_eq]
      refine ⟨hle, ?_⟩
      cases he : x.client.timeoutExpire with
      | none => rfl
      | some e => exact decide_eq_true (due_resend_lt hdue (k := .expire) (by simp) he)
    by_cases hb : x.client.state = .bound
    · have heq : x.fire now .resend = x.resent := by
        simp [fire, timeoutResendFired, withClient, hb, resent]
      rw [heq]
      refine ⟨hheld, rfl, ?_⟩
      rw [turns, turns, hfirst]
      simp [resent, withClient, resendFirst]
    · have hstate : x.client.state = .renewing ∨ x.client.state = .rebinding := by
        cases hs : x.client.state <;> simp_all [State.held]
      refine timeoutResendFired_held hstate hends rfl ?_
      rw [turns, hfirst]
      simp [withClient]

/-- **A `tick` with a lease returns**, below `u64::MAX` or when the lease is over. -/
theorem Returns.of_held (hwf : x.client.Wf) (hheld : x.client.state.held = true)
    (hends : x.client.Ends now) : Returns now x := by
  induction hn : x.client.turns now using Nat.strongRecOn generalizing x with
  | ind n ih =>
    cases hdue : x.client.due now with
    | none => exact .of_none hdue
    | some p =>
      obtain ⟨t, k⟩ := p
      obtain ⟨evs, hfire⟩ := Moves.fire hwf (due_some hdue).1 now
      refine .of_fire hdue ?_
      by_cases hk : k = .expire
      · subst hk
        exact .of_not_held hfire.wf (startNow_spec _ now).2.1
      obtain ⟨hheld', he, hlt⟩ := turns_fire hheld hends hdue hk
      refine ih _ (hn ▸ hlt) hfire.wf hheld' ?_ rfl
      rw [Client.Ends, he]
      exact hends

/-- **Every `tick` returns** while the clock is below `u64::MAX`. -/
theorem Returns.of_lt (hwf : x.client.Wf) (hnow : now < INFINITY) : Returns now x := by
  cases hheld : x.client.state.held with
  | false => exact .of_not_held hwf hheld
  | true => exact .of_held hwf hheld (.inl hnow)

end NopeekOS.Net.Dhcp
