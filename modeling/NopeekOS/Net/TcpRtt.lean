import NopeekOS.Lib.Run
import NopeekOS.Net.TcpSack

/-!
# The bounds of the RTT estimator and of the RTO

The retransmission timeout of a connection changes in three places: a sample is folded in
(`ack_update_rtt`, tcp.rs:941), the handshake ends (`handshake_rtt`, tcp.rs:971), and a timer that
ran out doubles it (tcp.rs:2349, 2406). Whatever the samples, the variance stays at 200 ms or more
and the timeout between 20 and 12000 ticks.

The estimator computes in 64 bits and cuts the mean deviation back to 32 (`as u32`, tcp.rs:916).
That cut is not always exact: `MdevExact` says when it is.
-/

namespace NopeekOS.Net.Tcp

open Lib

namespace TcpConn

variable (c : TcpConn)

/-- The sample the handshake gives (tcp.rs:972-979), if it gives one. -/
def handshakeSample (nowUs : Nat) (tsecr : Option Nat) (tsNowMs : Nat) : Option Nat :=
  if c.retries = 0 then some (max (nowUs - c.synSentUs) 1)
  else
    match tsecr with
    | none => none
    | some t =>
      let delta := sub32 tsNowMs t
      if t ≠ 0 ∧ c.tsOk ∧ delta < (2 ^ 31 - 1) / 1000 then some (max delta 1 * 1000) else none

/-- `handshake_rtt` (tcp.rs:971). -/
def handshakeRtt (nowUs : Nat) (tsecr : Option Nat) (tsNowMs : Nat) : TcpConn :=
  let c := match c.handshakeSample nowUs tsecr tsNowMs with
    | none => c
    | some m => (c.rttMinSample m (nowUs / TICK_US)).ackUpdateRtt m
  { c with
    rto := if c.srttUs = 0 then TCP_TIMEOUT_FALLBACK else c.rto
    retries := 0
    retransStamp := none }

/-- A timer ran out (tcp.rs:2349, 2406). -/
def backOff : TcpConn := { c with rto := min (c.rto * 2) TCP_RTO_MAX }

/-- The mean deviation behind a sample as the estimator computes it, before it is cut to 32
bits (tcp.rs:904-916, 930). -/
def mdevWide (m : Nat) : Int :=
  let m : Int := (min m (2 ^ 31 - 1) : Nat)
  if c.srttUs = 0 then 2 * m
  else
    let err : Int := m - c.srttUs / 8
    c.mdevUs + if err < 0 then
      let d := -err - c.mdevUs / 4
      if 0 < d then d / 8 else d
    else err - c.mdevUs / 4

/-- The cut of the mean deviation loses nothing. -/
def MdevExact (m : Nat) : Prop := ((c.rttEstimator m).mdevUs : Int) = c.mdevWide m

/-- The sample does not exceed the smoothed RTT by more than the deviation has room for. -/
def SampleFits (m : Nat) : Prop :=
  c.srttUs = 0 ∨ min m (2 ^ 31 - 1) + (c.mdevUs - c.mdevUs / 4) < 2 ^ 32 + c.srttUs / 8

/-- What holds of the estimator at any time; `floor` once a sample was folded in. -/
structure RttOk : Prop where
  srtt : c.srttUs < 2 ^ 32
  mdev : c.mdevUs < 2 ^ 32
  mdevMax : c.mdevMaxUs < 2 ^ 32
  rttvar : c.rttvarUs < 2 ^ 32
  floor : c.srttUs ≠ 0 → 200000 ≤ c.mdevMaxUs ∧ 200000 ≤ c.rttvarUs
  rto : 20 ≤ c.rto ∧ c.rto ≤ 12000

theorem rttOk_blank (state : State) (localPort : Nat) (owner : Owner) :
    (blank state localPort owner).RttOk := by
  constructor <;> simp [blank, TCP_TIMEOUT_INIT]

/-! ## One sample -/

variable {c}

theorem mdevUs_rttEstimator (m : Nat) :
    (c.rttEstimator m).mdevUs = (c.mdevWide m).toNat % 2 ^ 32 := by
  unfold rttEstimator mdevWide
  dsimp only
  by_cases h : c.srttUs = 0
  · rw [if_neg (by omega), if_pos h]
    dsimp only
    omega
  · rw [if_pos (by omega), if_neg h]
    split <;> rfl

/-- **When the cut is exact.** A sample below the smoothed RTT never takes the deviation past 32
bits. -/
theorem mdevExact_iff (h : c.RttOk) (m : Nat) : c.MdevExact m ↔ c.SampleFits m := by
  have hsrtt := h.srtt
  have hmdev := h.mdev
  unfold MdevExact SampleFits
  rw [mdevUs_rttEstimator]
  unfold mdevWide
  dsimp only
  split
  · omega
  split
  · split <;> omega
  · omega

/-- The estimator's fields behind a sample: there is an RTT, and the floor of the variance. -/
theorem RttOk.rttEstimator (h : c.RttOk) (m : Nat) :
    (c.rttEstimator m).RttOk ∧ (c.rttEstimator m).srttUs ≠ 0 := by
  obtain ⟨hsrtt, hmdev, hmax, hvar, hfloor, hrto⟩ := h
  generalize hd : c.rttEstimator m = d
  unfold TcpConn.rttEstimator at hd
  extract_lets rtoMinUs m srtt err srtt' d' dev mdev mdevMax rttvar srttUs mdev₀ rttvar₀ at hd
  have hmin : rtoMinUs < 2 ^ 32 ∧ 200000 ≤ rtoMinUs := by
    simp only [rtoMinUs, TCP_RTO_MIN, TICK_US]
    omega
  split at hd
  · next hne =>
    obtain ⟨hfmax, hfvar⟩ := hfloor (by omega)
    have hmdev' : mdev < 2 ^ 32 := Nat.mod_lt _ (by decide)
    have hmax' : mdevMax < 2 ^ 32 ∧ 200000 ≤ mdevMax := by
      simp only [mdevMax]
      split <;> omega
    have hvar' : rttvar < 2 ^ 32 ∧ 200000 ≤ rttvar := by
      simp only [rttvar]
      split <;> omega
    have hsrtt' : srttUs < 2 ^ 32 ∧ srttUs ≠ 0 := by
      simp only [srttUs, U32_MAX]
      omega
    clear_value mdev mdevMax rttvar srttUs
    split at hd
    · -- The window of the largest deviation ends, the next one starts from the floor.
      have hdecay : (if mdevMax < rttvar then rttvar - (rttvar - mdevMax) / 4 else rttvar) < 2 ^ 32 ∧
          200000 ≤ if mdevMax < rttvar then rttvar - (rttvar - mdevMax) / 4 else rttvar := by
        split <;> omega
      subst hd
      exact ⟨⟨hsrtt'.1, hmdev', hmin.1, hdecay.1, fun _ => ⟨hmin.2, hdecay.2⟩, hrto⟩, hsrtt'.2⟩
    · subst hd
      exact ⟨⟨hsrtt'.1, hmdev', hmax'.1, hvar'.1, fun _ => ⟨hmax'.2, hvar'.2⟩, hrto⟩, hsrtt'.2⟩
  · subst hd
    have hmdev' : mdev₀ < 2 ^ 32 := by simp only [mdev₀, m]; omega
    have hvar' : rttvar₀ < 2 ^ 32 ∧ 200000 ≤ rttvar₀ := by simp only [rttvar₀]; omega
    refine ⟨⟨?_, hmdev', hvar'.1, hvar'.1, fun _ => ⟨hvar'.2, hvar'.2⟩, hrto⟩, ?_⟩
    · simp only [U32_MAX]
      omega
    · simp only [U32_MAX]
      omega

theorem RttOk.ackUpdateRtt (h : c.RttOk) (m : Nat) :
    (c.ackUpdateRtt m).RttOk ∧ (c.ackUpdateRtt m).srttUs ≠ 0 := by
  obtain ⟨hok, hne⟩ := h.rttEstimator m
  have hvar := (hok.floor hne).2
  refine ⟨{ hok with rto := ?_ }, hne⟩
  simp only [TcpConn.ackUpdateRtt, TICK_US, TCP_RTO_MAX]
  omega

theorem RttOk.handshakeRtt (h : c.RttOk) (nowUs : Nat) (tsecr : Option Nat) (tsNowMs : Nat) :
    (c.handshakeRtt nowUs tsecr tsNowMs).RttOk ∧
      (c.srttUs ≠ 0 ∨ c.handshakeSample nowUs tsecr tsNowMs ≠ none →
        (c.handshakeRtt nowUs tsecr tsNowMs).srttUs ≠ 0) := by
  unfold TcpConn.handshakeRtt
  cases c.handshakeSample nowUs tsecr tsNowMs with
  | none =>
    refine ⟨{ h with rto := ?_ }, fun hs => hs.resolve_right (not_not_intro rfl)⟩
    have hrto := h.rto
    dsimp only [TCP_TIMEOUT_FALLBACK]
    split <;> omega
  | some m =>
    have hmin : (c.rttMinSample m (nowUs / TICK_US)).RttOk := { h with }
    obtain ⟨hok, hne⟩ := hmin.ackUpdateRtt m
    dsimp only
    rw [if_neg hne]
    exact ⟨{ hok with }, fun _ => hne⟩

/-! ## Samples below 2^30 µs -/

/-- With samples of less than 18 minutes the deviation stays below four times the largest. -/
theorem mdevUs_le {m : Nat} (h : c.srttUs < 2 ^ 32) (hmdev : c.mdevUs ≤ 2 ^ 32 - 4)
    (hm : m < 2 ^ 30) : (c.rttEstimator m).mdevUs ≤ 2 ^ 32 - 4 := by
  rw [mdevUs_rttEstimator]
  unfold mdevWide
  dsimp only
  split
  · omega
  split
  · split <;> omega
  · omega

theorem mdevUs_handshakeRtt (nowUs : Nat) (tsecr : Option Nat) (tsNowMs : Nat) :
    (c.handshakeRtt nowUs tsecr tsNowMs).mdevUs =
      ((c.handshakeSample nowUs tsecr tsNowMs).map fun m => (c.rttEstimator m).mdevUs).getD
        c.mdevUs := by
  unfold handshakeRtt
  cases c.handshakeSample nowUs tsecr tsNowMs with
  | none => rfl
  | some m => simp only [ackUpdateRtt, mdevUs_rttEstimator, Option.map_some, Option.getD_some]; rfl

end TcpConn

/-! ## Any sequence of samples and backoffs -/

/-- What happens to the estimator: a sample, the end of the handshake with the sample it gave, a
timer that ran out; `other` is whatever else the connection does. -/
inductive RttEvent
  | sample (m : Nat)
  | handshake (m : Option Nat)
  | backOff
  | other

def RttEvent.sampled : RttEvent → Option Nat
  | .sample m => some m
  | .handshake m => m
  | .backOff | .other => none

def RttStep (c : TcpConn) : RttEvent → TcpConn → Prop
  | .sample m, d => d = c.ackUpdateRtt m
  | .handshake m, d => ∃ nowUs tsecr tsNowMs,
      c.handshakeSample nowUs tsecr tsNowMs = m ∧ d = c.handshakeRtt nowUs tsecr tsNowMs
  | .backOff, d => d = c.backOff
  | .other, d => d.srttUs = c.srttUs ∧ d.mdevUs = c.mdevUs ∧ d.mdevMaxUs = c.mdevMaxUs ∧
      d.rttvarUs = c.rttvarUs ∧ d.rto = c.rto

/-- **One step** keeps the bounds, and the smoothed RTT that a sample has set. -/
theorem RttStep.ok {c d : TcpConn} {e : RttEvent} (h : c.RttOk) (hstep : RttStep c e d) :
    d.RttOk ∧ (c.srttUs ≠ 0 ∨ e.sampled ≠ none → d.srttUs ≠ 0) := by
  cases e with
  | sample m =>
    subst hstep
    obtain ⟨hok, hne⟩ := h.ackUpdateRtt m
    exact ⟨hok, fun _ => hne⟩
  | handshake m =>
    obtain ⟨nowUs, tsecr, tsNowMs, rfl, rfl⟩ := hstep
    exact h.handshakeRtt nowUs tsecr tsNowMs
  | backOff =>
    subst hstep
    refine ⟨{ h with rto := ?_ }, fun hs => hs.resolve_right (not_not_intro rfl)⟩
    have hrto := h.rto
    simp only [TcpConn.backOff, TCP_RTO_MAX]
    omega
  | other =>
    obtain ⟨hsrtt, hmdev, hmax, hvar, hrto⟩ := hstep
    refine ⟨?_, fun hs => hsrtt ▸ hs.resolve_right (not_not_intro rfl)⟩
    constructor <;> simp only [hsrtt, hmdev, hmax, hvar, hrto]
    exacts [h.srtt, h.mdev, h.mdevMax, h.rttvar, h.floor, h.rto]

/-- **A run with a sample** ends with a smoothed RTT. -/
theorem srttUs_ne_zero_run {c d : TcpConn} {evs : List RttEvent} (h : c.RttOk)
    (hrun : Run RttStep c evs d) (hs : c.srttUs ≠ 0 ∨ ∃ e ∈ evs, e.sampled ≠ none) :
    d.srttUs ≠ 0 := by
  induction hrun with
  | nil => exact hs.resolve_right fun ⟨_, he, _⟩ => List.not_mem_nil he
  | cons hstep _ ih =>
    obtain ⟨hok, hkeep⟩ := hstep.ok h
    refine ih hok ?_
    rcases hs with hs | ⟨e, he, hsampled⟩
    · exact .inl (hkeep (.inl hs))
    rcases List.mem_cons.mp he with rfl | he
    · exact .inl (hkeep (.inr hsampled))
    · exact .inr ⟨e, he, hsampled⟩

/-- **One step** with a small sample keeps the deviation small. -/
theorem RttStep.small {c d : TcpConn} {e : RttEvent} (h : c.RttOk)
    (hsmall : ∀ m ∈ e.sampled, m < 2 ^ 30) (hmdev : c.mdevUs ≤ 2 ^ 32 - 4)
    (hstep : RttStep c e d) : d.mdevUs ≤ 2 ^ 32 - 4 := by
  cases e with
  | sample m =>
    subst hstep
    exact TcpConn.mdevUs_le h.srtt hmdev (hsmall m rfl)
  | handshake m =>
    obtain ⟨nowUs, tsecr, tsNowMs, rfl, rfl⟩ := hstep
    rw [TcpConn.mdevUs_handshakeRtt]
    cases hm : c.handshakeSample nowUs tsecr tsNowMs with
    | none => exact hmdev
    | some m => exact TcpConn.mdevUs_le h.srtt hmdev (hsmall m hm)
  | backOff =>
    subst hstep
    exact hmdev
  | other => exact hstep.2.1 ▸ hmdev

variable {state : State} {port : Nat} {owner : Owner} {evs : List RttEvent} {c : TcpConn}

/-- **The bounds of the RTO**, for every sequence of samples of any size, backoffs and whatever else
the connection does. The timeout lies between 20 and 12000 ticks, and after a run with a sample
the variance is at least 200 ms. No field leaves its type, except that a sample can cut the mean
deviation off: not in a run whose samples are all below 2^30 µs, and else exactly if it does not
fit. -/
theorem rto_bounded (hrun : Run RttStep (.blank state port owner) evs c) :
    c.RttOk ∧ ((∃ e ∈ evs, e.sampled ≠ none) → 200000 ≤ c.rttvarUs) ∧
      ((∀ e ∈ evs, ∀ m ∈ e.sampled, m < 2 ^ 30) → ∀ m < 2 ^ 30, c.MdevExact m) ∧
      ∀ m, c.MdevExact m ↔ c.SampleFits m := by
  have hblank := TcpConn.rttOk_blank state port owner
  have hok : c.RttOk := hrun.invariant (fun _ _ _ h hstep => (hstep.ok h).1) hblank
  refine ⟨hok, fun hs => (hok.floor (srttUs_ne_zero_run hblank hrun (.inr hs))).2,
    fun hsmall m hm => ?_, TcpConn.mdevExact_iff hok⟩
  have hmdev : c.RttOk ∧ c.mdevUs ≤ 2 ^ 32 - 4 :=
    hrun.invariant_of (I := fun c => c.RttOk ∧ c.mdevUs ≤ 2 ^ 32 - 4)
      (fun _ _ _ h hG hstep => ⟨(hstep.ok h.1).1, hstep.small h.1 hG h.2⟩) hsmall
      ⟨hblank, Nat.zero_le _⟩
  rw [TcpConn.mdevExact_iff hok, TcpConn.SampleFits]
  omega

/-- A handshake of 40 ms, a timer that ran out and a sample of a second. -/
theorem rto_bounded_second_sample :
    let c := ((TcpConn.blank .established 80 KERNEL).handshakeRtt 40000 none 0).backOff.ackUpdateRtt
      1000000
    (20 ≤ c.rto ∧ c.rto ≤ 12000) ∧ 200000 ≤ c.rttvarUs ∧ c.MdevExact (2 ^ 30 - 1) ∧
      c.SampleFits (2 ^ 30 - 1) := by
  intro c
  have hrun : Run RttStep (.blank .established 80 KERNEL)
      [.handshake (some 40000), .backOff, .sample 1000000] c :=
    .cons ⟨40000, none, 0, rfl, rfl⟩ (.cons rfl (.single rfl))
  obtain ⟨hok, hvar, hsmall, hfits⟩ := rto_bounded hrun
  have hexact := hsmall (by simp [RttEvent.sampled]) (2 ^ 30 - 1) (by decide)
  exact ⟨hok.rto, hvar ⟨.sample 1000000, by simp, nofun⟩, hexact, (hfits _).mp hexact⟩

/-- Two samples of `u64::MAX`: the deviation is 4831838207, the field keeps 536870911 of it. -/
theorem mdev_wraps : let c := (TcpConn.blank .established 80 KERNEL).ackUpdateRtt (2 ^ 64 - 1)
    c.mdevWide (2 ^ 64 - 1) = 4831838207 ∧ (c.ackUpdateRtt (2 ^ 64 - 1)).mdevUs = 536870911 := by
  decide +kernel

end NopeekOS.Net.Tcp
