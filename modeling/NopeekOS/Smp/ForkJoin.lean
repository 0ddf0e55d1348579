import NopeekOS.Lib.Run

/-!
# Fork-join

`par::for_each` (smp/par.rs): the caller and the helpers take indices from one counter. A helper
counts itself in `active` before it looks at `closed`, and the caller sets `closed` before it
waits for `active` to be zero, so that a helper that comes late leaves without a call. The atomics
are sequentially consistent: a run is any order of their accesses.
-/

namespace NopeekOS.Smp

open Lib List

/-- Where the caller is. -/
inductive Caller
  | draining | calling | drained | joining | returned

/-- The accesses that the caller has ahead, but for those of later calls. -/
def Caller.rest : Caller → Nat
  | draining => 3
  | calling => 4
  | drained => 2
  | joining => 1
  | returned => 0

/-- The atomics of a `Job` (par.rs:10), the indices that `f` was called with, where the caller is
and, as the helpers are all alike, how many of them are at each place of `helper` (par.rs:71). -/
structure Job where
  next : Nat := 0
  active : Nat := 0
  closed : Bool := false
  calls : List Nat := []
  caller : Caller := .draining
  spawned : Nat
  counted : Nat := 0
  draining : Nat := 0
  calling : Nat := 0
  leaving : Nat := 0
  left : Nat := 0

/-- The `fetch_add` of `Job::drain`. -/
def Job.pass (j : Job) : Job := { j with next := (j.next + 1) % 2 ^ 64 }

/-- The `fetch_add` returns an index, and `f` is called with it. -/
def Job.take (j : Job) : Job := { j.pass with calls := j.calls ++ [j.next] }

/-- One access: of the caller, in `Job::drain` (par.rs:27) and after it (par.rs:65), or of a
helper. -/
inductive Step (n : Nat) (j : Job) : Bool → Job → Prop
  | take : j.caller = .draining → j.next < n → Step n j true { j.take with caller := .calling }
  | back : j.caller = .calling → Step n j true { j with caller := .draining }
  | stop : j.caller = .draining → n ≤ j.next → Step n j true { j.pass with caller := .drained }
  | close : j.caller = .drained → Step n j true { j with closed := true, caller := .joining }
  | join : j.caller = .joining → j.active = 0 → Step n j true { j with caller := .returned }
  | count : 0 < j.spawned → Step n j false
      { j with active := j.active + 1, spawned := j.spawned - 1, counted := j.counted + 1 }
  | enter : 0 < j.counted → j.closed = false →
      Step n j false { j with counted := j.counted - 1, draining := j.draining + 1 }
  | late : 0 < j.counted → j.closed = true →
      Step n j false { j with counted := j.counted - 1, leaving := j.leaving + 1 }
  | helperTake : 0 < j.draining → j.next < n →
      Step n j false { j.take with draining := j.draining - 1, calling := j.calling + 1 }
  | helperBack : 0 < j.calling →
      Step n j false { j with calling := j.calling - 1, draining := j.draining + 1 }
  | helperStop : 0 < j.draining → n ≤ j.next →
      Step n j false { j.pass with draining := j.draining - 1, leaving := j.leaving + 1 }
  | leave : 0 < j.leaving →
      Step n j false { j with active := j.active - 1, leaving := j.leaving - 1, left := j.left + 1 }

/-- The calls of the caller's own loop over `0..n` (par.rs:44). -/
def loop : Nat → List Nat
  | 0 => []
  | n + 1 => loop n ++ [n]

/-- What holds after `k` accesses to `next`, with `h` helpers. -/
structure Inv (n h k : Nat) (j : Job) : Prop where
  next : j.next = k % 2 ^ 64
  calls : j.calls = range (min k n)
  bound : k ≤ n + j.leaving + j.left + if j.caller.rest ≤ 2 then 1 else 0
  full : j.caller.rest ≤ 2 → n ≤ k
  helpers : j.spawned + j.counted + j.draining + j.calling + j.leaving + j.left = h
  active : j.active = j.counted + j.draining + j.calling + j.leaving
  closed : j.caller = .joining ∨ j.caller = .returned → j.closed = true
  joined : j.caller = .returned → j.draining = 0 ∧ j.calling = 0

/-- The accesses to come, at most. -/
def rest (n k : Nat) (j : Job) : Nat :=
  2 * (n - k) + 5 * j.spawned + 4 * j.counted + 2 * j.draining + 3 * j.calling + j.leaving +
    j.caller.rest

variable {n h k : Nat} {j j' : Job} {b : Bool}

theorem Inv.step (hinv : Inv n h k j) (hfits : n + h < 2 ^ 64) (hstep : Step n j b j') :
    ∃ k', Inv n h k' j' ∧ rest n k' j' < rest n k j := by
  obtain ⟨hnext, hcalls, hover, hfull, hh, hactive, hclosed, hjoined⟩ := hinv
  -- The counter has not wrapped while one of the parties is still to pass the last index.
  have hnew (hk : k ≤ n + h) (hn : j.next < n) :
      j.next = k ∧ j.take.calls = range (min (k + 1) n) := by
    have hnext : j.next = k := by omega
    rw [Job.take, hcalls, hnext, Nat.min_eq_left (by omega), Nat.min_eq_left (by omega), range_succ]
    exact ⟨rfl, rfl⟩
  have hold (hn : n ≤ j.next) : n ≤ k ∧ j.calls = range (min (k + 1) n) := by
    have hk : n ≤ k := by omega
    rw [hcalls, Nat.min_eq_right hk, Nat.min_eq_right (by omega)]
    exact ⟨hk, rfl⟩
  unfold rest
  cases hstep with
  | take hc hn | helperTake hc hn =>
    obtain ⟨hk, hcalls⟩ := hnew (by grind [Caller.rest]) hn
    refine ⟨k + 1, ⟨?_, hcalls, ?_, ?_, ?_, ?_, ?_, ?_⟩, ?_⟩
    all_goals grind [Caller.rest, Job.take, Job.pass]
  | stop hc hn | helperStop hc hn =>
    obtain ⟨hk, hcalls⟩ := hold hn
    refine ⟨k + 1, ⟨?_, hcalls, ?_, ?_, ?_, ?_, ?_, ?_⟩, ?_⟩
    all_goals grind [Caller.rest, Job.pass]
  | _ =>
    refine ⟨k, ⟨?_, hcalls, ?_, ?_, ?_, ?_, ?_, ?_⟩, ?_⟩
    all_goals grind [Caller.rest]

theorem Inv.run (hinv : Inv n h k j) (hfits : n + h < 2 ^ 64) {ls : List Bool}
    (hrun : Run (Step n) j ls j') :
    ∃ k', Inv n h k' j' ∧ ls.length + rest n k' j' ≤ rest n k j := by
  induction hrun generalizing k with
  | nil => exact ⟨k, hinv, by simp⟩
  | cons hstep _ ih =>
    obtain ⟨k₁, hinv₁, hlt⟩ := hinv.step hfits hstep
    obtain ⟨k', hinv', hle⟩ := ih hinv₁
    refine ⟨k', hinv', ?_⟩
    rw [length_cons]
    omega

end NopeekOS.Smp
