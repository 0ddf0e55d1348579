import NopeekOS.Lib.Run

/-!
# Callers that load an object, change it and write it back

Each caller loads the shared object, works out from what it found what to save, if anything, and
saves that. Loads and saves of different callers interleave in any way. Where no caller takes a
step while another has something to save, the object comes out as if the callers had run one after
another.
-/

namespace NopeekOS.Lib.Rmw

open Function

/-- The object, the callers that have loaded it, in that order, and what each is still to save. -/
structure State (ι O : Type*) where
  object : O
  loaded : List ι
  todo : ι → Option O

variable {ι O : Type*} [DecidableEq ι] {writes : ι → O → Option (Option O)}

/-- One load or one save of a caller; `writes` is what a caller makes of what it loads, where it
can load that. -/
inductive Step (writes : ι → O → Option (Option O)) : State ι O → ι → State ι O → Prop where
  | load {s : State ι O} {i : ι} {w : Option O} : i ∉ s.loaded → writes i s.object = some w →
      Step writes s i ⟨s.object, s.loaded ++ [i], update s.todo i w⟩
  | save {s : State ι O} {i : ι} {o : O} : s.todo i = some o →
      Step writes s i ⟨o, s.loaded, update s.todo i none⟩

def State.start (o : O) : State ι O := ⟨o, [], fun _ => none⟩

/-- Every caller has loaded and saved. -/
def State.Done (s : State ι O) : Prop := ∀ i, i ∈ s.loaded ∧ s.todo i = none

/-- No other caller has anything to save. -/
def State.Alone (s : State ι O) (i : ι) : Prop := ∀ j, j ≠ i → s.todo j = none

variable {serial : O → ι → O} {o : O} {s : State ι O}

/-- The order of the loads explains the object: a caller that is alone has only its own save to
add. -/
structure Explained (serial : O → ι → O) (o : O) (s : State ι O) : Prop where
  nodup : s.loaded.Nodup
  idle : ∀ i, i ∉ s.loaded → s.todo i = none
  object : ∀ i, s.Alone i → s.loaded.foldl serial o = (s.todo i).getD s.object

/-- A step of a caller that is alone leaves all others with nothing to add. -/
theorem State.Alone.explains {i : ι} (h : s.Alone i) {o x : O} {w : Option O}
    {l : List ι} (hx : x = w.getD o) (k : ι) (hk : State.Alone ⟨o, l, update s.todo i w⟩ k) :
    x = (update s.todo i w k).getD o := by
  by_cases hki : k = i
  · subst hki
    rw [update_self]
    exact hx
  · have hw : w = none := by simpa using hk i (Ne.symm hki)
    rw [update_of_ne hki, h k hki, hx, hw]

/-- **Step lemma**, where `serial` is a caller from its load to its save. -/
theorem Explained.step (hserial : ∀ o i w, writes i o = some w → serial o i = w.getD o)
    {s s' : State ι O} {i : ι} (h : Explained serial o s) (hs : Step writes s i s' ∧ s.Alone i) :
    Explained serial o s' := by
  obtain ⟨hstep, halone⟩ := hs
  have hi := h.object i halone
  cases hstep with
  | load hnew hw =>
    have hne (k : ι) (hk : k ∈ s.loaded) : k ≠ i := fun hki => hnew (hki ▸ hk)
    refine ⟨by simpa [List.nodup_append, h.nodup] using hne, fun k hk => ?_, halone.explains ?_⟩
    · rw [List.mem_append, not_or, List.mem_singleton] at hk
      exact (update_of_ne hk.2 _ _).trans (h.idle k hk.1)
    · rw [h.idle i hnew] at hi
      rw [List.foldl_append, hi]
      exact hserial _ _ _ hw
  | save htodo =>
    rw [htodo] at hi
    refine ⟨h.nodup, fun k hk => ?_, halone.explains hi⟩
    by_cases hki : k = i
    · subst hki
      exact update_self ..
    · exact (update_of_ne hki _ _).trans (h.idle k hk)

/-- **Callers that do not overlap run one after another**, in the order of their loads. -/
theorem serial_of_alone [Nonempty ι] {ls : List ι}
    (hserial : ∀ o i w, writes i o = some w → serial o i = w.getD o)
    (hrun : Run (fun s i s' => Step writes s i s' ∧ s.Alone i) (.start o) ls s) (hdone : s.Done) :
    s.loaded.Nodup ∧ s.object = s.loaded.foldl serial o := by
  have hstart : Explained serial o (State.start o) := ⟨List.nodup_nil, fun _ _ => rfl, fun _ _ => rfl⟩
  have h := hrun.invariant (fun _ _ _ h hs => h.step hserial hs) hstart
  obtain ⟨i⟩ := ‹Nonempty ι›
  rw [h.object i fun j _ => (hdone j).2, (hdone i).2]
  exact ⟨h.nodup, rfl⟩

section Two

variable {O : Type*} {writes : Bool → O → Option (Option O)} {o x y : O}

/-- Two callers, one behind the other. -/
theorem apart (hx : writes true o = some (some x)) (hy : writes false x = some (some y)) :
    ∃ s, Run (fun s i s' => Step writes s i s' ∧ s.Alone i) (.start o) [true, true, false, false] s ∧
      s.Done ∧ s.object = y := by
  refine ⟨_, .cons ⟨.load nofun hx, ?_⟩ (.cons ⟨.save rfl, ?_⟩
    (.cons ⟨.load (by simp [State.start]) hy, ?_⟩ (.cons ⟨.save rfl, ?_⟩ (.nil _)))), ?_, rfl⟩
  all_goals simp [State.Alone, State.Done, State.start]

/-- Two callers that both load first: the first one's save is overwritten. -/
theorem overlap (hx : writes true o = some (some x)) (hy : writes false o = some (some y)) :
    ∃ s, Run (Step writes) (.start o) [true, false, true, false] s ∧ s.Done ∧ s.object = y := by
  refine ⟨_, .cons (.load nofun hx) (.cons (.load (by simp [State.start]) hy) (.cons (.save rfl)
    (.cons (.save rfl) (.nil _)))), ?_, rfl⟩
  simp [State.Done, State.start]

end Two

end NopeekOS.Lib.Rmw
