import NopeekOS.Net.FqCodel

/-!
# The slots of fq_codel

`Pool q hand free fifo`: every one of the 256 slots is in exactly one place, in the free list, in
the FIFO of one flow or in the hands of the running function; the links and the heads and tails
are those lists, and the backlog is the bytes of the FIFOs. Each operation moves one slot.
-/

namespace NopeekOS.Net.Fq

open Lib Function List
open Finset (range)

namespace FqCodel

variable {q : FqCodel} {hand free : List Nat} {fifo : Nat → List Nat} {f s : Nat} {fl : Flow}

/-- The frame in a slot. -/
def frameAt (q : FqCodel) (s : Nat) : List Byte := (q.bufs s).take (q.lens s)

/-- A change of one flow, flow by flow. -/
theorem forall_setFlow {P : Nat → Flow → Prop} (hself : P f fl)
    (hother : ∀ g, g ≠ f → P g (q.flows g)) (g : Nat) : P g ((q.setFlow f fl).flows g) :=
  (forall_update_iff q.flows P).mpr ⟨hself, hother⟩ g

/-- **The pool invariant.** -/
structure Pool (q : FqCodel) (hand free : List Nat) (fifo : Nat → List Nat) : Prop where
  freeChain : Chained q.link EMPTY q.free free
  flowChain : ∀ f < FLOWS, Chained q.link EMPTY (q.flows f).head (fifo f)
  flowTail : ∀ f < FLOWS, (q.flows f).tail = (fifo f).getLastD EMPTY
  /-- Every slot is in one place. -/
  once : ∀ s, hand.count s + free.count s + ∑ f ∈ range FLOWS, (fifo f).count s =
    if s < CAP then 1 else 0
  room : ∀ s, (q.bufs s).length = MTU
  sized : ∀ f < FLOWS, ∀ s ∈ fifo f, 0 < q.lens s ∧ q.lens s ≤ MTU
  bytes : q.backlog = ∑ f ∈ range FLOWS, ((fifo f).map q.lens).sum

namespace Pool

theorem lt_cap_of_count (h : Pool q hand free fifo)
    (hs : 0 < hand.count s + free.count s + ∑ f ∈ range FLOWS, (fifo f).count s) :
    s < CAP := by
  by_contra hlt
  have := h.once s
  rw [if_neg hlt] at this
  omega

theorem ne_empty_of_lt (hs : s < CAP) : s ≠ EMPTY := by
  rintro rfl
  exact absurd hs (by decide)

/-! A slot is in one place only. -/

section

variable (h : Pool q (s :: hand) free fifo)

include h

theorem hand_lt : s < CAP :=
  h.lt_cap_of_count (by rw [count_cons_self]; omega)

theorem hand_not_free : s ∉ free := by
  intro hm
  have hpos := count_pos_iff.mpr hm
  have := h.once s
  rw [if_pos h.hand_lt, count_cons_self] at this
  omega

theorem hand_not_fifo (hf : f < FLOWS) : s ∉ fifo f := by
  intro hm
  have hpos := count_pos_iff.mpr hm
  have hle := le_sum (fun l => l.count s) fifo hf
  have := h.once s
  rw [if_pos h.hand_lt, count_cons_self] at this
  omega

end

section

variable (h : Pool q hand free fifo)

include h

theorem fifo_lt (hf : f < FLOWS) (hs : s ∈ fifo f) : s < CAP := by
  have hpos := count_pos_iff.mpr hs
  have hle := le_sum (fun l => l.count s) fifo hf
  exact h.lt_cap_of_count (by omega)

theorem fifo_not_free (hf : f < FLOWS) (hs : s ∈ fifo f) : s ∉ free := by
  intro hm
  have hpos := count_pos_iff.mpr hm
  have hpos' := count_pos_iff.mpr hs
  have hle := le_sum (fun l => l.count s) fifo hf
  have := h.once s
  split at this <;> omega

theorem fifo_disjoint {g : Nat} (hf : f < FLOWS) (hg : g < FLOWS) (hne : f ≠ g) (hs : s ∈ fifo f) :
    s ∉ fifo g := by
  intro hm
  have hpos := count_pos_iff.mpr hm
  have hpos' := count_pos_iff.mpr hs
  have hle := add_le_sum (fun l => l.count s) fifo hf hg hne
  have := h.once s
  split at this <;> omega

theorem fifo_nodup (hf : f < FLOWS) : (fifo f).Nodup := by
  rw [nodup_iff_count_le_one]
  intro s
  have hle := le_sum (fun l => l.count s) fifo hf
  have := h.once s
  split at this <;> omega

theorem free_nodup : free.Nodup := by
  rw [nodup_iff_count_le_one]
  intro s
  have := h.once s
  split at this <;> omega

/-- How many slots the flows hold together. -/
theorem length_le (hf : f < FLOWS) : (fifo f).length ≤ CAP := by
  have hsub : fifo f ⊆ List.range CAP := fun s hs => mem_range.mpr (h.fifo_lt hf hs)
  have hle := (h.fifo_nodup hf).subperm hsub
  simpa using hle.length_le

/-! ## Moves -/

/-- A flow's other fields are not of the pool. -/
theorem setFlow (hhead : fl.head = (q.flows f).head)
    (htail : fl.tail = (q.flows f).tail) : Pool (q.setFlow f fl) hand free fifo where
  __ := h
  flowChain := forall_setFlow (P := fun g fl => g < FLOWS → Chained q.link EMPTY fl.head (fifo g))
    (fun hg => hhead ▸ h.flowChain f hg) fun g _ => h.flowChain g
  flowTail := forall_setFlow (P := fun g fl => g < FLOWS → fl.tail = (fifo g).getLastD EMPTY)
    (fun hg => htail ▸ h.flowTail f hg) fun g _ => h.flowTail g

theorem setCodel (c : Codel) : Pool (q.setCodel f c) hand free fifo :=
  h.setFlow rfl rfl

end

/-- The flow `f` gets the queue `xs`, out of its own and the hands. -/
theorem move (h : Pool q hand free fifo) (hf : f < FLOWS) {hand' xs : List Nat} {link : Nat → Nat}
    {backlog : Nat} (hfree : Chained link EMPTY q.free free)
    (hother : ∀ g < FLOWS, g ≠ f → Chained link EMPTY (q.flows g).head (fifo g))
    (hhead : Chained link EMPTY fl.head xs) (htail : fl.tail = xs.getLastD EMPTY)
    (honce : ∀ x, hand'.count x + xs.count x = hand.count x + (fifo f).count x)
    (hsized : ∀ x ∈ xs, 0 < q.lens x ∧ q.lens x ≤ MTU)
    (hbytes : backlog + ((fifo f).map q.lens).sum = q.backlog + (xs.map q.lens).sum) :
    Pool { q.setFlow f fl with link := link, backlog := backlog } hand' free (update fifo f xs) := by
  refine ⟨hfree, fun g hg => ?_, fun g hg => ?_, fun x => ?_, h.room, fun g hg => ?_, ?_⟩
  · by_cases hgf : g = f
    · subst hgf
      simpa [FqCodel.setFlow] using hhead
    · simpa [FqCodel.setFlow, hgf] using hother g hg hgf
  · by_cases hgf : g = f
    · subst hgf
      simpa [FqCodel.setFlow] using htail
    · simpa [FqCodel.setFlow, hgf] using h.flowTail g hg
  · have hsum := sum_update (fun l => l.count x) fifo hf xs
    have := h.once x
    have := honce x
    omega
  · by_cases hgf : g = f
    · subst hgf
      rwa [update_self]
    · rw [update_of_ne hgf]
      exact h.sized g hg
  · have hsum := sum_update (fun l => (l.map q.lens).sum) fifo hf xs
    have := h.bytes
    show backlog = ∑ g ∈ range FLOWS, ((update fifo f xs g).map q.lens).sum
    omega

/-- A slot leaves the free list. -/
theorem allocSlot (h : Pool q hand (s :: free) fifo) :
    ∃ p, q.allocSlot = (some s, p) ∧ Pool p (s :: hand) free fifo := by
  obtain ⟨hs, hnil, hrest⟩ := h.freeChain
  have honce : ∀ x, (s :: hand).count x + free.count x +
      ∑ f ∈ range FLOWS, (fifo f).count x = if x < CAP then 1 else 0 := by
    intro x
    have := h.once x
    rw [count_cons] at this ⊢
    omega
  have hnodup := nodup_cons.mp h.free_nodup
  have hne : q.free ≠ EMPTY := hs ▸ hnil
  rw [FqCodel.allocSlot, if_neg hne, hs]
  refine ⟨_, rfl, hrest.frame hnodup.1, fun f hf => ?_, h.flowTail, honce, h.room, h.sized, h.bytes⟩
  exact (h.flowChain f hf).frame fun hm => h.fifo_not_free hf hm mem_cons_self

theorem allocSlot_nil (h : Pool q hand [] fifo) : q.allocSlot = (none, q) := by
  have hfree : q.free = EMPTY := h.freeChain
  rw [FqCodel.allocSlot, if_pos hfree]

/-- A slot goes back to the free list. -/
theorem freeSlot (h : Pool q (s :: hand) free fifo) : Pool (q.freeSlot s) hand (s :: free) fifo where
  __ := h
  freeChain := h.freeChain.push h.hand_not_free (ne_empty_of_lt h.hand_lt)
  flowChain f hf := (h.flowChain f hf).frame (h.hand_not_fifo hf)
  once x := by
    have := h.once x
    rw [count_cons] at this ⊢
    omega

/-- What is written to a slot in hand is not of the pool. -/
theorem store (h : Pool q (s :: hand) free fifo) {frame : List Byte} (hlen : frame.length ≤ MTU)
    (now : Nat) : Pool (q.store s frame now) (s :: hand) free fifo := by
  have hlens : ∀ g < FLOWS, ∀ x ∈ fifo g, (q.store s frame now).lens x = q.lens x :=
    fun g hg x hx =>
      update_of_ne (fun he : x = s => h.hand_not_fifo hg (he ▸ hx)) _ _
  refine ⟨h.freeChain.frame h.hand_not_free, fun g hg => (h.flowChain g hg).frame (h.hand_not_fifo hg),
    h.flowTail, h.once, fun x => ?_, fun g hg x hx => ?_, ?_⟩
  · by_cases hx : x = s
    · subst hx
      have := h.room x
      simp only [FqCodel.store, update_self, length_append, length_drop]
      omega
    · simpa [FqCodel.store, update_of_ne hx] using h.room x
  · rw [hlens g hg x hx]
    exact h.sized g hg x hx
  · refine h.bytes.trans (Finset.sum_congr rfl fun g hg => ?_)
    rw [map_congr_left fun x hx => hlens g (Finset.mem_range.mp hg) x hx]

section

variable (h : Pool q hand free fifo) (hf : f < FLOWS)

include h hf

theorem flowPop_nil (hfifo : fifo f = []) : q.flowPop f = (none, q) := by
  have hhead : (q.flows f).head = EMPTY := (h.flowChain f hf).eq_nil_iff.mpr hfifo
  rw [FqCodel.flowPop]
  rw [if_pos hhead]

/-- The head of a flow is taken, and its bytes go off the backlog. -/
theorem flowPop {rest : List Nat} (hfifo : fifo f = s :: rest) : (q.flowPop f).1 = some s ∧
      Pool { (q.flowPop f).2 with backlog := (q.flowPop f).2.backlog - q.lens s } (s :: hand) free
        (update fifo f rest) := by
  have hchain := h.flowChain f hf
  have htail := h.flowTail f hf
  have hnodup := h.fifo_nodup hf
  rw [hfifo] at hchain htail hnodup
  obtain ⟨hhead, hnil, hrest⟩ := hchain
  have hne : (q.flows f).head ≠ EMPTY := hhead ▸ hnil
  have hnext : q.link s = EMPTY ↔ rest = [] := hrest.eq_nil_iff
  rw [FqCodel.flowPop]
  rw [if_neg hne, hhead]
  refine ⟨rfl, h.move hf h.freeChain (fun g hg _ => h.flowChain g hg) hrest ?_ (fun x => ?_)
    (fun x hx => h.sized f hf x (hfifo ▸ mem_cons_of_mem s hx)) ?_⟩
  · by_cases hr : rest = []
    · rw [if_pos (hnext.mpr hr), hr]
      rfl
    · rw [if_neg (mt hnext.mp hr), htail]
      obtain ⟨y, ys, rfl⟩ := exists_cons_of_ne_nil hr
      rfl
  · rw [hfifo, count_cons, count_cons]
    omega
  · have hle := le_sum (fun l => (l.map q.lens).sum) fifo hf
    have := h.bytes
    simp only [hfifo, map_cons, sum_cons] at hle ⊢
    show q.backlog - q.lens s + _ = _
    omega

/-- The last slot of a flow that has one. -/
theorem tail_mem (hne : fifo f ≠ []) : (q.flows f).tail ∈ fifo f := by
  rw [h.flowTail f hf]
  obtain ⟨y, ys, hys⟩ := exists_cons_of_ne_nil hne
  rw [hys, getLastD_cons]
  exact getLastD_mem_cons

theorem tail_eq_empty_iff : (q.flows f).tail = EMPTY ↔ fifo f = [] := by
  constructor
  · intro he
    by_contra hne
    exact (h.flowChain f hf).ne_nil_of_mem (h.tail_mem hf hne) he
  · intro he
    rw [h.flowTail f hf, he]
    rfl

end

/-- A slot in hand goes to the end of a flow. -/
theorem append (h : Pool q (s :: hand) free fifo) (hf : f < FLOWS) (hend : q.link s = EMPTY)
    (hsize : 0 < q.lens s ∧ q.lens s ≤ MTU) :
    Pool (q.append f s (q.lens s)) hand free (update fifo f (fifo f ++ [s])) := by
  have hs := h.hand_not_fifo hf
  have hnil : s ≠ EMPTY := ne_empty_of_lt h.hand_lt
  have honce : ∀ x, hand.count x + (fifo f ++ [s]).count x = (s :: hand).count x + (fifo f).count x := by
    intro x
    rw [count_append, count_singleton, count_cons]
    omega
  have hsized : ∀ x ∈ fifo f ++ [s], 0 < q.lens x ∧ q.lens x ≤ MTU :=
    forall_mem_append.mpr ⟨h.sized f hf, forall_mem_singleton.mpr hsize⟩
  have hbytes : q.backlog + q.lens s + ((fifo f).map q.lens).sum =
      q.backlog + ((fifo f ++ [s]).map q.lens).sum := by
    rw [map_append, sum_append, map_singleton, sum_singleton]
    omega
  unfold FqCodel.append
  dsimp only
  by_cases hf0 : fifo f = []
  · -- The first packet of the flow.
    rw [if_pos ((h.tail_eq_empty_iff hf).mpr hf0)]
    refine h.move hf h.freeChain (fun g hg _ => h.flowChain g hg) ?_ ?_ honce hsized hbytes
    · rw [hf0]
      exact ⟨rfl, hnil, hend⟩
    · rw [hf0]
      rfl
  · rw [if_neg (mt (h.tail_eq_empty_iff hf).mp hf0)]
    have htmem := h.tail_mem hf hf0
    refine h.move hf (h.freeChain.frame (h.fifo_not_free hf htmem)) (fun g hg hgf => ?_) ?_ ?_ honce
      hsized hbytes
    · exact (h.flowChain g hg).frame (h.fifo_disjoint hf hg (Ne.symm hgf) htmem)
    · rw [h.flowTail f hf]
      exact (h.flowChain f hf).snoc hf0 (h.fifo_nodup hf) hs hnil hend
    · simp

/-- All slots free. -/
theorem setup_chain (n : Nat) (hn : n ≤ CAP) :
    Chained (fun i => if i + 1 < CAP then i + 1 else EMPTY) EMPTY
      (if CAP - n < CAP then CAP - n else EMPTY) (range' (CAP - n) n) := by
  induction n with
  | zero => rfl
  | succ n ih =>
    have hlt : CAP - (n + 1) < CAP := by
      have : 0 < CAP := by decide
      omega
    have hsucc : CAP - (n + 1) + 1 = CAP - n := by omega
    rw [if_pos hlt, range'_succ]
    refine ⟨rfl, ne_empty_of_lt hlt, ?_⟩
    dsimp only
    rw [hsucc]
    exact ih (by omega)

theorem setup (hroom : ∀ s, (q.bufs s).length = MTU) (hb : q.backlog = 0) :
    Pool q.setup [] (List.range CAP) fun _ => [] where
  freeChain := by
    have := setup_chain CAP le_rfl
    rwa [Nat.sub_self, if_pos (by decide : 0 < CAP), ← range_eq_range'] at this
  flowChain f hf := rfl
  flowTail f hf := rfl
  once s := by
    rw [count_nil]
    rw [Finset.sum_const_zero, Nat.add_zero, Nat.zero_add]
    by_cases hs : s < CAP
    · rw [if_pos hs, count_eq_one_of_mem nodup_range (mem_range.mpr hs)]
    · rw [if_neg hs, count_eq_zero_of_not_mem fun hm => hs (mem_range.mp hm)]
  room := hroom
  sized f hf s hs := by cases hs
  bytes := by simpa [FqCodel.setup] using hb

end Pool

end FqCodel

end NopeekOS.Net.Fq
