import NopeekOS.Net.FqCodelPool

/-!
# What leaves the flows of fq_codel

CoDel takes a prefix off a flow: some packets are dropped from its head, and then one is in hand or
the flow is empty (`codelDequeue_spec`). When the pool is full, one packet of the fattest flow is
dropped (`slotFor_spec`); as long as anything is queued there is one, so a frame that fits is always
taken.
-/

namespace NopeekOS.Net.Fq

open Lib Function List
open Prod (ext)

namespace FqCodel

/-- What taking packets leaves alone: the stored frames, the scheduler and the other counters. -/
structure Same (q q' : FqCodel) : Prop where
  bufs : q'.bufs = q.bufs
  lens : q'.lens = q.lens
  newQ : q'.newQ = q.newQ
  oldQ : q'.oldQ = q.oldQ
  deficit : ∀ f, (q'.flows f).deficit = (q.flows f).deficit
  inList : ∀ f, (q'.flows f).inList = (q.flows f).inList
  interval : q'.interval = q.interval
  full : q'.dropsFull = q.dropsFull

namespace Same

variable (q : FqCodel)

theorem refl : Same q q := ⟨rfl, rfl, rfl, rfl, fun _ => rfl, fun _ => rfl, rfl, rfl⟩

theorem trans {q₁ q₂ q₃ : FqCodel} (h : Same q₁ q₂) (h' : Same q₂ q₃) : Same q₁ q₃ :=
  ⟨h'.bufs.trans h.bufs, h'.lens.trans h.lens, h'.newQ.trans h.newQ, h'.oldQ.trans h.oldQ,
    fun f => (h'.deficit f).trans (h.deficit f), fun f => (h'.inList f).trans (h.inList f),
    h'.interval.trans h.interval, h'.full.trans h.full⟩

theorem frameAt {q q' : FqCodel} (h : Same q q') : q'.frameAt = q.frameAt := by
  funext s
  rw [FqCodel.frameAt, FqCodel.frameAt, h.bufs, h.lens]

/-- A flow keeps its deficit and its list. -/
theorem setFlow {f : Nat} {fl : Flow} (hd : fl.deficit = (q.flows f).deficit)
    (hl : fl.inList = (q.flows f).inList) : Same q (q.setFlow f fl) := by
  refine ⟨rfl, rfl, rfl, rfl, ?_, ?_, rfl, rfl⟩
  · exact forall_setFlow (P := fun g fl => fl.deficit = (q.flows g).deficit) hd fun _ _ => rfl
  · exact forall_setFlow (P := fun g fl => fl.inList = (q.flows g).inList) hl fun _ _ => rfl

theorem setCodel (f : Nat) (c : Codel) : Same q (q.setCodel f c) := setFlow q rfl rfl

theorem flowPop (f : Nat) : Same q (q.flowPop f).2 := by
  rw [FqCodel.flowPop]
  split
  · exact refl q
  · exact setFlow q rfl rfl

end Same

variable {q : FqCodel} {hand free : List Nat} {fifo : Nat → List Nat} {f s : Nat}

/-! ## CoDel -/

theorem setCodel_self (q : FqCodel) (f : Nat) : q.setCodel f (q.flows f).codel = q := by
  have hself : update q.flows f (q.flows f) = q.flows := update_eq_self f q.flows
  show ({ q with flows := update q.flows f (q.flows f) } : FqCodel) = q
  rw [hself]

/-- `should_drop` changes at most the CoDel state of the flow, and says yes only while more than
one frame's worth of bytes is left. -/
theorem shouldDrop_eq (q : FqCodel) (f s now : Nat) :
    ∃ c, (q.shouldDrop f s now).2 = q.setCodel f c ∧
      ((q.shouldDrop f s now).1 = true → MTU < q.backlog) := by
  rw [shouldDrop]
  split
  · exact ⟨_, rfl, nofun⟩
  rename_i hlow
  split
  · exact ⟨_, rfl, nofun⟩
  · exact ⟨_, (q.setCodel_self f).symm, fun _ => Nat.lt_of_not_le fun h => hlow (.inr h)⟩

/-- All that matters of `should_drop` here. -/
theorem takeHead_of_flowPop {p : FqCodel} (h : q.flowPop f = (some s, p)) (now : Nat) :
    ∃ drop c, q.takeHead f now =
      (some (s, drop), setCodel { p with backlog := p.backlog - p.lens s } f c) ∧
      (drop = true → MTU < p.backlog - p.lens s) := by
  obtain ⟨c, hc, hlow⟩ := shouldDrop_eq { p with backlog := p.backlog - p.lens s } f s now
  refine ⟨(shouldDrop { p with backlog := p.backlog - p.lens s } f s now).1, c, ?_, hlow⟩
  rw [← hc, takeHead, h]

section

variable (h : Pool q hand free fifo) (hf : f < FLOWS)

include h hf

variable {rest : List Nat} (hfifo : fifo f = s :: rest)

include hfifo

/-- The head of a flow is in hand. -/
theorem Pool.flowPop_cons : ∃ p, q.flowPop f = (some s, p) ∧
      Pool { p with backlog := p.backlog - p.lens s } (s :: hand) free (update fifo f rest) ∧
      Same q p ∧ p.dropsAqm = q.dropsAqm := by
  obtain ⟨hs, hpool⟩ := h.flowPop hf hfifo
  have hsame := Same.flowPop q f
  rw [← hsame.lens] at hpool
  refine ⟨_, ext hs rfl, hpool, hsame, ?_⟩
  rw [FqCodel.flowPop]
  split <;> rfl

theorem takeHead_cons (now : Nat) : ∃ drop p, q.takeHead f now = (some (s, drop), p) ∧
      Pool p (s :: hand) free (update fifo f rest) ∧ Same q p ∧ p.dropsAqm = q.dropsAqm ∧
      (drop = true → MTU < p.backlog) := by
  obtain ⟨p, hpair, hpool, hsame, haqm⟩ := h.flowPop_cons hf hfifo
  obtain ⟨drop, c, htake, hlow⟩ := takeHead_of_flowPop hpair now
  have hsame' : Same q { p with backlog := p.backlog - p.lens s } := { hsame with }
  exact ⟨drop, _, htake, hpool.setCodel c, hsame'.trans (Same.setCodel _ f c), haqm, hlow⟩

end

/-- What CoDel does to a flow that held `slots` (the one in hand first): it drops a prefix. It does
not drop the last packet of all. -/
structure Taken (q : FqCodel) (fifo : Nat → List Nat) (f : Nat) (slots : List Nat)
    (r : Option Nat × FqCodel) : Prop where
  same : Same q r.2
  split : ∃ dropped rest free, slots = dropped ++ r.1.toList ++ rest ∧
    (r.1 = none → rest = [] ∧ (dropped = [] ∧ r.2.backlog = q.backlog ∨ 0 < r.2.backlog)) ∧
    Pool r.2 r.1.toList free (update fifo f rest) ∧
    r.2.dropsAqm = (q.dropsAqm + dropped.length) % 2 ^ 64

namespace Taken

theorem nil (h : Pool q [] free fifo) (hf : f < FLOWS) (hfifo : fifo f = [])
    (haqm : q.dropsAqm < 2 ^ 64) (now : Nat) :
    ∃ p, q.takeHead f now = (none, p) ∧ Taken q fifo f [] (none, p) := by
  rw [takeHead, h.flowPop_nil hf hfifo]
  refine ⟨_, rfl, Same.setCodel q f _, [], [], free, rfl, fun _ => ⟨rfl, .inl ⟨rfl, rfl⟩⟩, ?_, ?_⟩
  · have hupd : update fifo f [] = fifo := by
      rw [← hfifo]
      exact update_eq_self f fifo
    rw [hupd]
    exact h.setCodel _
  · rw [length_nil, Nat.add_zero, Nat.mod_eq_of_lt haqm]
    rfl

/-- The slot in hand is delivered. -/
theorem kept (haqm : q.dropsAqm < 2 ^ 64) {p : FqCodel}
    (hp : Pool p [s] free fifo) (hsame : Same q p) (hdrops : p.dropsAqm = q.dropsAqm) :
    Taken q fifo f (s :: fifo f) (some s, p) := by
  refine ⟨hsame, [], fifo f, free, rfl, fun hn => absurd hn (Option.some_ne_none s), ?_, ?_⟩
  · rw [update_eq_self]
    exact hp
  · rw [length_nil, Nat.add_zero, Nat.mod_eq_of_lt haqm]
    exact hdrops

/-- One more packet was dropped before. -/
theorem cons {q' : FqCodel} {fifo' : Nat → List Nat} {slots : List Nat} {r : Option Nat × FqCodel}
    (h : Taken q' fifo' f slots r) (hsame : Same q q')
    (hdrops : q'.dropsAqm = (q.dropsAqm + 1) % 2 ^ 64) (hleft : slots = [] → 0 < q'.backlog)
    (hfifo : ∀ rest, update fifo' f rest = update fifo f rest) :
    Taken q fifo f (s :: slots) r := by
  obtain ⟨hsame', dropped, rest, free, hsplit, hnone, hpool, haqm⟩ := h
  refine ⟨hsame.trans hsame', s :: dropped, rest, free, ?_, fun hn => ⟨(hnone hn).1, ?_⟩,
    hfifo rest ▸ hpool, ?_⟩
  · rw [hsplit]
    rfl
  · rcases (hnone hn).2 with ⟨hd, hb⟩ | hb
    · refine .inr (hb ▸ hleft ?_)
      rw [hsplit, hd, hn, (hnone hn).1]
      rfl
    · exact .inr hb
  · rw [haqm, hdrops, Nat.mod_add_mod, length_cons, Nat.add_assoc, Nat.add_comm 1]

end Taken

/-- Dropping the slot in hand. -/
theorem Pool.dropAqm (h : Pool q [s] free fifo) : Pool (q.dropAqm s) [] (s :: free) fifo :=
  { h.freeSlot with }

theorem Same.dropAqm (q : FqCodel) (s : Nat) : Same q (q.dropAqm s) :=
  ⟨rfl, rfl, rfl, rfl, fun _ => rfl, fun _ => rfl, rfl, rfl⟩

theorem dropsAqm_dropAqm_lt (q : FqCodel) (s : Nat) : (q.dropAqm s).dropsAqm < 2 ^ 64 :=
  Nat.mod_lt _ (by decide)

/-- The head of an empty flow, after the slot in hand was dropped. -/
theorem Taken.lastDropped (h : Pool q [s] free fifo) (hf : f < FLOWS) (hfifo : fifo f = [])
    (hleft : 0 < q.backlog) (now : Nat) :
    ∃ p, (q.dropAqm s).takeHead f now = (none, p) ∧ Taken q fifo f [s] (none, p) := by
  obtain ⟨p, htake, h⟩ := Taken.nil h.dropAqm hf hfifo (dropsAqm_dropAqm_lt q s) now
  exact ⟨p, htake, h.cons (Same.dropAqm q s) rfl (fun _ => hleft) fun _ => rfl⟩

/-- **The dropping loop** ends, and what it takes is a prefix of the flow. -/
theorem codelLoop_spec (hf : f < FLOWS) (now fuel : Nat) (slot : Nat) (q : FqCodel)
    (free : List Nat) (fifo : Nat → List Nat) (h : Pool q [slot] free fifo)
    (haqm : q.dropsAqm < 2 ^ 64) (hleft : (q.flows f).codel.dropping = true → 0 < q.backlog)
    (hfuel : (fifo f).length < fuel) :
    ∃ r, codelLoop f now fuel slot q = some r ∧ Taken q fifo f (slot :: fifo f) r := by
  induction fuel generalizing slot q free fifo with
  | zero => omega
  | succ fuel ih =>
    rw [codelLoop]
    dsimp only
    split
    · -- The slot in hand is dropped.
      rename_i hdropping
      have hleft := hleft hdropping.1
      generalize hc : ({ (q.flows f).codel with
        count := ((q.flows f).codel.count + 1) % 2 ^ 32
        recInvSqrt := newtonStep (((q.flows f).codel.count + 1) % 2 ^ 32)
          (q.flows f).codel.recInvSqrt } : Codel) = c
      have hpool : Pool (q.setCodel f c) [slot] free fifo := h.setCodel c
      have hsame := Same.setCodel q f c
      cases hfifo : fifo f with
      | nil =>
        obtain ⟨p, hnone, htaken⟩ := Taken.lastDropped hpool hf hfifo hleft now
        rw [hnone]
        refine ⟨_, rfl, ⟨hsame.trans htaken.same, htaken.split⟩⟩
      | cons s rest =>
        obtain ⟨drop, p, hpair, hpool', hsame', hdrops, hlow⟩ :=
          takeHead_cons hpool.dropAqm hf hfifo now
        rw [hpair]
        dsimp only
        generalize hc' : (if ¬ drop = true then { (p.flows f).codel with dropping := false }
          else { (p.flows f).codel with
            dropNext := controlLaw (p.flows f).codel.dropNext p.interval
              (p.flows f).codel.recInvSqrt }) = c'
        have hrest : update fifo f rest f = rest := update_self _ _ _
        -- The next one is dropped only if CoDel said so.
        have hleft' : ((p.setCodel f c').flows f).codel.dropping = true → 0 < p.backlog := by
          intro hd
          have hd : c'.dropping = true := by simpa [setCodel, setFlow] using hd
          cases drop with
          | false =>
            rw [← hc'] at hd
            cases hd
          | true => exact Nat.lt_of_le_of_lt (Nat.zero_le _) (hlow rfl)
        have haqm' : (p.setCodel f c').dropsAqm = (q.dropsAqm + 1) % 2 ^ 64 := hdrops
        obtain ⟨r, hr, htaken⟩ := ih s (p.setCodel f c') (slot :: free) (update fifo f rest)
          (hpool'.setCodel c') (haqm' ▸ Nat.mod_lt _ (by decide)) hleft' (by
            rw [hrest]
            rw [hfifo, length_cons] at hfuel
            omega)
        refine ⟨r, hr, ?_⟩
        rw [hrest] at htaken
        exact htaken.cons (((hsame.trans (Same.dropAqm _ slot)).trans hsame').trans
          (Same.setCodel p f c')) haqm' (fun hnil => absurd hnil (cons_ne_nil _ _))
          fun rest' => update_idem _ _ _
    · exact ⟨_, rfl, Taken.kept haqm h (Same.refl q) rfl⟩

/-- **CoDel takes a prefix off the flow.** -/
theorem codelDequeue_spec (h : Pool q [] free fifo) (hf : f < FLOWS) (haqm : q.dropsAqm < 2 ^ 64)
    (now : Nat) : ∃ r, q.codelDequeue f now = some r ∧ Taken q fifo f (fifo f) r := by
  cases hfifo : fifo f with
  | nil =>
    obtain ⟨p, hnone, htaken⟩ := Taken.nil h hf hfifo haqm now
    rw [codelDequeue, hnone]
    exact ⟨_, rfl, htaken⟩
  | cons s rest =>
    obtain ⟨drop, p, hpair, hpool, hsame, hdrops, hlow⟩ := takeHead_cons h hf hfifo now
    rw [codelDequeue, hpair]
    dsimp only
    have hrest : update fifo f rest f = rest := update_self _ _ _
    have hidem : ∀ l, update (update fifo f rest) f l = update fifo f l :=
      fun l => update_idem _ _ _
    have haqm' : p.dropsAqm < 2 ^ 64 := hdrops ▸ haqm
    -- What holds of the flow without its head holds of the whole flow.
    have hlift : ∀ r, Taken p (update fifo f rest) f (s :: rest) r →
        Taken q fifo f (s :: rest) r := by
      rintro r ⟨hsame', dropped, rest', free', hsplit, hnone, hp, ha⟩
      refine ⟨hsame.trans hsame', dropped, rest', free', hsplit, fun hn => ⟨(hnone hn).1, ?_⟩,
        hidem rest' ▸ hp, hdrops ▸ ha⟩
      rcases (hnone hn).2 with ⟨hd, -⟩ | hb
      · rw [hd, hn, (hnone hn).1] at hsplit
        cases hsplit
      · exact .inr hb
    -- The head is delivered, whatever CoDel notes about it.
    have hkept : ∀ p', Pool p' [s] free (update fifo f rest) → Same p p' →
        p'.dropsAqm = p.dropsAqm → Taken q fifo f (s :: rest) (some s, p') := by
      intro p' hp' hs' hd'
      have htaken := Taken.kept (f := f) haqm' hp' hs' hd'
      rw [hrest] at htaken
      exact hlift _ htaken
    split
    · split
      · exact ⟨_, rfl, hkept _ (hpool.setCodel _) (Same.setCodel p f _) rfl⟩
      rename_i hdrop
      have hlow := hlow (not_not.mp hdrop)
      obtain ⟨r, hr, htaken⟩ := codelLoop_spec hf now (CAP + 1) s p free _ hpool haqm'
        (fun _ => by omega) (by
        rw [hrest]
        have := h.length_le hf
        rw [hfifo, length_cons] at this
        omega)
      rw [hrest] at htaken
      exact ⟨r, hr, hlift r htaken⟩
    · split
      · -- The first drop: the one after it goes out, if there is one.
        rename_i hdrop
        have hlow := hlow hdrop
        cases hrest' : rest with
        | nil =>
          subst hrest'
          obtain ⟨p', hnone, htaken⟩ := Taken.lastDropped hpool hf hrest (by omega) now
          rw [hnone]
          exact ⟨_, rfl, hlift _ htaken⟩
        | cons s' rest' =>
          subst hrest'
          obtain ⟨drop', p', hpair', hpool', hsame', hdrops', -⟩ :=
            takeHead_cons hpool.dropAqm hf hrest now
          rw [hpair']
          refine ⟨_, rfl, hlift _ ?_⟩
          have htaken := Taken.kept (f := f) (dropsAqm_dropAqm_lt p s)
            (hpool'.setCodel (startDropping (p'.flows f).codel p'.interval now))
            (hsame'.trans (Same.setCodel p' f _)) hdrops'
          rw [update_self] at htaken
          exact htaken.cons (Same.dropAqm p s) rfl (nofun)
            fun l => update_idem _ _ _
      · exact ⟨_, rfl, hkept p hpool (Same.refl p) rfl⟩

/-! ## The fattest flow -/

/-- The walk along a flow's links adds up its bytes. -/
theorem chainBytes_eq (lens : Nat → Nat) {link : Nat → Nat} (fuel h : Nat) (xs : List Nat) (bytes : Nat)
    (hc : Chained link EMPTY h xs) (hfuel : xs.length < fuel) :
    chainBytes lens link fuel h bytes = some (bytes + (xs.map lens).sum) := by
  induction fuel generalizing h xs bytes with
  | zero => omega
  | succ fuel ih =>
    rw [chainBytes]
    cases xs with
    | nil =>
      have hend : h = EMPTY := hc
      rw [if_pos hend]
      rfl
    | cons x xs =>
      obtain ⟨rfl, hx, hrest⟩ := hc
      rw [if_neg hx, ih (link h) xs (bytes + lens h) hrest (by simpa using hfuel)]
      rw [map_cons, sum_cons, Nat.add_assoc]

/-- The search finds a flow with bytes, if there is one among `fs` or already. -/
theorem fattest_spec (h : Pool q hand free fifo) (fs : List Nat) (hfs : ∀ f ∈ fs, f < FLOWS)
    (best : Option Nat × Nat) (hbest : ∀ f ∈ best.1, f < FLOWS ∧ fifo f ≠ [])
    (hzero : best.1 = none → best.2 = 0) :
    ∃ r, q.fattest fs best = some r ∧ (∀ f ∈ r.1, f < FLOWS ∧ fifo f ≠ []) ∧
      (r.1 = none → best.1 = none ∧ ∀ f ∈ fs, fifo f = []) := by
  induction fs generalizing best with
  | nil => exact ⟨best, rfl, hbest, fun hn => ⟨hn, nofun⟩⟩
  | cons f fs ih =>
    have hf := hfs f mem_cons_self
    have hbytes := chainBytes_eq q.lens (CAP + 1) _ (fifo f) 0 (h.flowChain f hf)
      (Nat.lt_succ_of_le (h.length_le hf))
    have hfs' : ∀ g ∈ fs, g < FLOWS := fun g hg => hfs g (mem_cons_of_mem f hg)
    rw [fattest, hbytes]
    dsimp only [Option.bind_some, Nat.zero_add, bind]
    by_cases hlt : best.2 < 0 + ((fifo f).map q.lens).sum
    · rw [if_pos hlt]
      have hne : fifo f ≠ [] := by
        intro he
        rw [he] at hlt
        simp at hlt
      obtain ⟨r, hr, hsome, hnone⟩ := ih hfs' (some f, 0 + ((fifo f).map q.lens).sum)
        (fun g hg => by
          obtain rfl : f = g := Option.some.inj hg
          exact ⟨hf, hne⟩)
        (fun hn => absurd hn (Option.some_ne_none f))
      exact ⟨r, hr, hsome, fun hn => absurd (hnone hn).1 (Option.some_ne_none f)⟩
    · rw [if_neg hlt]
      obtain ⟨r, hr, hsome, hnone⟩ := ih hfs' best hbest hzero
      refine ⟨r, hr, hsome, fun hn => ⟨(hnone hn).1, fun g hg => ?_⟩⟩
      rcases mem_cons.mp hg with rfl | hg
      · -- A flow with packets has bytes.
        by_contra hne
        obtain ⟨x, xs, hxs⟩ := exists_cons_of_ne_nil hne
        have hpos := (h.sized g hf x (hxs ▸ mem_cons_self)).1
        rw [hzero (hnone hn).1, hxs, map_cons, sum_cons] at hlt
        omega
      · exact (hnone hn).2 g hg

/-- A packet goes to make room: as long as a flow has one. -/
theorem dropFattest_spec (h : Pool q hand free fifo) (hne : ∃ f < FLOWS, fifo f ≠ []) :
    ∃ f s rest p, f < FLOWS ∧ fifo f = s :: rest ∧
      q.dropFattest = some (true, { p with dropsFull := (p.dropsFull + 1) % 2 ^ 64 }) ∧
      Pool p hand (s :: free) (update fifo f rest) ∧ Same q p ∧ p.dropsAqm = q.dropsAqm := by
  obtain ⟨r, hr, hsome, hnone⟩ := fattest_spec h (List.range FLOWS)
    (fun f hf => mem_range.mp hf) (none, 0) (nofun) (fun _ => rfl)
  obtain ⟨best, bytes⟩ := r
  cases best with
  | none =>
    obtain ⟨f, hf, hfifo⟩ := hne
    exact absurd ((hnone rfl).2 f (mem_range.mpr hf)) hfifo
  | some f =>
    obtain ⟨hf, hfifo⟩ := hsome f rfl
    obtain ⟨s, rest, hcons⟩ := exists_cons_of_ne_nil hfifo
    obtain ⟨p, hpair, hpool, hsame, haqm⟩ := h.flowPop_cons hf hcons
    rw [dropFattest, hr]
    dsimp only [Option.bind_some, bind]
    rw [hpair]
    exact ⟨f, s, rest, freeSlot { p with backlog := p.backlog - p.lens s } s, hf, hcons, rfl,
      hpool.freeSlot, { hsame with }, haqm⟩

/-- **A slot for a frame**: a free one, or that of a packet of the fattest flow. -/
inductive Slotted (q : FqCodel) (fifo : Nat → List Nat) : Option Nat × FqCodel → Prop where
  | free {s : Nat} {p : FqCodel} {free : List Nat} (pool : Pool p [s] free fifo) (same : Same q p)
      (aqm : p.dropsAqm = q.dropsAqm) : Slotted q fifo (some s, p)
  | full {f s : Nat} {rest free : List Nat} {p : FqCodel} (hf : f < FLOWS)
      (head : fifo f = s :: rest) (pool : Pool p [s] free (update fifo f rest))
      (same : Same q { p with dropsFull := q.dropsFull }) (aqm : p.dropsAqm = q.dropsAqm)
      (counted : p.dropsFull = (q.dropsFull + 1) % 2 ^ 64) : Slotted q fifo (some s, p)

theorem Pool.allocSlot_cons (h : Pool q hand (s :: free) fifo) :
    ∃ p, q.allocSlot = (some s, p) ∧ Pool p (s :: hand) free fifo ∧ Same q p ∧
      p.dropsAqm = q.dropsAqm := by
  obtain ⟨p, hp, hpool⟩ := h.allocSlot
  have hframe : Same q q.allocSlot.2 ∧ q.allocSlot.2.dropsAqm = q.dropsAqm := by
    rw [FqCodel.allocSlot]
    split
    · exact ⟨Same.refl q, rfl⟩
    · exact ⟨⟨rfl, rfl, rfl, rfl, fun _ => rfl, fun _ => rfl, rfl, rfl⟩, rfl⟩
  rw [hp] at hframe
  exact ⟨p, hp, hpool, hframe⟩

theorem slotFor_spec (h : Pool q [] free fifo) : ∃ r, q.slotFor = some r ∧ Slotted q fifo r := by
  cases free with
  | cons s free =>
    obtain ⟨p, hpair, hpool, hsame, haqm⟩ := h.allocSlot_cons
    rw [slotFor, hpair]
    exact ⟨_, rfl, .free hpool hsame haqm⟩
  | nil =>
    -- All 256 slots are queued, so some flow has one.
    have hne : ∃ f < FLOWS, fifo f ≠ [] := by
      by_contra hall
      have hall : ∀ f ∈ Finset.range FLOWS, (fifo f).count 0 = 0 := by
        intro f hf
        by_contra hc
        refine hall ⟨f, Finset.mem_range.mp hf, ?_⟩
        intro he
        rw [he] at hc
        exact hc rfl
      have honce := h.once 0
      rw [Finset.sum_eq_zero hall, if_pos (by decide)] at honce
      simp at honce
    obtain ⟨f, s, rest, p, hf, hcons, hdrop, hpool, hsame, haqm⟩ := dropFattest_spec h hne
    rw [slotFor, h.allocSlot_nil]
    dsimp only
    rw [hdrop]
    dsimp only [Option.bind_some, bind]
    have hpool₁ : Pool { p with dropsFull := (p.dropsFull + 1) % 2 ^ 64 } [] [s]
        (update fifo f rest) := { hpool with }
    obtain ⟨p₂, hpair, hpool₂, hsame₂, haqm₂⟩ := hpool₁.allocSlot_cons
    rw [if_neg (by decide), hpair]
    have hcounted : Same p { p₂ with dropsFull := p.dropsFull } := { hsame₂ with full := rfl }
    refine ⟨_, rfl, .full hf hcons hpool₂ { hsame.trans hcounted with full := rfl }
      (haqm₂.trans haqm) ?_⟩
    rw [hsame₂.full, ← hsame.full]

end FqCodel

end NopeekOS.Net.Fq
