import NopeekOS.Microvm.GuestMem

/-!
# No access loses its frame

`MemInv` is what every state keeps: the tables give every frame one use, what the software
TLB has is in the tables, and a frame that an access holds is in the tables or waits in
the list of a reclaim that has not seen the access leave (`Keeps`).

The grace period needs two things (`Orderly`). An access must count itself while the epoch
still has the parity it read: `enter` reads and counts in two operations
(guest_mem.rs:233), and one overtaken between them counts in the counter no later reclaim
waits for. And a reclaim's first page must not wrap: `next_multiple_of` past the last
page of the address space is page 0 (ept.rs:302), the whole of RAM is then taken, boot
window included, and no slot of the software TLB is cleared.

**`frames_in_use_kept`** is the result, for runs whose steps are all orderly;
`overtaken_access_loses_frame` is a run with one access overtaken.
-/

namespace NopeekOS.Microvm

open NopeekOS.Lib Function

/-! ## Arithmetic of the layout and of the software TLB -/

theorem tlbHit_tlbEntry {page host p h : Nat} (hpage : page < 2 ^ 32) (hhost : host < 2 ^ 32)
    (hhit : tlbHit (tlbEntry page host) p = some h) : p = page ∧ h = host := by
  have hentry : tlbEntry page host = page * 2 ^ 32 + host := by
    rw [tlbEntry, ← Nat.shiftLeft_add_eq_or_of_lt hhost, Nat.shiftLeft_eq]
    exact Nat.mod_eq_of_lt (by omega)
  unfold tlbHit at hhit
  split at hhit
  · next hslot =>
    rw [hentry, Nat.shiftRight_eq_div_pow] at hslot
    rw [hentry, show 0xFFFFFFFF = 2 ^ 32 - 1 from rfl, Nat.and_two_pow_sub_one_eq_mod] at hhit
    have := Option.some.inj hhit
    omega
  · exact nomatch hhit

theorem tlbHit_tag {slot p h : Nat} (hhit : tlbHit slot p = some h) : slot >>> 32 = p := by
  unfold tlbHit at hhit
  split at hhit
  · next hslot => exact hslot.2
  · exact nomatch hhit

namespace GuestRam

variable (g : GuestRam)

/-- The boot window is whole blocks. -/
theorem bootPages_aligned : g.bootPages % 512 = 0 := by
  have := g.len_aligned
  unfold bootPages bootBytes twoMb pageSize at *
  omega

/-- Pages are numbered below 2^32, so a slot can name them. -/
theorem page_lt {page : Nat} (h : g.hasPage page = true) : page < 2 ^ 32 := by
  have hfits := g.fits
  unfold hasPage layout RamLayout.contains at h
  rw [Bool.or_eq_true, Bool.and_eq_true, decide_eq_true_eq, decide_eq_true_eq,
    decide_eq_true_eq] at h
  have htop : page * pageSize < (RamLayout.new g.len).top := by
    unfold RamLayout.top RamLayout.high
    split
    · rcases h with h | h <;> omega
    · have : (RamLayout.new g.len).low ≤ highRamBase :=
        (Nat.min_le_right _ _).trans (by decide)
      omega
  unfold pageSize oneGb at *
  omega

variable {g} {gpa len : Nat}

/-- A range that does not start in the last page starts in the demand region, at its own first
page or later. -/
theorem le_firstPage (h : gpa ≤ 2 ^ 64 - pageSize) :
    g.bootPages ≤ g.firstPage gpa ∧ gpa / pageSize ≤ g.firstPage gpa := by
  have hboot : g.bootBytes ≤ 256 * 2 ^ 20 := Nat.min_le_right _ _
  have hnext : max gpa g.bootBytes ≤ nextPage (max gpa g.bootBytes) := by
    unfold nextPage pageSize at *
    split <;> omega
  exact ⟨Nat.div_le_div_right (by omega), Nat.div_le_div_right (by omega)⟩

theorem endPage_le : g.endPage gpa len ≤ saturatingAdd gpa len / pageSize :=
  Nat.div_le_div_right (Nat.min_le_left _ _)

/-- The blocks of such a range are blocks of the demand region. -/
theorem bootPages_le_block {b : Nat} (h : gpa ≤ 2 ^ 64 - pageSize)
    (hb : b ∈ g.reclaimBlocks gpa len) : g.bootPages ≤ b * 512 := by
  have hmem := (List.mem_filter.mp hb).1
  rw [Demand.blocksOf, List.mem_range'_1] at hmem
  have hfirst := (le_firstPage (g := g) h).1
  have haligned := g.bootPages_aligned
  omega

-- past the last page the range wraps to the start of RAM
example (g : GuestRam) : g.firstPage (2 ^ 64 - 1) = 0 := by
  have hboot : g.bootBytes ≤ 256 * 2 ^ 20 := Nat.min_le_right _ _
  rw [firstPage, Nat.max_eq_left (by omega)]
  decide

end GuestRam

/-! ## The invariant -/

/-- A frame out of the tables that an access counted in `i` may still hold: the reclaim that
took it has not found that counter zero. -/
def Holder.Keeps : Holder → Bool → Nat → Prop
  | .flipping freed, _, host => host ∈ freed
  | .waiting old freed, i, host => host ∈ freed ∧ i = old
  | _, _, _ => False

theorem Holder.Keeps.mem_limbo {h : Holder} {i : Bool} {host : Nat} (hk : h.Keeps i host) :
    host ∈ h.limbo := by
  cases h with
  | flipping => exact hk
  | waiting => exact hk.1
  | _ => exact hk.elim

/-- What an access holds was not given back: it is the page's frame, or waits for the access to
leave. -/
def Access.HoldsLive (D : Demand) (o : Holder) (a : Access) : Prop :=
  ∀ gpa total done i host lost, a = .held gpa total done i host lost →
    lost = false ∧ (D.entry (.page (pageAt gpa done)) = some host ∨ o.Keeps i host)

namespace World

variable {T : Type*}

def index (w : World T) (t : T) : Option Bool := (w.access t).index


structure MemInv (w : World T) : Prop where
  maps : w.demand.Ok w.ram.bootPages w.holder.limbo
  boot : ∀ page < w.ram.bootPages, w.demand.entry (.page page) = some (w.ram.bootBase + page)
  small : ∀ f, w.demand.owner f ≠ .kernel → f < maxFrames
  tlb : ∀ slot page host, tlbHit (w.tlb slot) page = some host → w.demand.entry (.page page) = some host
  counts : Counts w.accessing w.index
  settled : Settled w.parity w.holder.old w.index
  ahead : ∀ old, w.holder.old = some old → old ≠ w.parity
  held : ∀ t, (w.access t).HoldsLive w.demand w.holder
  pins : ∀ f, w.pinned f → ∃ page, w.demand.entry (.page page) = some f
  found : ∀ page host, w.holder = .pinFound page host → w.demand.entry (.page page) = some host
  range : ∀ gpa len, w.holder = .reclaiming gpa len → gpa ≤ 2 ^ 64 - pageSize

variable {w : World T}

theorem index_setAccess [DecidableEq T] (t : T) (a : Access) :
    (w.setAccess t a).index = update w.index t a.index := by
  funext t'
  by_cases h : t' = t
  · subst h
    simp [index, setAccess]
  · simp [index, setAccess, h]

variable {t : T}

theorem MemInv.held_update [DecidableEq T] (h : w.MemInv) {a : Access}
    (ha : a.HoldsLive w.demand w.holder) :
    ∀ t', (update w.access t a t').HoldsLive w.demand w.holder :=
  (forall_update_iff w.access fun _ a => a.HoldsLive w.demand w.holder).mpr
    ⟨ha, fun t' _ => h.held t'⟩

/-- An access moves on without changing counters. -/
theorem MemInv.setAccess [DecidableEq T] (h : w.MemInv) {a a' : Access} (ht : w.access t = a)
    (hindex : a'.index = a.index) (ha : a'.HoldsLive w.demand w.holder) :
    (w.setAccess t a').MemInv := by
  have hsame : (w.setAccess t a').index = w.index := by
    rw [index_setAccess, hindex, ← ht]
    exact update_eq_self t w.index
  refine { h with counts := ?_, settled := ?_, held := h.held_update ha }
  · rw [hsame]
    exact h.counts
  · rw [hsame]
    exact h.settled

/-- What the lock's holder has a part in. -/
theorem MemInv.holding (h : w.MemInv) {o : Holder} (ho : w.holder = o) :
    w.demand.Ok w.ram.bootPages o.limbo ∧ Settled w.parity o.old w.index
      ∧ ∀ t, (w.access t).HoldsLive w.demand o :=
  ho ▸ ⟨h.maps, h.settled, h.held⟩

/-- The lock's holder moves on with nothing taken out. -/
theorem MemInv.setHolder (h : w.MemInv) {o o' : Holder} (ho : w.holder = o) (hlimbo : o.limbo = [])
    (hlimbo' : o'.limbo = []) (hold : o.old = none) (hold' : o'.old = none)
    (hfound : ∀ page host, o' = .pinFound page host → w.demand.entry (.page page) = some host)
    (hrange : ∀ gpa len, o' = .reclaiming gpa len → gpa ≤ 2 ^ 64 - pageSize) :
    (w.setHolder o').MemInv := by
  obtain ⟨hmaps, hsettled, hheld⟩ := h.holding ho
  refine { h with
    maps := ?_, settled := ?_, ahead := fun old ho => ?_, held := fun t => ?_, found := hfound,
    range := hrange }
  · rwa [World.setHolder, hlimbo', ← hlimbo]
  · rwa [World.setHolder, hold', ← hold]
  · rw [World.setHolder, hold'] at ho
    exact nomatch ho
  · intro gpa total done i host lost ha
    obtain ⟨hlost, hlive⟩ := hheld t gpa total done i host lost ha
    refine ⟨hlost, hlive.imp_right fun hk => ?_⟩
    have hmem := hk.mem_limbo
    rw [hlimbo] at hmem
    exact absurd hmem List.not_mem_nil

/-! ## One step -/

variable {page : Nat}

/-- What is found without the lock is the page's frame. -/
theorem MemInv.lookup (h : w.MemInv) {host : Nat} (hfound : w.lookup page = .found host) :
    w.demand.entry (.page page) = some host := by
  unfold World.lookup at hfound
  split at hfound
  · exact nomatch hfound
  split at hfound
  · next hboot =>
    obtain rfl := Lookup.found.inj hfound
    exact h.boot page hboot
  · cases hhit : tlbHit (w.tlb (page % tlbSize)) page with
    | none =>
      rw [hhit] at hfound
      exact nomatch hfound
    | some f =>
      rw [hhit] at hfound
      obtain rfl := Lookup.found.inj hfound
      exact h.tlb _ _ _ hhit

variable {D : Demand}

/-- A frame of the tables has a number below 2^32. -/
theorem MemInv.frame_lt (h : w.MemInv) {boot : Nat} {limbo : List Nat} (hD : D.Ok boot limbo)
    (hgrew : Demand.Grew w.demand D) {host : Nat} (hpage : D.entry (.page page) = some host) :
    host < 2 ^ 32 := by
  have hkernel : w.demand.owner host ≠ .kernel := by
    intro hk
    refine hD.not_kernel hpage ?_
    rw [hgrew.owner host (by rw [hk]; exact nofun), hk]
  exact (h.small host hkernel).trans (by decide)

/-- A fault-in adds to the tables, and its result is the page's frame. -/
theorem MemInv.faultsIn (h : w.MemInv) {r : Option Nat} (hf : w.FaultsIn page D r) :
    (w.faulted D page r).MemInv ∧ ∀ host, r = some host → D.entry (.page page) = some host := by
  unfold FaultsIn at hf
  split at hf
  · obtain ⟨rfl, rfl⟩ := hf
    exact ⟨h, nofun⟩
  next hin =>
  rw [not_or, Nat.not_lt, Bool.not_eq_false] at hin
  have hblock : w.ram.bootPages ≤ Demand.blockOf page * 512 := by
    have := w.ram.bootPages_aligned
    unfold Demand.blockOf
    omega
  obtain ⟨hok, hgrew, hr⟩ := h.maps.faultIn hblock hf
  have hbase : ({ w with demand := D } : World T).MemInv := {
    h with
    maps := hok
    boot := fun p hp => hgrew.entry _ _ (h.boot p hp)
    small := fun f hne => h.small f fun hk => hne (by
      rw [hgrew.owner f (by rw [hk]; exact nofun), hk])
    tlb := fun s p f hhit => hgrew.entry _ f (h.tlb s p f hhit)
    held := fun t gpa total done i host lost ha =>
      (h.held t gpa total done i host lost ha).imp_right (Or.imp_left (hgrew.entry _ _))
    pins := fun f hp => (h.pins f hp).imp fun p hpage => hgrew.entry _ f hpage
    found := fun p f hp => hgrew.entry _ f (h.found p f hp) }
  refine ⟨?_, hr⟩
  cases r with
  | none => exact hbase
  | some host =>
    refine { hbase with tlb := fun s p f hhit => ?_ }
    change tlbHit (update w.tlb (page % tlbSize) (tlbEntry page host) s) p = some f
      at hhit
    by_cases hs : s = page % tlbSize
    · rw [hs, update_self] at hhit
      obtain ⟨rfl, rfl⟩ := tlbHit_tlbEntry (w.ram.page_lt hin.2)
        (h.frame_lt hok hgrew (hr host rfl)) hhit
      exact hr f rfl
    · rw [update_of_ne hs] at hhit
      exact hbase.tlb s p f hhit

variable {freed : List Nat}

/-- **Reclaim takes out pages nobody pinned**; an access that holds one of their frames is
counted in the epoch about to be waited for. -/
theorem MemInv.taken (h : w.MemInv) {gpa len count : Nat} (hholder : w.holder = .reclaiming gpa len)
    (hr : Demand.Reclaim (w.ram.firstPage gpa) (w.ram.endPage gpa len) w.pinned
      (w.ram.reclaimBlocks gpa len) w.demand D freed count) :
    (w.taken gpa len D freed count).MemInv := by
  have hgpa := h.range gpa len hholder
  obtain ⟨hmaps, hsettled, hheld⟩ := h.holding hholder
  obtain ⟨hok, hrec⟩ := hmaps.reclaim (fun b hb => GuestRam.bootPages_le_block hgpa hb) hr
  suffices hflip : ((w.taken gpa len D freed count).setHolder (.flipping freed)).MemInv by
    by_cases hnil : freed = []
    · subst hnil
      exact hflip.setHolder rfl rfl rfl rfl rfl nofun nofun
    · rw [World.taken, if_neg hnil]
      exact hflip
  refine { h with
    maps := hok, boot := fun p hp => ?_, tlb := fun s p f hhit => ?_, settled := hsettled
    small := fun f hne => h.small f fun hk => hne (by
      rw [World.setHolder, World.taken, hrec.owner f (by rw [hk]; exact nofun), hk])
    ahead := nofun, found := nofun, range := nofun
    held := fun t gpa' total done i host lost ha => ?_, pins := fun f hp => ?_ }
  · refine (hrec.gone p _ (h.boot p hp)).resolve_right fun hgone => ?_
    exact absurd (hp.trans_le (GuestRam.le_firstPage hgpa).1) (Nat.not_lt.mpr hgone.1.1)
  · change tlbHit ((if count ≠ 0 then w.tlbCleared (gpa / pageSize)
      (GuestRam.saturatingAdd gpa len / pageSize) else w.tlb) s) p = some f at hhit
    split at hhit
    · unfold tlbCleared at hhit
      split at hhit
      · exact nomatch hhit
      -- the slot's page is outside the range, so it was not taken
      next hout =>
      rw [tlbHit_tag hhit] at hout
      refine (hrec.gone p f (h.tlb s p f hhit)).resolve_right fun hgone => hout ⟨?_, ?_⟩
      · exact (GuestRam.le_firstPage hgpa).2.trans hgone.1.1
      · exact hgone.1.2.trans_le GuestRam.endPage_le
    · next hcount =>
      exact (hrec.gone p f (h.tlb s p f hhit)).resolve_right fun hgone =>
        hcount (Nat.pos_iff_ne_zero.mp hgone.2.2.2)
  · obtain ⟨hlost, hlive⟩ := hheld t gpa' total done i host lost ha
    refine ⟨hlost, (hrec.gone _ host (hlive.resolve_right id)).imp_right fun hgone => ?_⟩
    exact hgone.2.2.1
  · obtain ⟨p, hp'⟩ := h.pins f hp
    exact ⟨p, (hrec.gone p f hp').resolve_right fun hgone => hgone.2.1 hp⟩

variable [DecidableEq T]

/-- An access counts itself in the current counter. -/
theorem MemInv.countIn (h : w.MemInv) {gpa total : Nat} {i : Bool}
    (ht : w.access t = .loaded gpa total i) (hi : i = w.parity)
    (hroom : w.accessing i ≠ BitVec.allOnes 32) : (w.countIn t gpa total i).MemInv := by
  have hindex : (w.countIn t gpa total i).index = update w.index t (some i) :=
    index_setAccess t (.counted gpa total 0 i)
  have hnone : w.index t = none := by rw [index, ht]; rfl
  refine { h with counts := ?_, settled := ?_, held := h.held_update nofun }
  · rw [hindex]
    exact h.counts.enter hnone hroom
  · rw [hindex, hi]
    exact h.settled.moved t fun _ ho => (Option.some.inj ho).symm

/-- An access leaves by the counter it is in. -/
theorem MemInv.countOut (h : w.MemInv) {i : Bool} (ht : w.index t = some i) :
    (w.countOut t i).MemInv := by
  have hindex : (w.countOut t i).index = update w.index t none :=
    index_setAccess t .idle
  refine { h with counts := ?_, settled := ?_, held := h.held_update nofun }
  · rw [hindex]
    exact h.counts.leave ht
  · rw [hindex]
    exact h.settled.moved t nofun

omit [DecidableEq T] in
theorem parity_succ (w : World T) (o : Holder) :
    parity { w with epoch := w.epoch + 1, holder := o } = !w.parity := by
  simp only [parity, BitVec.getLsbD, BitVec.toNat_add, Nat.testBit_zero, ← decide_not]
  refine decide_eq_decide.mpr ?_
  change (w.epoch.toNat + 1) % 2 ^ 64 % 2 = 1 ↔ ¬ w.epoch.toNat % 2 = 1
  omega

section

variable (h : w.MemInv)

include h

omit [DecidableEq T] in
/-- Everybody counted is now of the old epoch. -/
theorem MemInv.flip (hholder : w.holder = .flipping freed) :
    ({ w with epoch := w.epoch + 1, holder := .waiting w.parity freed } : World T).MemInv := by
  obtain ⟨hmaps, hsettled, hheld⟩ := h.holding hholder
  refine { h with
    maps := hmaps, settled := ?_, ahead := fun old ho => ?_, found := nofun, range := nofun
    held := fun t gpa total done i host lost ha => ?_ }
  · rw [parity_succ]
    exact hsettled.flipped
  · rw [parity_succ, ← Option.some.inj ho]
    exact (Bool.not_ne_self _).symm
  · refine (hheld t gpa total done i host lost ha).imp_right (Or.imp_right fun hk => ⟨hk, ?_⟩)
    exact (hsettled t i (by rw [index, ha]; rfl)).resolve_right nofun

omit [DecidableEq T] in
/-- **With the counter at zero nobody holds a frame of the list.** -/
theorem MemInv.pass {old : Bool} (hholder : w.holder = .waiting old freed)
    (hzero : w.accessing old = 0) : (w.setHolder (.freeing freed)).MemInv := by
  obtain ⟨hmaps, hsettled, hheld⟩ := h.holding hholder
  refine { h with
    maps := hmaps, settled := hsettled.passed h.counts hzero, ahead := nofun, found := nofun
    range := nofun, held := fun t gpa total done i host lost ha => ?_ }
  refine (hheld t gpa total done i host lost ha).imp_right (Or.imp_right fun hk => ?_)
  have hindex : w.index t = some i := congrArg Access.index ha
  exact absurd (hk.2 ▸ hindex) (h.counts.none_of_zero hzero t)

omit [DecidableEq T] in
/-- A frame given back was nobody's. -/
theorem MemInv.free {f : Nat} (hholder : w.holder = .freeing (f :: freed)) :
    ((w.deallocate f).setHolder (.freeing freed)).MemInv := by
  obtain ⟨hmaps, hsettled, hheld⟩ := h.holding hholder
  have hindex : ((w.deallocate f).setHolder (.freeing freed)).index = w.index := by
    funext t
    change ((w.access t).lose f).index = (w.access t).index
    cases w.access t <;> rfl
  refine { h with
    maps := ⟨hmaps.toFrames.deallocate, hmaps.tables⟩, small := fun g hg => ?_, counts := ?_, settled := ?_
    ahead := nofun, found := nofun, range := nofun
    held := fun t gpa total done i host lost ha => ?_ }
  · by_cases heq : g = f
    · exact h.small g (by rw [heq, hmaps.limboOwn f List.mem_cons_self]; exact nofun)
    · refine h.small g fun hk => hg ?_
      exact (update_of_ne heq _ _).trans hk
  · rw [hindex]
    exact h.counts
  · rw [hindex]
    exact hsettled
  · have hsame : w.access t = .held gpa total done i host (w.access t).isLost
        ∧ lost = ((w.access t).isLost || host == f) := by
      change (w.access t).lose f = _ at ha
      cases hacc : w.access t with
      | held =>
        rw [hacc] at ha
        cases ha
        exact ⟨rfl, rfl⟩
      | _ =>
        rw [hacc] at ha
        exact nomatch ha
    obtain ⟨hlost, hlive⟩ := hheld t gpa total done i host _ hsame.1
    have hp := hlive.resolve_right id
    have hne : host ≠ f := fun heq => hmaps.limboOff _ host hp (heq ▸ List.mem_cons_self)
    rw [hsame.2, hlost]
    exact ⟨by simpa using hne, .inl hp⟩

omit [DecidableEq T] in
/-- Frames of the rest of the kernel come and go. -/
theorem MemInv.setOwner {f : Nat} {o : Owner}
    (hnone : ∀ u, w.demand.entry u ≠ some f) (hlimbo : f ∉ w.holder.limbo)
    (hsmall : o ≠ .kernel → f < maxFrames) : (w.setOwner f o).MemInv := by
  refine { h with 
    maps := ⟨h.maps.toFrames.setOwner o hnone hlimbo, h.maps.tables⟩
    small := fun g hg => ?_ }
  change update w.demand.owner f o g ≠ .kernel at hg
  by_cases heq : g = f
  · subst heq
    rw [update_self] at hg
    exact hsmall hg
  · rw [update_of_ne heq] at hg
    exact h.small g hg

/-- What a step must meet: an access counts itself in the current counter, which has room, and
a reclaim does not start in the last page of the address space. -/
def Orderly (w : World T) : Op T → Prop
  | .count t => ∀ gpa total i, w.access t = .loaded gpa total i →
      i = w.parity ∧ w.accessing i ≠ BitVec.allOnes 32
  | .reclaim gpa _ => gpa ≤ 2 ^ 64 - pageSize
  | _ => True

/-- **One orderly step.** -/
theorem MemInv.step {op : Op T} {w' : World T} (hs : MemStep w op w') (ho : w.Orderly op) :
    w'.MemInv := by
  cases hs with
  | start ht | startXchg ht | missed ht | outside ht | copy ht => exact h.setAccess ht rfl nofun
  | count ht => exact h.countIn ht (ho _ _ _ ht).1 (ho _ _ _ ht).2
  | found ht _ hfound =>
    refine h.setAccess ht rfl fun gpa total done i host lost ha => ?_
    cases ha
    exact ⟨rfl, .inl (h.lookup hfound)⟩
  | walked ht hfault =>
    obtain ⟨hinv, hpage⟩ := h.faultsIn hfault
    refine hinv.setAccess ht rfl fun gpa total done i host lost ha => ?_
    cases ha
    exact ⟨rfl, .inl (hpage _ rfl)⟩
  | notWalked ht hfault => exact (h.faultsIn hfault).1.setAccess ht rfl nofun
  | leave ht | leaveFailed ht => exact h.countOut (by rw [index, ht]; rfl)
  | fault hfault => exact (h.faultsIn hfault).1
  | reclaim hnobody =>
    refine h.setHolder hnobody rfl rfl rfl rfl nofun fun g l hg => ?_
    cases hg
    exact ho
  | take hholder hr => exact h.taken hholder hr
  | flip hholder => exact h.flip hholder
  | pass hholder hzero => exact h.pass hholder hzero
  | free hholder => exact h.free hholder
  | done hholder | pin hholder | pinMissed hholder | pinOutside hholder | pinBoot hholder =>
    exact h.setHolder hholder rfl rfl rfl rfl nofun nofun
  | pinFound hholder hfound =>
    refine h.setHolder hholder rfl rfl rfl rfl ?_ nofun
    intro page host hp
    cases hp
    exact h.lookup hfound
  | pinWalked hholder hfault =>
    obtain ⟨hinv, hpage⟩ := h.faultsIn hfault
    refine hinv.setHolder hholder rfl rfl rfl rfl ?_ nofun
    intro page host hp
    cases hp
    exact hpage _ rfl
  | pinNotWalked hholder hfault =>
    exact (h.faultsIn hfault).1.setHolder hholder rfl rfl rfl rfl nofun nofun
  | @pinInsert page host hholder =>
    have hinv : (w.setHolder .nobody).MemInv :=
      h.setHolder hholder rfl rfl rfl rfl nofun nofun
    refine { hinv with pins := fun f hp => ?_ }
    by_cases heq : f = host
    · exact ⟨page, heq ▸ h.found page host hholder⟩
    · refine h.pins f fun hnone => hp ?_
      exact (update_of_ne heq _ _).trans hnone
  | @unpin g =>
    refine { h with pins := fun f hp => h.pins f fun hnone => hp ?_ }
    change update w.pins g (pinDrop (w.pins g)) f = none
    by_cases heq : f = g
    · subst heq
      rw [update_self, hnone]
      rfl
    · rwa [update_of_ne heq]
  | allocate hfree =>
    refine h.setOwner (fun u hu => h.maps.not_free hu hfree) (fun hmem => ?_) nofun
    exact absurd ((h.maps.limboOwn _ hmem).symm.trans hfree) nofun
  | release hkernel hsmall =>
    refine h.setOwner (fun u hu => h.maps.not_kernel hu hkernel) (fun hmem => ?_) fun _ => hsmall
    exact absurd ((h.maps.limboOwn _ hmem).symm.trans hkernel) nofun

end

/-! ## Whole runs -/

/-- A new guest: its boot window mapped, nothing else backed (ept.rs:98, guest_mem.rs:216). -/
structure Fresh (w : World T) : Prop where
  kind : ∀ b, w.demand.kind b ≠ .table
  bootPage : ∀ page < w.ram.bootPages,
    w.demand.entry (.page page) = some (w.ram.bootBase + page)
      ∧ w.demand.owner (w.ram.bootBase + page) = .boot
  page : ∀ page, w.ram.bootPages ≤ page → w.demand.entry (.page page) = none
  table : ∀ b, w.demand.entry (.table b) = none
  small : ∀ f, w.demand.owner f ≠ .kernel → f < maxFrames
  tlb : ∀ slot, w.tlb slot = 0
  accessing : ∀ i, w.accessing i = 0
  pins : ∀ f, w.pins f = none
  access : ∀ t, w.access t = .idle
  holder : w.holder = .nobody

omit [DecidableEq T] in
theorem Fresh.memInv {w : World T} (h : w.Fresh) : w.MemInv := by
  -- the uses of frames are the boot pages
  have hentry : ∀ u f, w.demand.entry u = some f → ∃ page < w.ram.bootPages,
      u = .page page ∧ f = w.ram.bootBase + page := by
    intro u f hf
    cases u with
    | table b => exact nomatch (h.table b).symm.trans hf
    | page page =>
      rcases Nat.lt_or_ge page w.ram.bootPages with hp | hp
      · exact ⟨page, hp, rfl, Option.some.inj (hf.symm.trans (h.bootPage page hp).1)⟩
      · exact nomatch (h.page page hp).symm.trans hf
  have hindex : ∀ t, w.index t = none := fun t => by rw [index, h.access t]; rfl
  obtain ⟨ram, D, tlb, epoch, accessing, pins, access, holder⟩ := w
  obtain rfl : holder = .nobody := h.holder
  refine {
    maps := ⟨⟨?_, ?_, nofun, List.nodup_nil, fun _ _ _ => List.not_mem_nil⟩, fun b _ => h.table b⟩
    boot := fun page hp => (h.bootPage page hp).1
    small := h.small, tlb := fun slot page host hhit => ?_, counts := fun i => ⟨∅, ?_, ?_⟩
    settled := fun t i hi => ?_, ahead := nofun, held := fun t => ?_, pins := fun f hp => ?_
    found := nofun, range := nofun }
  · intro u u' f hu hu'
    obtain ⟨page, -, rfl, hf⟩ := hentry u f hu
    obtain ⟨page', -, rfl, hf'⟩ := hentry u' f hu'
    rw [Nat.add_left_cancel (hf.symm.trans hf')]
  · intro u f hu
    obtain ⟨page, hp, rfl, rfl⟩ := hentry u f hu
    exact (h.bootPage page hp).2.trans (if_pos hp).symm
  · rw [h.tlb] at hhit
    exact nomatch hhit
  · exact fun t => by simp [hindex]
  · rw [h.accessing]
    rfl
  · rw [hindex] at hi
    exact nomatch hi
  · rw [h.access t]
    exact nofun
  · exact absurd (h.pins f) hp

/-- No access is about to use a frame that reclaim returned: its frame is the page's, or waits
to be returned. And pinned frames are in the tables. -/
def InUseKept (w : World T) : Prop :=
  (∀ t gpa total done i host lost, w.access t = .held gpa total done i host lost →
    lost = false ∧ w.demand.owner host ≠ .free
      ∧ (w.demand.entry (.page (pageAt gpa done)) = some host ∨ host ∈ w.holder.limbo))
  ∧ ∀ f, w.pinned f → w.demand.owner f ≠ .free ∧ ∃ page, w.demand.entry (.page page) = some f

omit [DecidableEq T] in
theorem MemInv.inUseKept (h : w.MemInv) : w.InUseKept := by
  constructor
  · intro t gpa total done i host lost ha
    obtain ⟨hlost, hlive⟩ := h.held t gpa total done i host lost ha
    refine ⟨hlost, ?_, hlive.imp_right Holder.Keeps.mem_limbo⟩
    rcases hlive with hp | hk
    · exact h.maps.not_free hp
    · rw [h.maps.limboOwn host hk.mem_limbo]
      exact nofun
  · intro f hp
    obtain ⟨page, hpage⟩ := h.pins f hp
    exact ⟨h.maps.not_free hpage, page, hpage⟩

/-- **Reclaim frees no frame in use**, in any order of any number of accesses, faults, reclaims
and pins whose steps are all orderly. -/
theorem frames_in_use_kept {T : Type*} [DecidableEq T] {w₀ w : World T} {ops : List (Op T)}
    (h₀ : w₀.Fresh) (hrun : Run (fun w op w' => MemStep w op w' ∧ w.Orderly op) w₀ ops w) :
    w.InUseKept := by
  refine MemInv.inUseKept ?_
  exact hrun.invariant (I := MemInv) (fun _ _ _ hinv hs => hinv.step hs.1 hs.2) h₀.memInv

/-! A guest with one block of demand memory, whose first page gets frame 70001 under the page
table in frame 70000. -/

namespace Demo

def ram : GuestRam where
  len := 258 * 2 ^ 20
  bootBase := 0
  len_pos := by decide
  len_aligned := by decide
  fits := by decide

def fresh : World Unit where
  ram := ram
  demand := {
    kind := fun b => if b < 128 then .leaf else .absent
    entry := fun
      | .page p => if p < 65536 then some (0 + p) else none
      | .table _ => none
    owner := fun f => if f < 65536 then .boot else if f < maxFrames then .free else .kernel }
  tlb := fun _ => 0
  epoch := 0
  accessing := fun _ => 0
  pins := fun _ => none
  access := fun _ => .idle
  holder := .nobody

theorem fresh_fresh : fresh.Fresh where
  kind := fun b => by
    change (if b < 128 then Kind.leaf else .absent) ≠ .table
    split <;> exact nofun
  bootPage := fun page hp => by
    refine ⟨if_pos hp, if_pos ?_⟩
    change 0 + page < 65536
    rwa [Nat.zero_add]
  page := fun page hp => if_neg (Nat.not_lt.mpr hp)
  table := fun _ => rfl
  small := fun f hf => by
    by_contra hbig
    refine hf ((if_neg ?_).trans (if_neg hbig))
    exact fun hlt => hbig (hlt.trans (by decide))
  tlb := fun _ => rfl
  accessing := fun _ => rfl
  pins := fun _ => rfl
  access := fun _ => rfl
  holder := rfl

/-- The page gets its frame, -/
def backed (D : Demand) : Demand := (D.addTable 128 70000).map (.page 65536) 70001

/-- and loses it again. -/
def unbacked (D : Demand) : Demand :=
  (((backed D).unmap (.page 65536)).unmap (.table 128)).setKind 128 .absent

variable {D : Demand}

theorem backed_spec (hkind : D.kind 128 = .absent) (hnone : D.entry (.page 65536) = none)
    (hpt : D.owner 70000 = .free) (hf : D.owner 70001 = .free) :
    Demand.FaultIn 65536 D (backed D) (some 70001) :=
  .table hkind hpt (.page rfl hnone hf (.nil _))

/-- A reclaim of the page takes its frame and the page table. -/
theorem reclaim_backed {w : World Unit} (hram : w.ram = ram) (hpins : w.pins = fun _ => none)
    (hD : w.demand = backed D)
    (hnone : ∀ p ∈ Demand.pagesOf 128, (unbacked D).entry (.page p) = none) :
    Demand.Reclaim (w.ram.firstPage (2 ^ 28)) (w.ram.endPage (2 ^ 28) 4096) w.pinned
      (w.ram.reclaimBlocks (2 ^ 28) 4096) w.demand (unbacked D) [70001, 70000] 1 := by
  have hpages : Demand.takePages w.pinned (Demand.pagesIn 65536 65537 128) (backed D)
      = ((backed D).unmap (.page 65536), [70001]) := by
    rw [show Demand.pagesIn 65536 65537 128 = [65536] by decide +kernel]
    exact if_neg fun h => h (by rw [hpins])
  have htable : Demand.takeTable 65536 65537 w.pinned 128 (backed D)
      = (unbacked D, [70001, 70000]) := by
    unfold Demand.takeTable
    rw [hpages]
    exact if_pos hnone
  have hblock : Demand.ReclaimBlock 65536 65537 w.pinned 128 (backed D) _ _ _ := .table rfl
  rw [htable, hpages] at hblock
  rw [hram, show ram.firstPage (2 ^ 28) = 65536 by decide,
    show ram.endPage (2 ^ 28) 4096 = 65537 by decide,
    show ram.reclaimBlocks (2 ^ 28) 4096 = [128] by decide +kernel, hD]
  exact .cons hblock (.nil _)

/-- A vCPU touched the page, and an access to it has read epoch 0. -/
def readEpoch : World Unit :=
  (fresh.faulted (backed fresh.demand) 65536 (some 70001)).setAccess () (.loaded (2 ^ 28) 4 false)

/-- The access has its frame, and a reclaim takes the page. -/
def heldTaken : World Unit :=
  (((readEpoch.countIn () (2 ^ 28) 4 false).setAccess ()
    (.held (2 ^ 28) 4 0 false 70001 false)).setHolder (.reclaiming (2 ^ 28) 4096)).taken (2 ^ 28) 4096
    (unbacked fresh.demand) [70001, 70000] 1

theorem heldTaken_run : Run (fun w op w' => MemStep w op w' ∧ w.Orderly op) fresh
    [.fault 65536, .start () (2 ^ 28) 4, .count (), .translate (), .reclaim (2 ^ 28) 4096, .take]
    heldTaken := by
  refine .cons ⟨.fault (backed_spec rfl rfl rfl rfl), trivial⟩ (.cons ⟨.start rfl rfl rfl, trivial⟩
    (.cons ⟨.count rfl, ?_⟩ (.cons ⟨.found rfl (by decide) (by decide), trivial⟩
      (.cons ⟨.reclaim rfl (by decide) (by decide), show 2 ^ 28 ≤ _ by decide⟩ (.single ⟨.take rfl ?_, trivial⟩)))))
  · intro gpa total i h
    cases h
    exact ⟨rfl, by decide⟩
  · exact reclaim_backed rfl rfl rfl (by decide +kernel)

end Demo

/-- The frame that the access holds waits to be returned. -/
theorem frames_in_use_kept_walked :
    Demo.heldTaken.access () = .held (2 ^ 28) 4 0 false 70001 false ∧
      Demo.heldTaken.holder.limbo = [70001, 70000] ∧ Demo.heldTaken.InUseKept :=
  ⟨rfl, rfl, frames_in_use_kept Demo.fresh_fresh Demo.heldTaken_run⟩

/-- **Every frame of guest RAM has one use**, and the TLB answers what the tables say. -/
theorem guest_frames_apart {T : Type*} [DecidableEq T] {w₀ w : World T} {ops : List (Op T)}
    (h₀ : w₀.Fresh) (hrun : Run (fun w op w' => MemStep w op w' ∧ w.Orderly op) w₀ ops w) :
    w.demand.Frames w.ram.bootPages w.holder.limbo ∧
      ∀ slot page f, tlbHit (w.tlb slot) page = some f → w.demand.entry (.page page) = some f := by
  have hinv := hrun.invariant (I := MemInv) (fun _ _ _ hinv hs => hinv.step hs.1 hs.2) h₀.memInv
  exact ⟨hinv.maps.toFrames, hinv.tlb⟩

theorem guest_frames_apart_taken : Demo.heldTaken.demand.Frames 65536 [70001, 70000] ∧
    ∀ slot page f, tlbHit (Demo.heldTaken.tlb slot) page = some f →
      Demo.heldTaken.demand.entry (.page page) = some f :=
  guest_frames_apart Demo.fresh_fresh Demo.heldTaken_run

namespace Demo

/-- A reclaim has taken the page, -/
def takenOnce : World Unit :=
  (readEpoch.setHolder (.reclaiming (2 ^ 28) 4096)).taken (2 ^ 28) 4096
    (unbacked fresh.demand) [70001, 70000] 1

/-- flipped the epoch and given the frames back. -/
def overtaken : World Unit :=
  ((((({ takenOnce with epoch := 1, holder := .waiting false [70001, 70000] } :
    World Unit).setHolder (.freeing [70001, 70000])).deallocate 70001).setHolder
    (.freeing [70000])).deallocate 70000).setHolder .nobody

/-- Now the access counts itself and translates, -/
def translated : World Unit :=
  (((overtaken.countIn () (2 ^ 28) 4 false).setAccess () (.missed (2 ^ 28) 4 0 false)).faulted
    (backed overtaken.demand) (pageAt (2 ^ 28) 0) (some 70001)).setAccess ()
    (.held (2 ^ 28) 4 0 false 70001 false)

/-- a second reclaim takes the page, -/
def takenTwice : World Unit :=
  (translated.setHolder (.reclaiming (2 ^ 28) 4096)).taken (2 ^ 28) 4096
    (unbacked overtaken.demand) [70001, 70000] 1

/-- and gives the frame back. -/
def lost : World Unit :=
  ((({ takenTwice with epoch := 2, holder := .waiting true [70001, 70000] } :
    World Unit).setHolder (.freeing [70001, 70000])).deallocate 70001).setHolder (.freeing [70000])

end Demo

open Demo in
/-- **An access overtaken between its two operations loses its frame.** It reads epoch 0, a
reclaim of the page passes, and it counts itself in counter 0; the next reclaim of the page
waits for counter 1. -/
theorem overtaken_access_loses_frame :
    ∃ (w : World Unit) (ops : List (Op Unit)), fresh.Fresh ∧ Run MemStep fresh ops w
      ∧ w.access () = .held (2 ^ 28) 4 0 false 70001 true ∧ w.demand.owner 70001 = .free
      ∧ ¬ w.InUseKept := by
  have h₁ : Run MemStep fresh [.fault 65536, .start () (2 ^ 28) 4] readEpoch :=
    .cons (.fault (backed_spec rfl rfl rfl rfl)) (.single (.start rfl rfl rfl))
  have h₂ : Run MemStep readEpoch [.reclaim (2 ^ 28) 4096, .take] takenOnce :=
    .cons (.reclaim rfl (by decide) (by decide))
      (.single (.take rfl (reclaim_backed rfl rfl rfl (by decide +kernel))))
  have h₃ : Run MemStep takenOnce [.flip, .pass, .free, .free, .done] overtaken :=
    .cons (.flip rfl) (.cons (.pass rfl rfl) (.cons (.free rfl) (.cons (.free rfl)
      (.single (.done rfl)))))
  have h₄ : Run MemStep overtaken [.count (), .translate (), .walk ()] translated := by
    refine .cons (.count rfl) (.cons (.missed rfl (by decide) rfl) (.single (.walked rfl ?_)))
    exact backed_spec rfl rfl rfl rfl
  have h₅ : Run MemStep translated [.reclaim (2 ^ 28) 4096, .take] takenTwice :=
    .cons (.reclaim rfl (by decide) (by decide))
      (.single (.take rfl (reclaim_backed rfl rfl rfl (by decide +kernel))))
  have h₆ : Run MemStep takenTwice [.flip, .pass, .free] lost :=
    .cons (.flip rfl) (.cons (.pass rfl (by decide +kernel)) (.single (.free rfl)))
  have hrun := ((((h₁.append h₂).append h₃).append h₄).append h₅).append h₆
  refine ⟨lost, _, fresh_fresh, hrun, rfl, rfl, fun h => ?_⟩
  exact absurd (h.1 () _ _ _ _ _ _ rfl).1 (by decide)

end World

end NopeekOS.Microvm
