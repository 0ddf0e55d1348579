import Mathlib

/-!
# The map from guest pages to host frames

Guest RAM past the boot window gets host frames on first touch (`demand_fault_in`) and
gives them back when the guest reports pages free (`demand_reclaim`);
microvm/cpu/vmx/ept.rs and, the same for the other vendor, microvm/cpu/svm/npt.rs. Both
run under one lock, so each is one step here; which frames the allocator hands out is
left open.

Frames and pages are counted in 4 KiB. A 2 MiB block of pages is not present, a leaf, or
has a page table (`Kind`); a leaf is written out as its 512 entries. The boot window's
leaves stand in the same tables, before the demand region.

`Demand.Ok` says that every frame has one use: one entry, one page table, or one place in
the list of frames a reclaim is about to return. Two operations carry the proofs, a free
frame put into an empty entry (`Demand.Frames.map`) and an entry taken out
(`Demand.Frames.unmap`); `Demand.Ok.faultIn` and `Demand.Ok.reclaim` follow.
-/

namespace NopeekOS.Microvm

open Function List

/-- Who has a frame: the allocator, the boot window, the demand region with its page tables,
or somebody else in the kernel. -/
inductive Owner where
  | free
  | boot
  | guest
  | kernel
deriving DecidableEq, Repr

/-- What a page directory entry is. -/
inductive Kind where
  | absent
  | leaf
  | table
deriving DecidableEq, Repr

/-- What a frame of guest RAM is used for: a page, or the page table of a block. -/
inductive Use where
  | page (p : Nat)
  | table (b : Nat)
deriving DecidableEq, Repr

/-- A page of the boot window. -/
def Use.InBoot (bootPages : Nat) : Use → Prop
  | .page p => p < bootPages
  | .table _ => False

instance (bootPages : Nat) : DecidablePred (Use.InBoot bootPages)
  | .page p => inferInstanceAs (Decidable (p < bootPages))
  | .table _ => inferInstanceAs (Decidable False)

/-- The tables of guest RAM, and the owner of every frame. -/
structure Demand where
  kind : Nat → Kind
  entry : Use → Option Nat
  owner : Nat → Owner

namespace Demand

/-- The block of a page. -/
def blockOf (p : Nat) : Nat := p / 512

/-- The pages of a block. -/
def pagesOf (b : Nat) : List Nat := range' (b * 512) 512

variable (D : Demand) {p : Nat} {v : Use}

/-- A frame of the allocator goes into an entry. -/
def map (u : Use) (f : Nat) : Demand :=
  { D with entry := update D.entry u (some f), owner := update D.owner f .guest }

def unmap (u : Use) : Demand := { D with entry := update D.entry u none }

def setKind (b : Nat) (k : Kind) : Demand := { D with kind := update D.kind b k }

/-- A block gets a page table. -/
def addTable (b pt : Nat) : Demand := (D.map (.table b) pt).setKind b .table

/-! ## Fault-in -/

/-- Free frames go, one after the other, into empty entries of block `b`. -/
inductive Filled (b : Nat) : Demand → Demand → Prop where
  | nil (D : Demand) : Filled b D D
  | cons {D D' : Demand} {p f : Nat} (hp : blockOf p = b) (hnone : D.entry (.page p) = none)
      (hfree : D.owner f = .free) (h : Filled b (D.map (.page p) f) D') : Filled b D D'

/-- What `demand_fault_in` may do for page `p`, and the frame it returns. -/
inductive FaultIn (p : Nat) : Demand → Demand → Option Nat → Prop where
  /-- Outside the demand region, or no frame to spare. -/
  | refused (D : Demand) : FaultIn p D D none
  | present {D : Demand} {f : Nat} (h : D.entry (.page p) = some f) : FaultIn p D D (some f)
  /-- A block of 512 frames in a row becomes a leaf (ept.rs:247). -/
  | block {D D' : Demand} {host : Nat} (hkind : D.kind (blockOf p) = .absent)
      (h : Filled (blockOf p) D D')
      (hall : ∀ k < 512, D'.entry (.page (blockOf p * 512 + k)) = some (host + k)) :
      FaultIn p D (D'.setKind (blockOf p) .leaf) (some (host + p % 512))
  /-- A page table, and then as with one that was there (ept.rs:255). -/
  | table {D D' : Demand} {pt : Nat} {r : Option Nat} (hkind : D.kind (blockOf p) = .absent)
      (hfree : D.owner pt = .free) (h : FaultIn p (D.addTable (blockOf p) pt) D' r) :
      FaultIn p D D' r
  /-- A frame for the page, and perhaps for others of the block (ept.rs:270, 278). -/
  | page {D D' : Demand} {f : Nat} (hkind : D.kind (blockOf p) = .table)
      (hnone : D.entry (.page p) = none) (hfree : D.owner f = .free)
      (h : Filled (blockOf p) (D.map (.page p) f) D') : FaultIn p D D' (some f)

/-! ## Reclaim -/

section Reclaim

variable (start stop : Nat) (pinned : Nat → Prop) [DecidablePred pinned]

/-- Entries with a frame that is not pinned go, and their frames are listed (ept.rs:352). -/
def takePages : List Nat → Demand → Demand × List Nat
  | [], D => (D, [])
  | p :: ps, D =>
    match D.entry (.page p) with
    | none => takePages ps D
    | some f =>
      if pinned f then takePages ps D
      else ((takePages ps (D.unmap (.page p))).1, f :: (takePages ps (D.unmap (.page p))).2)

/-- The pages of a block that are in the range. -/
def pagesIn (b : Nat) : List Nat := (pagesOf b).filter fun p => start ≤ p ∧ p < stop

/-- The pages of the range leave the block's table, and an empty table goes too (ept.rs:359). -/
def takeTable (b : Nat) (D : Demand) : Demand × List Nat :=
  let r := takePages pinned (pagesIn start stop b) D
  if ∀ p ∈ pagesOf b, r.1.entry (.page p) = none then
    ((r.1.unmap (.table b)).setKind b .absent, r.2 ++ (r.1.entry (.table b)).toList)
  else r

/-- The range covers the block and none of its frames is pinned (ept.rs:329). -/
def WholeLeaf (b : Nat) (D : Demand) : Prop :=
  (start ≤ b * 512 ∧ (b + 1) * 512 ≤ stop)
    ∧ ∀ p ∈ pagesOf b, ∀ f ∈ D.entry (.page p), ¬ pinned f

/-- What `demand_reclaim` may do to one block, the frames it takes and the pages it counts. -/
inductive ReclaimBlock (b : Nat) (D : Demand) : Demand → List Nat → Nat → Prop where
  | absent (h : D.kind b = .absent) : ReclaimBlock b D D [] 0
  | whole (h : D.kind b = .leaf) (hwhole : WholeLeaf start stop pinned b D) :
      ReclaimBlock b D ((takePages pinned (pagesOf b) D).1.setKind b .absent)
        (takePages pinned (pagesOf b) D).2 (takePages pinned (pagesOf b) D).2.length
  /-- A leaf taken in part has to be split, and no frame is left for the table. -/
  | noTable (h : D.kind b = .leaf) (hpart : ¬ WholeLeaf start stop pinned b D) :
      ReclaimBlock b D D [] 0
  | split {pt : Nat} {D₁ : Demand} (h : D.kind b = .leaf)
      (hpart : ¬ WholeLeaf start stop pinned b D) (hfree : D.owner pt = .free)
      (hsplit : D₁ = D.addTable b pt) :
      ReclaimBlock b D (takeTable start stop pinned b D₁).1 (takeTable start stop pinned b D₁).2
        (takePages pinned (pagesIn start stop b) D₁).2.length
  | table (h : D.kind b = .table) :
      ReclaimBlock b D (takeTable start stop pinned b D).1 (takeTable start stop pinned b D).2
        (takePages pinned (pagesIn start stop b) D).2.length

/-- `demand_reclaim` over the blocks it visits, in order (ept.rs:311). -/
inductive Reclaim : List Nat → Demand → Demand → List Nat → Nat → Prop where
  | nil (D : Demand) : Reclaim [] D D [] 0
  | cons {b : Nat} {bs : List Nat} {D D₁ D₂ : Demand} {F F' : List Nat} {n n' : Nat}
      (h : ReclaimBlock start stop pinned b D D₁ F n) (h' : Reclaim bs D₁ D₂ F' n') :
      Reclaim (b :: bs) D D₂ (F ++ F') (n + n')

end Reclaim

/-- The blocks a range of pages touches. -/
def blocksOf (start stop : Nat) : List Nat :=
  range' (start / 512) ((stop + 511) / 512 - start / 512)

/-! ## One use for every frame -/

/-- Every frame in the tables has one use and is the boot window's or the guest's; the frames
in `limbo` were the guest's and are in the tables no more. -/
structure Frames (boot : Nat) (limbo : List Nat) : Prop where
  inj : ∀ u u' f, D.entry u = some f → D.entry u' = some f → u = u'
  own : ∀ u f, D.entry u = some f → D.owner f = if u.InBoot boot then .boot else .guest
  limboOwn : ∀ f ∈ limbo, D.owner f = .guest
  limboNodup : limbo.Nodup
  limboOff : ∀ u f, D.entry u = some f → f ∉ limbo

/-- Only blocks with a page table have a frame for one. -/
structure Ok (boot : Nat) (limbo : List Nat) : Prop extends D.Frames boot limbo where
  tables : ∀ b, D.kind b ≠ .table → D.entry (.table b) = none

/-- Entries stay, and so do owners; free frames may be handed out. -/
structure Grew (D D' : Demand) : Prop where
  entry : ∀ u f, D.entry u = some f → D'.entry u = some f
  owner : ∀ f, D.owner f ≠ .free → D'.owner f = D.owner f

variable {D} {D' D₁ : Demand} {boot : Nat} {limbo freed : List Nat} {b : Nat} {u : Use} {f : Nat}

theorem entry_map_of_ne (h : v ≠ u) : (D.map u f).entry v = D.entry v :=
  update_of_ne h _ _

theorem entry_unmap_of_ne (h : v ≠ u) : (D.unmap u).entry v = D.entry v :=
  update_of_ne h _ _

namespace Frames

variable {u : Use} {f : Nat}

section

variable (h : D.Frames boot limbo)

include h

theorem not_free (hf : D.entry u = some f) : D.owner f ≠ .free := by
  rw [h.own u f hf]
  split <;> exact nofun

theorem not_kernel (hf : D.entry u = some f) : D.owner f ≠ .kernel := by
  rw [h.own u f hf]
  split <;> exact nofun

theorem limbo_not_free (hf : f ∈ limbo) : D.owner f ≠ .free := by
  rw [h.limboOwn f hf]
  exact nofun

/-- A frame without use changes hands. -/
theorem setOwner (o : Owner) (hu : ∀ u, D.entry u ≠ some f) (hl : f ∉ limbo) :
    Frames { D with owner := update D.owner f o } boot limbo where
  inj := h.inj
  own := fun u g hg => by
    have hne : g ≠ f := fun heq => hu u (heq ▸ hg)
    exact (update_of_ne hne _ _).trans (h.own u g hg)
  limboOwn := fun g hg => by
    have hne : g ≠ f := fun heq => hl (heq ▸ hg)
    exact (update_of_ne hne _ _).trans (h.limboOwn g hg)
  limboNodup := h.limboNodup
  limboOff := h.limboOff

/-- **A free frame goes into an empty entry** of the demand region. -/
theorem map (hu : ¬ u.InBoot boot) (hfree : D.owner f = .free) : (D.map u f).Frames boot limbo := by
  have hunused : ∀ v, D.entry v ≠ some f := fun v hv => h.not_free hv hfree
  have hlimbo : f ∉ limbo := fun hf => h.limbo_not_free hf hfree
  have hown := h.setOwner .guest hunused hlimbo
  -- an entry is the new one or an old one
  have hcases : ∀ v g, (D.map u f).entry v = some g → v = u ∧ g = f ∨ D.entry v = some g := by
    intro v g hv
    by_cases heq : v = u
    · rw [heq] at hv
      exact .inl ⟨heq, Option.some.inj (hv.symm.trans (update_self ..))⟩
    · exact .inr (by rwa [entry_map_of_ne heq] at hv)
  refine ⟨fun v v' g hv hv' => ?_, fun v g hv => ?_, hown.limboOwn, h.limboNodup,
    fun v g hv hg => ?_⟩
  · rcases hcases v g hv with ⟨rfl, rfl⟩ | hold
    · rcases hcases v' g hv' with ⟨rfl, -⟩ | hold'
      · rfl
      · exact absurd hold' (hunused v')
    · rcases hcases v' g hv' with ⟨-, rfl⟩ | hold'
      · exact absurd hold (hunused v)
      · exact h.inj v v' g hold hold'
  · rcases hcases v g hv with ⟨rfl, rfl⟩ | hold
    · rw [if_neg hu]
      exact update_self ..
    · exact hown.own v g hold
  · rcases hcases v g hv with ⟨-, rfl⟩ | hold
    · exact hlimbo hg
    · exact h.limboOff v g hold hg

end

theorem unmap_of_unmap {g : Nat} (hv : (D.unmap u).entry v = some g) :
    D.entry v = some g ∧ v ≠ u := by
  by_cases heq : v = u
  · rw [heq] at hv
    exact nomatch hv.symm.trans (update_self ..)
  · exact ⟨by rwa [entry_unmap_of_ne heq] at hv, heq⟩

/-- **An entry of the demand region is taken out**, and its frame is in limbo. -/
theorem unmap (h : D.Frames boot limbo) (hu : ¬ u.InBoot boot) (hf : D.entry u = some f) :
    (D.unmap u).Frames boot (limbo ++ [f]) where
  inj := fun v v' g hv hv' => h.inj v v' g (unmap_of_unmap hv).1 (unmap_of_unmap hv').1
  own := fun v g hv => h.own v g (unmap_of_unmap hv).1
  limboOwn := forall_mem_append.mpr
    ⟨h.limboOwn, forall_mem_singleton.mpr ((h.own u f hf).trans (if_neg hu))⟩
  limboNodup := nodup_append'.mpr ⟨h.limboNodup, nodup_singleton f, fun g hold hnew =>
    h.limboOff u f hf (mem_singleton.mp hnew ▸ hold)⟩
  limboOff := fun v g hv hg => by
    obtain ⟨hold, hne⟩ := unmap_of_unmap hv
    rcases mem_append.mp hg with hmem | hnew
    · exact h.limboOff v g hold hmem
    · exact hne (h.inj v u g hold (mem_singleton.mp hnew ▸ hf))

/-- The first frame of the list goes back to the allocator. -/
theorem deallocate (h : D.Frames boot (f :: limbo)) :
    Frames { D with owner := update D.owner f .free } boot limbo := by
  obtain ⟨hnot, hnodup⟩ := nodup_cons.mp h.limboNodup
  have htail : D.Frames boot limbo := {
    h with
    limboOwn := fun g hg => h.limboOwn g (mem_cons_of_mem f hg)
    limboNodup := hnodup
    limboOff := fun u g hg hmem => h.limboOff u g hg (mem_cons_of_mem f hmem) }
  exact htail.setOwner .free (fun u hu => h.limboOff u f hu mem_cons_self) hnot

end Frames

/-! ## Fault-in keeps it -/

theorem grew_map (hnone : D.entry u = none) (hfree : D.owner f = .free) : Grew D (D.map u f) where
  entry := fun v g hv => by
    have hne : v ≠ u := fun heq => by
      rw [heq, hnone] at hv
      exact nomatch hv
    exact (entry_map_of_ne hne).trans hv
  owner := fun g hg => by
    have hne : g ≠ f := fun heq => hg (heq ▸ hfree)
    exact update_of_ne hne _ _

theorem Grew.trans (h : Grew D D₁) (h' : Grew D₁ D') : Grew D D' where
  entry := fun u f hf => h'.entry u f (h.entry u f hf)
  owner := fun f hf => by rw [h'.owner f (by rwa [h.owner f hf]), h.owner f hf]

theorem Filled.kind (h : Filled b D D') : D'.kind = D.kind := by
  induction h with
  | nil => rfl
  | cons _ _ _ _ ih => exact ih

section

variable (h : D.Ok boot limbo)

include h

theorem Ok.addTable {pt : Nat} (hkind : D.kind b ≠ .table) (hfree : D.owner pt = .free) :
    (D.addTable b pt).Ok boot limbo ∧ Grew D (D.addTable b pt) := by
  have hmap := h.toFrames.map (u := .table b) id hfree
  have hgrew : Grew D (D.map (.table b) pt) := grew_map (h.tables b hkind) hfree
  refine ⟨{ hmap with tables := fun c hc => ?_ }, hgrew.entry, hgrew.owner⟩
  change update D.kind b .table c ≠ .table at hc
  have hne : c ≠ b := fun heq => hc (by rw [heq, update_self])
  rw [update_of_ne hne] at hc
  exact (entry_map_of_ne fun heq => hne (Use.table.inj heq)).trans (h.tables c hc)

theorem Ok.mapPage (hp : boot ≤ p) (hfree : D.owner f = .free) :
    (D.map (.page p) f).Ok boot limbo where
  toFrames := h.toFrames.map (Nat.not_lt.mpr hp) hfree
  tables := fun c hc => by
    have hne : Use.table c ≠ .page p := nofun
    exact (entry_map_of_ne hne).trans (h.tables c hc)

theorem Ok.filled (hb : boot ≤ b * 512) (hf : Filled b D D') : D'.Ok boot limbo ∧ Grew D D' := by
  induction hf with
  | nil D => exact ⟨h, fun _ _ hf => hf, fun _ _ => rfl⟩
  | @cons D D' p f hp hnone hfree _ ih =>
    have hle : boot ≤ p := by
      subst hp
      exact Nat.le_trans hb (Nat.div_mul_le_self p 512)
    obtain ⟨hok, hgrew⟩ := ih (h.mapPage hle hfree)
    exact ⟨hok, (grew_map hnone hfree).trans hgrew⟩

/-- A block without a page table changes. -/
theorem Ok.setKind (hkind : D.kind b ≠ .table) (k : Kind) : (D.setKind b k).Ok boot limbo := by
  refine { h with tables := fun c hc => ?_ }
  change update D.kind b k c ≠ .table at hc
  by_cases heq : c = b
  · exact heq ▸ h.tables b hkind
  · rw [update_of_ne heq] at hc
    exact h.tables c hc

/-- **Fault-in gives every page a frame of its own**: mapped pages keep theirs, and the frame
returned is the page's. -/
theorem Ok.faultIn {r : Option Nat} (hb : boot ≤ blockOf p * 512) (hf : FaultIn p D D' r) :
    D'.Ok boot limbo ∧ Grew D D' ∧ ∀ f, r = some f → D'.entry (.page p) = some f := by
  induction hf with
  | refused => exact ⟨h, ⟨fun _ _ hf => hf, fun _ _ => rfl⟩, nofun⟩
  | present hp => exact ⟨h, ⟨fun _ _ hf => hf, fun _ _ => rfl⟩, fun f hr => hr ▸ hp⟩
  | @block D D' host hkind hfill hall =>
    obtain ⟨hok, hgrew⟩ := h.filled hb hfill
    have hnot : D'.kind (blockOf p) ≠ .table := by
      rw [hfill.kind, hkind]
      exact nofun
    refine ⟨hok.setKind hnot .leaf, ⟨hgrew.entry, hgrew.owner⟩, fun f hr => ?_⟩
    rw [← hr, ← hall (p % 512) (Nat.mod_lt p (by decide)), blockOf, Nat.div_add_mod']
    rfl
  | table hkind hfree _ ih =>
    obtain ⟨hok, hgrew⟩ := h.addTable (by rw [hkind]; exact nofun) hfree
    obtain ⟨hok', hgrew', hr⟩ := ih hok
    exact ⟨hok', hgrew.trans hgrew', hr⟩
  | page hkind hnone hfree hfill =>
    have hle : boot ≤ p := Nat.le_trans hb (Nat.div_mul_le_self _ 512)
    obtain ⟨hok, hgrew⟩ := (h.mapPage hle hfree).filled hb hfill
    refine ⟨hok, (grew_map hnone hfree).trans hgrew, fun f hr => hgrew.entry _ f ?_⟩
    rw [← hr]
    exact update_self ..

end

/-! ## Reclaim keeps it -/

/-- What a reclaim may do to the map: pages go only in the range, when they are not pinned,
and their frames are taken and counted. -/
structure Reclaimed (start stop : Nat) (pinned : Nat → Prop) (D D' : Demand) (freed : List Nat)
    (taken : Nat) : Prop where
  gone : ∀ p f, D.entry (.page p) = some f → D'.entry (.page p) = some f
    ∨ (start ≤ p ∧ p < stop) ∧ ¬ pinned f ∧ f ∈ freed ∧ 0 < taken
  owner : ∀ f, D.owner f ≠ .free → D'.owner f = D.owner f

section Reclaim

variable {start stop : Nat} {pinned : Nat → Prop}

theorem Grew.reclaimed (h : Grew D D') : Reclaimed start stop pinned D D' [] 0 :=
  ⟨fun _ f hf => .inl (h.entry _ f hf), h.owner⟩

variable {taken : Nat}

theorem Reclaimed.trans {freed' : List Nat} {taken' : Nat}
    (h : Reclaimed start stop pinned D D₁ freed taken)
    (h' : Reclaimed start stop pinned D₁ D' freed' taken') :
    Reclaimed start stop pinned D D' (freed ++ freed') (taken + taken') where
  gone := fun q f hf => by
    rcases h.gone q f hf with h₁ | ⟨hrange, hpin, hmem, hpos⟩
    · rcases h'.gone q f h₁ with h₂ | ⟨hrange, hpin, hmem, hpos⟩
      · exact .inl h₂
      · exact .inr ⟨hrange, hpin, mem_append_right _ hmem, by omega⟩
    · exact .inr ⟨hrange, hpin, mem_append_left _ hmem, by omega⟩
  owner := fun f hf => by rw [h'.owner f (by rwa [h.owner f hf]), h.owner f hf]

theorem le_of_mem_pagesOf (hb : boot ≤ b * 512) (hp : p ∈ pagesOf b) : boot ≤ p := by
  rw [pagesOf, mem_range'_1] at hp
  exact Nat.le_trans hb hp.1

section

variable (h : D.Ok boot limbo)

include h

/-- A page of the demand region goes, and its frame is in limbo. -/
theorem Ok.takePage (hp : boot ≤ p) (hin : start ≤ p ∧ p < stop)
    (hf : D.entry (.page p) = some f) (hpin : ¬ pinned f) :
    (D.unmap (.page p)).Ok boot (limbo ++ [f]) ∧
      Reclaimed start stop pinned D (D.unmap (.page p)) [f] 1 := by
  have hframes := h.toFrames.unmap (u := .page p) (Nat.not_lt.mpr hp) hf
  refine ⟨{ hframes with tables := fun c hc => ?_ }, fun q g hg => ?_, fun _ _ => rfl⟩
  · have hne : Use.table c ≠ .page p := nofun
    exact (entry_unmap_of_ne hne).trans (h.tables c hc)
  · by_cases heq : q = p
    · subst heq
      obtain rfl := Option.some.inj (hf.symm.trans hg)
      exact .inr ⟨hin, hpin, mem_cons_self, Nat.one_pos⟩
    · have hne : Use.page q ≠ .page p := fun h => heq (Use.page.inj h)
      exact .inl ((entry_unmap_of_ne hne).trans hg)

/-- **Taking pages**, one after the other. -/
theorem Ok.takePages (pinned : Nat → Prop) [DecidablePred pinned] {ps : List Nat}
    (hps : ∀ p ∈ ps, boot ≤ p ∧ start ≤ p ∧ p < stop) :
    (Demand.takePages pinned ps D).1.Ok boot (limbo ++ (Demand.takePages pinned ps D).2) ∧
      Reclaimed start stop pinned D (Demand.takePages pinned ps D).1
        (Demand.takePages pinned ps D).2 (Demand.takePages pinned ps D).2.length ∧
      (Demand.takePages pinned ps D).1.kind = D.kind := by
  induction ps generalizing D limbo with
  | nil =>
    refine ⟨?_, ⟨fun _ _ hf => .inl hf, fun _ _ => rfl⟩, rfl⟩
    change D.Ok boot (limbo ++ [])
    rwa [append_nil]
  | cons p ps ih =>
    obtain ⟨⟨hp, hin⟩, hrest⟩ := forall_mem_cons.mp hps
    unfold Demand.takePages
    split
    · exact ih h hrest
    next f hf =>
    split
    · exact ih h hrest
    next hpin =>
    obtain ⟨hok, hrec⟩ := h.takePage hp hin hf hpin
    obtain ⟨hok', hrec', hkind⟩ := ih hok hrest
    rw [append_assoc] at hok'
    have htrans := hrec.trans hrec'
    rw [Nat.add_comm] at htrans
    exact ⟨hok', htrans, hkind⟩

variable [DecidablePred pinned]

/-- A page table goes. -/
theorem Ok.dropTable (b : Nat) :
    ((D.unmap (.table b)).setKind b .absent).Ok boot (limbo ++ (D.entry (.table b)).toList) := by
  have hframes : (D.unmap (.table b)).Frames boot (limbo ++ (D.entry (.table b)).toList) := by
    cases hpt : D.entry (.table b) with
    | none =>
      have hsame : D.unmap (.table b) = D := by rw [unmap, ← hpt, update_eq_self]
      rw [hsame, Option.toList_none, append_nil]
      exact h.toFrames
    | some pt => exact h.toFrames.unmap id hpt
  refine { hframes with tables := fun c hc => ?_ }
  by_cases heq : c = b
  · exact heq ▸ update_self ..
  · refine (entry_unmap_of_ne fun h => heq (Use.table.inj h)).trans (h.tables c ?_)
    exact fun hk => hc ((update_of_ne heq _ _).trans hk)

/-- Taking pages out of a table. -/
theorem Ok.takeTable (hb : boot ≤ b * 512) (start stop : Nat) (pinned : Nat → Prop)
    [DecidablePred pinned] :
    (Demand.takeTable start stop pinned b D).1.Ok boot
      (limbo ++ (Demand.takeTable start stop pinned b D).2)
    ∧ Reclaimed start stop pinned D (Demand.takeTable start stop pinned b D).1
      (Demand.takeTable start stop pinned b D).2
      (Demand.takePages pinned (pagesIn start stop b) D).2.length := by
  have hpages : ∀ p ∈ pagesIn start stop b, boot ≤ p ∧ start ≤ p ∧ p < stop := fun p hp =>
    ⟨le_of_mem_pagesOf hb (mem_filter.mp hp).1, by simpa using (mem_filter.mp hp).2⟩
  obtain ⟨hok, hrec, -⟩ := h.takePages pinned hpages
  unfold Demand.takeTable
  generalize Demand.takePages pinned (pagesIn start stop b) D = r at *
  dsimp only
  split
  · refine ⟨?_, fun p f hf => ?_, hrec.owner⟩
    · rw [← append_assoc]
      exact hok.dropTable b
    · refine (hrec.gone p f hf).imp (fun hr => ?_) fun hr => ?_
      · have hne : Use.page p ≠ .table b := nofun
        exact (entry_unmap_of_ne hne).trans hr
      · exact ⟨hr.1, hr.2.1, mem_append_left _ hr.2.2.1, hr.2.2.2⟩
  · exact ⟨hok, hrec⟩

/-- One block. -/
theorem Ok.reclaimBlock (hb : boot ≤ b * 512)
    (hr : ReclaimBlock start stop pinned b D D' freed taken) :
    D'.Ok boot (limbo ++ freed) ∧ Reclaimed start stop pinned D D' freed taken := by
  cases hr with
  | absent | noTable =>
    rw [append_nil]
    exact ⟨h, fun _ _ hf => .inl hf, fun _ _ => rfl⟩
  | whole hkind hwhole =>
    have hpages : ∀ p ∈ pagesOf b, boot ≤ p ∧ start ≤ p ∧ p < stop := fun p hp => by
      rw [pagesOf, mem_range'_1] at hp
      have hcover := hwhole.1
      omega
    obtain ⟨hok, hrec, hk⟩ := h.takePages pinned hpages
    exact ⟨hok.setKind (by rw [hk, hkind]; exact nofun) .absent, { hrec with }⟩
  | split hkind hpart hfree hsplit =>
    obtain ⟨hok, hgrew⟩ := h.addTable (by rw [hkind]; exact nofun) hfree
    rw [← hsplit] at hok hgrew
    obtain ⟨hok', hrec⟩ := hok.takeTable hb start stop pinned
    exact ⟨hok', by simpa using hgrew.reclaimed.trans hrec⟩
  | table => exact h.takeTable hb start stop pinned

/-- **Reclaim takes pages of the range that are not pinned, and only those.** -/
theorem Ok.reclaim {bs : List Nat} (hbs : ∀ b ∈ bs, boot ≤ b * 512)
    (hr : Reclaim start stop pinned bs D D' freed taken) :
    D'.Ok boot (limbo ++ freed) ∧ Reclaimed start stop pinned D D' freed taken := by
  induction hr generalizing limbo with
  | nil D =>
    rw [append_nil]
    exact ⟨h, fun _ _ hf => .inl hf, fun _ _ => rfl⟩
  | cons hblock _ ih =>
    obtain ⟨hb, hrest⟩ := forall_mem_cons.mp hbs
    obtain ⟨hok, hrec⟩ := h.reclaimBlock hb hblock
    obtain ⟨hok', hrec'⟩ := ih hok hrest
    rw [← append_assoc]
    exact ⟨hok', hrec.trans hrec'⟩

end

end Reclaim

end Demand

end NopeekOS.Microvm
