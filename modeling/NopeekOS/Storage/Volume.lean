import NopeekOS.Storage.BTree
import NopeekOS.Storage.BitmapInv

/-!
# What a copy-on-write call does to the volume

`Vol.Grew v A v'` says everything the B-tree needs to know about the effect of a
call: the blocks `A` were free, are used now, and are the only ones written. It
composes, so every function's specification is one `Grew` and what is in the
new blocks.
-/

namespace NopeekOS.Storage

open Lib FaultState Function List

/-- From `v` to `v'` exactly the blocks `A` were allocated, and nothing else was
written. -/
structure Vol.Grew (v : Vol) (A : List Nat) (v' : Vol) : Prop where
  inv : v'.bm.Inv
  geo : v'.bm.geo = v.bm.geo
  nodup : A.Nodup
  fresh : ∀ b ∈ A, v.bm.isFree b = true
  inData : ∀ b ∈ A, v.bm.geo.dataStart ≤ b ∧ b < v.bm.geo.totalBlocks
  isFree_iff : ∀ b, v'.bm.isFree b = true ↔ v.bm.isFree b = true ∧ b ∉ A
  frame : ∀ b, b ∉ A → v'.blocks b = v.blocks b

/-- Every block of the list is marked used. -/
def Vol.Used (v : Vol) (bs : List Nat) : Prop := ∀ b ∈ bs, v.bm.isFree b = false

namespace Vol

theorem Grew.refl {v : Vol} (h : v.bm.Inv) : v.Grew [] v where
  inv := h
  geo := rfl
  nodup := nodup_nil
  fresh := nofun
  inData := nofun
  isFree_iff := by simp
  frame := fun _ _ => rfl

theorem Grew.trans {v₁ v₂ v₃ : Vol} {A B : List Nat} (h₁ : v₁.Grew A v₂) (h₂ : v₂.Grew B v₃) :
    v₁.Grew (A ++ B) v₃ where
  inv := h₂.inv
  geo := h₂.geo.trans h₁.geo
  nodup := by
    refine List.nodup_append.mpr ⟨h₁.nodup, h₂.nodup, ?_⟩
    rintro b hb c hc rfl
    exact ((h₁.isFree_iff b).mp (h₂.fresh b hc)).2 hb
  fresh := forall_mem_append.mpr
    ⟨h₁.fresh, fun b hb => ((h₁.isFree_iff b).mp (h₂.fresh b hb)).1⟩
  inData := forall_mem_append.mpr ⟨h₁.inData, h₁.geo ▸ h₂.inData⟩
  isFree_iff := by
    intro b
    rw [h₂.isFree_iff, h₁.isFree_iff, mem_append]
    tauto
  frame := by
    intro b hb
    rw [mem_append, not_or] at hb
    rw [h₂.frame b hb.2, h₁.frame b hb.1]

variable {b : Nat} {v v' : Vol} {A : List Nat} {bs cs : List Nat}

/-- A used block is not among the new ones. -/
theorem Grew.not_mem (h : v.Grew A v') (hb : v.bm.isFree b = false) : b ∉ A := by
  intro hmem
  rw [h.fresh b hmem] at hb
  cases hb

theorem Grew.frame_of_used {A bs : List Nat} (h : v.Grew A v') (hu : v.Used bs) :
    ∀ b ∈ bs, v'.blocks b = v.blocks b := fun b hb => h.frame b (h.not_mem (hu b hb))

theorem Grew.used {A bs : List Nat} (h : v.Grew A v') (hu : v.Used bs) : v'.Used bs := by
  intro b hb
  by_contra hfree
  rw [Bool.not_eq_false] at hfree
  have := ((h.isFree_iff b).mp hfree).1
  rw [hu b hb] at this
  cases this

/-- The new blocks are used. -/
theorem Grew.used_new (h : v.Grew A v') : v'.Used A := by
  intro b hb
  by_contra hfree
  rw [Bool.not_eq_false] at hfree
  exact ((h.isFree_iff b).mp hfree).2 hb

theorem used_append {v : Vol} : v.Used (bs ++ cs) ↔ v.Used bs ∧ v.Used cs := by
  simp only [Used, mem_append, or_imp, forall_and]

theorem Used.perm {v : Vol} (h : v.Used bs) (hp : cs.Perm bs) : v.Used cs :=
  fun b hb => h b (hp.mem_iff.mp hb)

/-- No new block is block 0. -/
theorem Grew.pos (h : v.Grew A v') (hb : b ∈ A) : 0 < b := by
  obtain ⟨hlo, hhi⟩ := h.inData b hb
  exact (v.bm.geo.dataStart_pos (by omega)).trans_le hlo

/-- Rewriting a block that was just allocated. -/
theorem Grew.write (h : v.Grew A v') (hb : b ∈ A) (c : Content) :
    v.Grew A { v' with blocks := update v'.blocks b c } where
  inv := h.inv
  geo := h.geo
  nodup := h.nodup
  fresh := h.fresh
  inData := h.inData
  isFree_iff := h.isFree_iff
  frame := by
    intro x hx
    have hne : x ≠ b := fun heq => hx (heq ▸ hb)
    show update v'.blocks b c x = v.blocks x
    rw [update_of_ne hne]
    exact h.frame x hx

end Vol

/-- The block accounting of a copy-on-write call on a structure of blocks `bs`: it
took the fresh blocks `A`, retired `old`, and its result is on the blocks `bs'`. -/
structure Cow (v : Vol) (bs old A bs' : List Nat) (v' : Vol) : Prop where
  grew : v.Grew A v'
  old_subset : ∀ x ∈ old, x ∈ bs
  perm : (bs' ++ old).Perm (bs ++ A)

namespace Cow

variable {v v' : Vol} {bs old A bs' : List Nat}

/-- A call that changes nothing. -/
theorem refl (hinv : v.bm.Inv) (bs : List Nat) : Cow v bs [] [] bs v :=
  ⟨.refl hinv, fun _ hx => (not_mem_nil hx).elim, by simp⟩

theorem nodup_append (h : Cow v bs old A bs' v') (hbs : bs.Nodup) (hu : v.Used bs) :
    (bs' ++ old).Nodup := by
  refine h.perm.nodup_iff.mpr (List.nodup_append.mpr ⟨hbs, h.grew.nodup, ?_⟩)
  rintro x hx y hy rfl
  exact h.grew.not_mem (hu x hx) hy

theorem nodup (h : Cow v bs old A bs' v') (hbs : bs.Nodup) (hu : v.Used bs) : bs'.Nodup :=
  (List.nodup_append.mp (h.nodup_append hbs hu)).1

variable {x : Nat}

section

variable (h : Cow v bs old A bs' v')

include h

theorem mem_new (hx : x ∈ bs') : x ∈ bs ∨ x ∈ A :=
  mem_append.mp (h.perm.mem_iff.mp (mem_append_left _ hx))

theorem used (hu : v.Used bs) : v'.Used bs' := fun x hx =>
  (h.mem_new hx).elim (h.grew.used hu x) (h.grew.used_new x)

/-- The retired blocks are those of the old structure that the new one does not
have. -/
theorem mem_old_iff (hbs : bs.Nodup) (hu : v.Used bs) : x ∈ old ↔ x ∈ bs ∧ x ∉ bs' := by
  have hdisj := (List.nodup_append.mp (h.nodup_append hbs hu)).2.2
  constructor
  · intro hx
    exact ⟨h.old_subset x hx, fun hx' => hdisj x hx' x hx rfl⟩
  · rintro ⟨hx, hx'⟩
    have := h.perm.mem_iff.mpr (mem_append_left A hx)
    exact (mem_append.mp this).resolve_left hx'

/-- The fresh blocks are those of the new structure that the old one does not
have. -/
theorem mem_fresh_iff (hu : v.Used bs) : x ∈ A ↔ x ∈ bs' ∧ x ∉ bs := by
  constructor
  · intro hx
    have hnot : x ∉ bs := fun hx' => h.grew.not_mem (hu x hx') hx
    have := h.perm.mem_iff.mpr (mem_append_right bs hx)
    exact ⟨(mem_append.mp this).resolve_right fun ho => hnot (h.old_subset x ho), hnot⟩
  · rintro ⟨hx, hx'⟩
    exact (h.mem_new hx).resolve_left hx'

theorem of_perm {bs₀ : List Nat} (hp : bs.Perm bs₀) : Cow v bs₀ old A bs' v' where
  grew := h.grew
  old_subset := fun x hx => hp.mem_iff.mp (h.old_subset x hx)
  perm := h.perm.trans (hp.append_right A)

end

end Cow

/-- How a call on the volume may fail without harm: out of space. -/
def OutOfSpace (v : Vol) (e : Fault) (v' : Vol) : Prop :=
  e = .fs .diskFull ∧ ∃ A, v.Grew A v'

theorem OutOfSpace.of_grew {v₁ v₂ v₃ : Vol} {A : List Nat} {e : Fault} (h₁ : v₁.Grew A v₂)
    (h : OutOfSpace v₂ e v₃) : OutOfSpace v₁ e v₃ :=
  ⟨h.1, h.2.elim fun _ hB => ⟨_, h₁.trans hB⟩⟩

theorem Bitmap.alloc_error_eq {bm : Bitmap} {count : Nat} {e : FsError}
    (h : bm.alloc count = .error e) : e = .diskFull := by
  unfold Bitmap.alloc at h
  split_ifs at h
  · exact (Except.error.inj h).symm
  · split at h
    · cases h
    · split at h
      · cases h
      · exact (Except.error.inj h).symm
  · split at h
    · cases h
    · exact (Except.error.inj h).symm

/-- `bitmap.alloc(1)?`: one free block, or out of space. -/
theorem wp_allocBlock {v : Vol} (hinv : v.bm.Inv) :
    wp allocBlock (fun b v' => v.Grew [b] v' ∧ v'.blocks = v.blocks) (OutOfSpace v) v := by
  unfold wp allocBlock
  cases h : v.bm.alloc 1 with
  | error e =>
    exact ⟨by rw [Bitmap.alloc_error_eq h], [], .refl hinv⟩
  | ok r =>
    obtain ⟨b, bm⟩ := r
    obtain ⟨-, -, hlo, hhi, hfree, rfl⟩ := Bitmap.alloc_ok hinv h
    refine ⟨⟨hinv.takeRun hlo hhi hfree, rfl, nodup_singleton b, ?_, ?_, ?_, ?_⟩, rfl⟩
    · exact forall_mem_singleton.mpr (hfree b (Nat.le_refl _) (Nat.lt_succ_self _))
    · exact forall_mem_singleton.mpr ⟨hlo, hhi⟩
    · intro c
      rw [Bitmap.takeRun_isFree hinv hhi, mem_singleton, Bool.and_eq_true,
        decide_eq_true_eq]
      have : (¬ (b ≤ c ∧ c < b + 1)) ↔ ¬ c = b := by omega
      rw [this]
    · exact fun _ _ => rfl

namespace BTree

variable {E : Fault → Vol → Prop} {v : Vol}

theorem wp_writeNode {b : Nat} {n : Node} {Q : Unit → Vol → Prop} : wp (writeNode b n) Q E v ↔
      Q () { v with blocks := update v.blocks b (.node n) } := Iff.rfl

/-- A node in a fresh block. -/
theorem wp_writeFresh (hinv : v.bm.Inv) (n : Node) :
    wp (writeFresh n) (fun b v' => v.Grew [b] v' ∧ v'.blocks b = .node n) (OutOfSpace v) v := by
  refine wp_seq (wp_allocBlock hinv) fun b v' h => ?_
  rw [wp_bind, wp_writeNode, wp_pure]
  exact ⟨h.1.write (mem_singleton_self b) _, update_self ..⟩

/-- Two nodes in two fresh blocks, allocated before either is written. -/
theorem wp_writePair (hinv : v.bm.Inv) (n₁ n₂ : Node) {α : Type} (f : Nat → Nat → α) : wp (do
        let b₁ ← allocBlock
        let b₂ ← allocBlock
        writeNode b₁ n₁
        writeNode b₂ n₂
        pure (f b₁ b₂))
      (fun a v' => ∃ b₁ b₂, a = f b₁ b₂ ∧ v.Grew [b₁, b₂] v' ∧ v'.blocks b₁ = .node n₁ ∧
        v'.blocks b₂ = .node n₂) (OutOfSpace v) v := by
  refine wp_seq (wp_allocBlock hinv) fun b₁ v₁ h₁ => ?_
  refine wp_seq_mono (wp_allocBlock h₁.1.inv) (fun e v' he => he.of_grew h₁.1) fun b₂ v₂ h₂ => ?_
  have hgrew : v.Grew [b₁, b₂] v₂ := h₁.1.trans h₂.1
  have hne : b₁ ≠ b₂ := by
    have := hgrew.nodup
    simpa using this
  rw [wp_bind, wp_writeNode, wp_bind, wp_writeNode, wp_pure]
  refine ⟨b₁, b₂, rfl, (hgrew.write (by simp) (.node n₁)).write (by simp) (.node n₂), ?_, ?_⟩
  · show update (update v₂.blocks b₁ _) b₂ _ b₁ = _
    rw [update_of_ne hne, update_self]
  · exact update_self ..

theorem wp_readNode {block : Nat} {n : Node} (h : v.blocks block = .node n)
    {Q : Node → Vol → Prop} (hQ : Q n v) : wp (readNode block) Q E v := by
  unfold wp readNode
  rw [h]
  exact hQ

theorem wp_readInternal {block : Nat} {nd : Internal}
    (h : v.blocks block = .node (.internal nd)) {Q : Internal → Vol → Prop} (hQ : Q nd v) :
    wp (readInternal block) Q E v :=
  (wp_bind _ _).mpr (wp_readNode h hQ)

end BTree

end NopeekOS.Storage
