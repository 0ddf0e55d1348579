import Mathlib

/-!
# Separator chains

The children of a search-tree node with separators: child `i` holds what lies
between separator `i - 1` and separator `i`. `P lo hi c es rs` is what is known
about one child: `c` holds the entries `es`, all within `[lo, hi)`, on the
resources `rs`. `Segment` is a run of children each closed by its separator,
`Chain` a segment followed by the last child.

Separators are strictly ascending, so the position of a new one is determined by
its value. A child's bounds may be wider than its entries need: removing a child
widens its neighbour's.
-/

namespace NopeekOS.Lib

open List

variable {ι ε ρ : Type*}

section

variable (P : Nat → Nat → ι → List ε → List ρ → Prop)

/-- Children from `lo` up to the last separator `m`. -/
def Segment : Nat → List (Nat × ι) → Nat → List ε → List ρ → Prop
  | lo, [], m, es, rs => m = lo ∧ es = [] ∧ rs = []
  | lo, (k, c) :: rest, m, es, rs => ∃ e₁ e₂ r₁ r₂, lo < k ∧ P lo k c e₁ r₁ ∧
      Segment k rest m e₂ r₂ ∧ es = e₁ ++ e₂ ∧ rs = r₁ ++ r₂

/-- Children from `lo` to `hi`, the last one without a separator of its own. -/
def Chain (lo hi : Nat) (kcs : List (Nat × ι)) (right : ι) (es : List ε) (rs : List ρ) : Prop :=
  ∃ m e₁ e₂ r₁ r₂, Segment P lo kcs m e₁ r₁ ∧ P m hi right e₂ r₂ ∧ es = e₁ ++ e₂ ∧ rs = r₁ ++ r₂

end

variable {P P' : Nat → Nat → ι → List ε → List ρ → Prop}
variable {lo hi m : Nat} {L R : List (Nat × ι)} {right : ι} {es : List ε} {rs : List ρ}

theorem Segment.nil (lo : Nat) : Segment P lo [] lo [] [] := ⟨rfl, rfl, rfl⟩

variable {k : Nat} {c : ι} {e₁ e₂ : List ε} {r₁ r₂ : List ρ}

theorem Segment.cons (hlt : lo < k) (hc : P lo k c e₁ r₁) (h : Segment P k L m e₂ r₂) :
    Segment P lo ((k, c) :: L) m (e₁ ++ e₂) (r₁ ++ r₂) :=
  ⟨e₁, e₂, r₁, r₂, hlt, hc, h, rfl, rfl⟩

/-- Induction over the children of a segment. -/
theorem Segment.ind
    {motive : ∀ lo L es rs, Segment P lo L m es rs → Prop} (nil : motive _ _ _ _ (.nil m))
    (cons : ∀ {lo k c L e₁ e₂ r₁ r₂} (hlt : lo < k) (hc : P lo k c e₁ r₁)
      (h : Segment P k L m e₂ r₂), motive _ _ _ _ h → motive _ _ _ _ (.cons hlt hc h)) :
    ∀ {lo L es rs} (h : Segment P lo L m es rs), motive _ _ _ _ h
  | _, [], _, _, ⟨rfl, rfl, rfl⟩ => nil
  | _, _ :: _, _, _, ⟨_, _, _, _, hlt, hc, h, rfl, rfl⟩ => cons hlt hc h (h.ind nil cons)

variable {mid : Nat}

theorem Segment.append (h₁ : Segment P lo L mid e₁ r₁) (h₂ : Segment P mid R m e₂ r₂) :
    Segment P lo (L ++ R) m (e₁ ++ e₂) (r₁ ++ r₂) := by
  induction h₁ using Segment.ind with
  | nil => exact h₂
  | cons hlt hc _ ih =>
    rw [append_assoc, append_assoc]
    exact .cons hlt hc ih

theorem Segment.split : ∀ {lo : Nat} {L : List (Nat × ι)} {es : List ε} {rs : List ρ},
      Segment P lo (L ++ R) m es rs →
      ∃ mid e₁ e₂ r₁ r₂, Segment P lo L mid e₁ r₁ ∧ Segment P mid R m e₂ r₂ ∧
        es = e₁ ++ e₂ ∧ rs = r₁ ++ r₂
  | lo, [], es, rs, h => ⟨lo, [], es, [], rs, .nil lo, h, rfl, rfl⟩
  | _, (k, c) :: L, _, _, ⟨f₁, f₂, s₁, s₂, hlt, hc, h, rfl, rfl⟩ => by
    obtain ⟨mid, e₁, e₂, r₁, r₂, h₁, h₂, rfl, rfl⟩ := h.split
    exact ⟨mid, f₁ ++ e₁, e₂, s₁ ++ r₁, r₂, .cons hlt hc h₁, h₂, by simp, by simp⟩

/-- A chain is a segment with the last child. -/
theorem Segment.chain (h : Segment P lo L m e₁ r₁) (hright : P m hi right e₂ r₂) :
    Chain P lo hi L right (e₁ ++ e₂) (r₁ ++ r₂) :=
  ⟨m, e₁, e₂, r₁, r₂, h, hright, rfl, rfl⟩

theorem Segment.append_chain (h : Segment P lo L mid e₁ r₁) (hc : Chain P mid hi R right e₂ r₂) :
    Chain P lo hi (L ++ R) right (e₁ ++ e₂) (r₁ ++ r₂) := by
  obtain ⟨m, f₁, f₂, s₁, s₂, hR, hright, rfl, rfl⟩ := hc
  rw [← append_assoc, ← append_assoc]
  exact (h.append hR).chain hright

/-- Cutting a chain before a child. -/
theorem Chain.split (h : Chain P lo hi (L ++ R) right es rs) :
    ∃ mid e₁ e₂ r₁ r₂, Segment P lo L mid e₁ r₁ ∧ Chain P mid hi R right e₂ r₂ ∧
      es = e₁ ++ e₂ ∧ rs = r₁ ++ r₂ := by
  obtain ⟨m, f₁, f₂, s₁, s₂, hseg, hright, rfl, rfl⟩ := h
  obtain ⟨mid, e₁, e₂, r₁, r₂, h₁, h₂, rfl, rfl⟩ := hseg.split
  exact ⟨mid, e₁, e₂ ++ f₂, r₁, r₂ ++ s₂, h₁, h₂.chain hright, by simp, by simp⟩

theorem Chain.nil_iff : Chain P lo hi [] right es rs ↔ P lo hi right es rs := by
  constructor
  · rintro ⟨_, _, _, _, _, ⟨rfl, rfl, rfl⟩, h, rfl, rfl⟩
    exact h
  · intro h
    exact ⟨lo, [], es, [], rs, .nil lo, h, rfl, rfl⟩

theorem Chain.cons_iff : Chain P lo hi ((k, c) :: R) right es rs ↔
      ∃ e₁ e₂ r₁ r₂, lo < k ∧ P lo k c e₁ r₁ ∧ Chain P k hi R right e₂ r₂ ∧
        es = e₁ ++ e₂ ∧ rs = r₁ ++ r₂ := by
  constructor
  · rintro ⟨m, _, f₂, _, s₂, ⟨e₁, e₂, r₁, r₂, hlt, hc, hseg, rfl, rfl⟩, hright, rfl, rfl⟩
    exact ⟨e₁, e₂ ++ f₂, r₁, r₂ ++ s₂, hlt, hc, hseg.chain hright, by simp, by simp⟩
  · rintro ⟨e₁, e₂, r₁, r₂, hlt, hc, ⟨m, f₁, f₂, s₁, s₂, hseg, hright, rfl, rfl⟩, rfl, rfl⟩
    exact ⟨m, e₁ ++ f₁, f₂, r₁ ++ s₁, s₂, .cons hlt hc hseg, hright, by simp, by simp⟩

/-! ## Separators -/

section

variable (h : Segment P lo L m es rs)

include h

theorem Segment.le : lo ≤ m := by
  induction h using Segment.ind with
  | nil => exact Nat.le_refl _
  | cons hlt _ _ ih => exact Nat.le_trans (Nat.le_of_lt hlt) ih

theorem Segment.key_bounds : ∀ s ∈ L, lo < s.1 ∧ s.1 ≤ m := by
  induction h using Segment.ind with
  | nil => exact nofun
  | cons hlt _ h ih =>
    refine forall_mem_cons.mpr ⟨⟨hlt, h.le⟩, fun s hs => ?_⟩
    have := ih s hs
    exact ⟨Nat.lt_trans hlt this.1, this.2⟩

/-- Where all separators are at most `x`, so is the last one. -/
theorem Segment.le_of_keys_le {x : Nat} (hlo : lo ≤ x) (hkeys : ∀ s ∈ L, s.1 ≤ x) : m ≤ x := by
  induction h using Segment.ind with
  | nil => exact hlo
  | cons _ _ _ ih =>
    obtain ⟨hk, hkeys⟩ := forall_mem_cons.mp hkeys
    exact ih hk hkeys

end

theorem Chain.key_gt (h : Chain P lo hi L right es rs) : ∀ s ∈ L, lo < s.1 := by
  obtain ⟨m, _, _, _, _, hseg, -, -, -⟩ := h
  exact fun s hs => (hseg.key_bounds s hs).1

/-- Cutting a chain at a separator: the child before it closes the left part. -/
theorem Chain.cut (h : Chain P lo hi (L ++ (k, c) :: R) right es rs) :
    ∃ e₁ e₂ r₁ r₂, Chain P lo k L c e₁ r₁ ∧ Chain P k hi R right e₂ r₂ ∧
      es = e₁ ++ e₂ ∧ rs = r₁ ++ r₂ := by
  obtain ⟨mid, e₁, _, r₁, _, hseg, hrest, rfl, rfl⟩ := h.split
  obtain ⟨f₁, f₂, s₁, s₂, -, hc, hR, rfl, rfl⟩ := Chain.cons_iff.mp hrest
  exact ⟨e₁ ++ f₁, f₂, r₁ ++ s₁, s₂, hseg.chain hc, hR, by simp, by simp⟩

theorem Chain.lt (hP : ∀ a b c e r, P a b c e r → a < b) (h : Chain P lo hi L right es rs) :
    lo < hi := by
  obtain ⟨m, _, _, _, _, hseg, hright, -, -⟩ := h
  exact Nat.lt_of_le_of_lt hseg.le (hP _ _ _ _ _ hright)

/-! ## Changing the children's predicate and the bounds -/

/-- Replace `P` by a predicate that follows from it on these resources. -/
theorem Segment.imp (h : Segment P lo L m es rs)
    (himp : ∀ a b c e r, (∀ x ∈ r, x ∈ rs) → P a b c e r → P' a b c e r) :
    Segment P' lo L m es rs := by
  induction h using Segment.ind with
  | nil => exact .nil m
  | cons hlt hc _ ih =>
    refine .cons hlt (himp _ _ _ _ _ (fun _ hx => mem_append_left _ hx) hc) (ih ?_)
    exact fun _ _ _ _ _ hsub => himp _ _ _ _ _ fun x hx => mem_append_right _ (hsub x hx)

/-- What follows for every child of a chain. -/
theorem Chain.forall_child {Q : ι → Prop} (h : Chain P lo hi L right es rs)
    (hQ : ∀ a b c e r, (∀ x ∈ r, x ∈ rs) → P a b c e r → Q c) :
    ∀ c ∈ L.map Prod.snd ++ [right], Q c := by
  induction L generalizing lo es rs with
  | nil => exact forall_mem_singleton.mpr (hQ _ _ _ _ _ (fun _ hx => hx) (Chain.nil_iff.mp h))
  | cons s L ih =>
    obtain ⟨_, _, _, _, -, hc, hrest, -, rfl⟩ := Chain.cons_iff.mp h
    refine forall_mem_cons.mpr ⟨hQ _ _ _ _ _ (fun _ hx => mem_append_left _ hx) hc, ih hrest ?_⟩
    exact fun a b c e r hsub => hQ a b c e r fun x hx => mem_append_right _ (hsub x hx)

/-- How many entries a segment has, if each child has at most `n`. -/
theorem Segment.length_le {n : Nat} (hP : ∀ a b c e r, P a b c e r → e.length ≤ n)
    (h : Segment P lo L m es rs) : es.length ≤ L.length * n := by
  induction h using Segment.ind with
  | nil => exact Nat.zero_le _
  | cons _ hc _ ih =>
    have := hP _ _ _ _ _ hc
    rw [length_append, length_cons, Nat.succ_mul]
    omega

/-- Whose a resource of a chain is. -/
theorem Chain.exists_child {x : ρ} (h : Chain P lo hi L right es rs) (hx : x ∈ rs) :
    ∃ c ∈ L.map Prod.snd ++ [right], ∃ a b e r, P a b c e r ∧ x ∈ r ∧ ∀ y ∈ r, y ∈ rs := by
  induction L generalizing lo es rs with
  | nil => exact ⟨right, mem_cons_self, _, _, _, _, Chain.nil_iff.mp h, hx, fun _ hy => hy⟩
  | cons s L ih =>
    obtain ⟨_, _, _, _, -, hc, hrest, -, rfl⟩ := Chain.cons_iff.mp h
    rcases mem_append.mp hx with hx | hx
    · exact ⟨_, mem_cons_self, _, _, _, _, hc, hx, fun y => mem_append_left _⟩
    · obtain ⟨c, hmem, a, b, e, r, hP, hx, hsub⟩ := ih hrest hx
      exact ⟨c, mem_cons_of_mem _ hmem, a, b, e, r, hP, hx,
        fun y hy => mem_append_right _ (hsub y hy)⟩

theorem Chain.imp (h : Chain P lo hi L right es rs)
    (himp : ∀ a b c e r, (∀ x ∈ r, x ∈ rs) → P a b c e r → P' a b c e r) :
    Chain P' lo hi L right es rs := by
  obtain ⟨m, e₁, e₂, r₁, r₂, hseg, hright, rfl, rfl⟩ := h
  refine Segment.chain (hseg.imp fun a b c e r hsub => ?_) ?_
  · exact himp a b c e r fun x hx => mem_append_left _ (hsub x hx)
  · exact himp _ _ _ _ _ (fun x hx => mem_append_right _ hx) hright

/-- Wider bounds. -/
theorem Chain.widen {lo' hi' : Nat}
    (hP : ∀ a b a' b' c e r, a' ≤ a → b ≤ b' → P a b c e r → P a' b' c e r)
    (h : Chain P lo hi L right es rs) (hlo : lo' ≤ lo) (hhi : hi ≤ hi') :
    Chain P lo' hi' L right es rs := by
  cases L with
  | nil => exact Chain.nil_iff.mpr (hP _ _ _ _ _ _ _ hlo hhi (Chain.nil_iff.mp h))
  | cons s L =>
    obtain ⟨m, _, e₂, _, r₂, ⟨f₁, f₂, s₁, s₂, hlt, hc, hseg, rfl, rfl⟩, hright, rfl, rfl⟩ := h
    refine Segment.chain (.cons (Nat.lt_of_le_of_lt hlo hlt) ?_ hseg) ?_
    · exact hP _ _ _ _ _ _ _ hlo (Nat.le_refl _) hc
    · exact hP _ _ _ _ _ _ _ (Nat.le_refl _) hhi hright

/-! ## Entries -/

/-- Entries sorted by `key` and within the bounds. -/
def SortedWithin (key : ε → Nat) (lo hi : Nat) (es : List ε) : Prop :=
  es.Pairwise (fun a b => key a < key b) ∧ ∀ e ∈ es, lo ≤ key e ∧ key e < hi

variable {key : ε → Nat}

theorem SortedWithin.append (hlo : lo ≤ mid) (hhi : mid ≤ hi) (h₁ : SortedWithin key lo mid e₁)
    (h₂ : SortedWithin key mid hi e₂) : SortedWithin key lo hi (e₁ ++ e₂) := by
  refine ⟨pairwise_append.mpr ⟨h₁.1, h₂.1, fun a ha b hb => ?_⟩, forall_mem_append.mpr ⟨?_, ?_⟩⟩
  · exact Nat.lt_of_lt_of_le (h₁.2 a ha).2 (h₂.2 b hb).1
  · exact fun e he => (h₁.2 e he).imp_right fun h => Nat.lt_of_lt_of_le h hhi
  · exact fun e he => (h₂.2 e he).imp_left (Nat.le_trans hlo)

/-- Cutting sorted entries before one of them. -/
theorem SortedWithin.cut {X Y : List ε} {e : ε} (h : SortedWithin key lo hi (X ++ e :: Y)) :
    SortedWithin key lo (key e) X ∧ SortedWithin key (key e) hi (e :: Y) := by
  obtain ⟨hX, hY, hXY⟩ := pairwise_append.mp h.1
  refine ⟨⟨hX, fun a ha => ⟨(h.2 a (mem_append_left _ ha)).1, ?_⟩⟩, hY, fun a ha => ⟨?_, ?_⟩⟩
  · exact hXY a ha e mem_cons_self
  · rcases mem_cons.mp ha with rfl | ha
    · exact Nat.le_refl _
    · exact Nat.le_of_lt ((pairwise_cons.mp hY).1 a ha)
  · exact (h.2 a (mem_append_right _ ha)).2

variable (hP : ∀ a b c e r, P a b c e r → SortedWithin key a b e)

include hP

theorem Segment.sorted (h : Segment P lo L m es rs) : SortedWithin key lo m es := by
  induction h using Segment.ind with
  | nil => exact ⟨.nil, nofun⟩
  | cons hlt hc h ih => exact (hP _ _ _ _ _ hc).append (Nat.le_of_lt hlt) h.le ih

theorem Chain.sorted (hlt : ∀ a b c e r, P a b c e r → a < b) (h : Chain P lo hi L right es rs) :
    SortedWithin key lo hi es := by
  obtain ⟨m, _, _, _, _, hseg, hright, rfl, -⟩ := h
  exact (hseg.sorted hP).append hseg.le (Nat.le_of_lt (hlt _ _ _ _ _ hright)) (hP _ _ _ _ _ hright)

end NopeekOS.Lib
