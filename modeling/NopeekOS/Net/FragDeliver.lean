import NopeekOS.Net.FragRun

/-!
# The fragments of a datagram

A datagram is cut into fragments on 8-byte boundaries (`Cut`, `FragmentOf`). A queue that has
some of its pieces and nothing else (`Collecting`) takes every other fragment of it in, drops
a duplicate alone, is whole when all pieces are there and not before
(`Collecting.whole_iff`), and then gives the datagram back as it was sent
(`Collecting.reasm`).
-/

namespace NopeekOS.Net

open Lib List

/-! ## Datagrams and their fragments -/

/-- A datagram as its sender made it: not a fragment, with its checksum in place. -/
structure Datagram where
  header : List Byte
  payload : List Byte
  ihl : ihlOf header = header.length
  min : 20 ≤ header.length
  len : field16 header 2 = header.length + payload.length
  pos : 0 < payload.length
  flags : byteAt header 6 = 0 ∧ byteAt header 7 = 0
  check : (header.set 10 (beBytes (checkOf header)).1).set 11 (beBytes (checkOf header)).2 = header

namespace Datagram

def bytes (dg : Datagram) : List Byte := dg.header ++ dg.payload

def key (dg : Datagram) : Nat := keyOf dg.header

end Datagram

/-- The pieces a datagram is cut into. -/
structure Cut (dg : Datagram) where
  pieces : List (Nat × List Byte)
  tiles : Tiles 0 dg.payload.length pieces
  data : pieces.flatMap Prod.snd = dg.payload
  pos : ∀ p ∈ pieces, 0 < p.2.length
  aligned : ∀ p ∈ pieces, p.1 % 8 = 0

/-- The fragment `f` carries the piece `p` of the datagram. The one at offset 0 has its
header, but for length, flags and checksum. -/
structure FragmentOf (dg : Datagram) (p : Nat × List Byte) (f : Fragment) : Prop where
  key : f.key = dg.key
  piece : f.piece = p
  tos : byteAt f.ip 1 = byteAt dg.header 1
  more : mfOf f.ip = true ↔ p.1 + p.2.length ≠ dg.payload.length
  ihl : p.1 = 0 → ihlOf f.ip = dg.header.length
  head : p.1 = 0 → ∀ i, i < dg.header.length → i ≠ 2 → i ≠ 3 → i ≠ 6 → i ≠ 7 → i ≠ 10 → i ≠ 11 →
    byteAt f.ip i = byteAt dg.header i

/-! ## Tilings -/

section Tilings

variable {lo hi : Nat} {ps : List (Nat × List Byte)} (h : Tiles lo hi ps)

include h

theorem Tiles.sum : lo + bytesOf ps = hi := by
  induction ps generalizing lo with
  | nil => exact h
  | cons p ps ih =>
    have := ih h.2
    rw [bytesOf_cons]
    omega

theorem Tiles.le : ∀ p ∈ ps, lo ≤ p.1 ∧ p.1 + p.2.length ≤ hi := by
  induction ps generalizing lo with
  | nil => simp
  | cons p ps ih =>
    have hsum := h.sum
    rw [bytesOf_cons] at hsum
    have hp : p.1 = lo := h.1
    intro q hq
    rcases mem_cons.mp hq with rfl | hq
    · omega
    · have := ih h.2 q hq
      omega

theorem Tiles.apart : ps.Pairwise fun a b => a.1 + a.2.length ≤ b.1 := by
  induction ps generalizing lo with
  | nil => exact .nil
  | cons p ps ih =>
    refine pairwise_cons.mpr ⟨fun q hq => ?_, ih h.2⟩
    have hp : p.1 = lo := h.1
    rw [hp]
    exact (h.2.le q hq).1

theorem Tiles.ascending (hpos : ∀ p ∈ ps, 0 < p.2.length) : Ascending ps := by
  refine (List.Pairwise.and_mem.mp h.apart).imp ?_
  rintro a b ⟨ha, -, hab⟩
  have := hpos a ha
  omega

/-- There is a piece at every offset. -/
theorem Tiles.exists_mem {x : Nat} (hlo : lo ≤ x) (hhi : x < hi) :
    ∃ p ∈ ps, p.1 ≤ x ∧ x < p.1 + p.2.length := by
  induction ps generalizing lo with
  | nil =>
    have : lo = hi := h
    omega
  | cons p ps ih =>
    obtain ⟨hp, hrest⟩ := h
    by_cases hx : x < lo + p.2.length
    · exact ⟨p, mem_cons_self, by omega, by omega⟩
    · obtain ⟨q, hq, hin⟩ := ih hrest (Nat.not_lt.mp hx)
      exact ⟨q, mem_cons_of_mem _ hq, hin⟩

end Tilings

namespace Cut

variable {dg : Datagram} (cut : Cut dg)

/-- Two pieces are the same or do not overlap. -/
theorem apart {p q : Nat × List Byte} (hp : p ∈ cut.pieces) (hq : q ∈ cut.pieces) (hne : p ≠ q) :
    p.1 + p.2.length ≤ q.1 ∨ q.1 + q.2.length ≤ p.1 := by
  have : Std.Symm fun a b : Nat × List Byte =>
      a.1 + a.2.length ≤ b.1 ∨ b.1 + b.2.length ≤ a.1 := ⟨fun _ _ => Or.symm⟩
  have hapart : cut.pieces.Pairwise fun a b =>
      a.1 + a.2.length ≤ b.1 ∨ b.1 + b.2.length ≤ a.1 := cut.tiles.apart.imp Or.inl
  exact hapart.forall hp hq hne

/-- There is a piece at offset 0. -/
theorem exists_first : ∃ p ∈ cut.pieces, p.1 = 0 := by
  obtain ⟨p, hp, hle, -⟩ := cut.tiles.exists_mem (Nat.le_refl 0) dg.pos
  exact ⟨p, hp, Nat.le_zero.mp hle⟩

/-- There is a piece that ends with the datagram. -/
theorem exists_last : ∃ p ∈ cut.pieces, p.1 + p.2.length = dg.payload.length := by
  have hpos := dg.pos
  obtain ⟨p, hp, -, hlt⟩ := cut.tiles.exists_mem (x := dg.payload.length - 1) (Nat.zero_le _)
    (by omega)
  have hle := (cut.tiles.le p hp).2
  exact ⟨p, hp, by omega⟩

end Cut

namespace FragmentOf

variable {dg : Datagram} {p : Nat × List Byte} {f : Fragment} (h : FragmentOf dg p f)

include h

theorem offset : offsetOf f.ip = p.1 := congrArg Prod.fst h.piece

theorem data : dataOf f.ip = p.2 := congrArg Prod.snd h.piece

theorem last : endOf f.ip = p.1 + p.2.length := by
  have hlen := f.length_data
  have hle := f.offset_le_end
  rw [h.data, h.offset] at hlen
  rw [h.offset] at hle
  omega

end FragmentOf

/-! ## The header as it was sent -/

theorem ext_byteAt {l l' : List Byte} (hlen : l.length = l'.length)
    (h : ∀ i, i < l.length → byteAt l i = byteAt l' i) : l = l' := by
  refine ext_getElem hlen fun i hi hi' => ?_
  have := h i hi
  unfold byteAt at this
  rwa [getD_eq_getElem?_getD, getD_eq_getElem?_getD, getElem?_eq_getElem hi,
    getElem?_eq_getElem hi'] at this

theorem byteAt_take {l : List Byte} {n i : Nat} (hi : i < n) :
    byteAt (l.take n) i = byteAt l i := by
  unfold byteAt
  rw [getD_eq_getElem?_getD, getD_eq_getElem?_getD, getElem?_take_of_lt hi]

/-- Of two headers that differ in the checksum only, a new checksum makes the same. -/
theorem set_check_eq {h h' : List Byte} (hlen : h.length = h'.length)
    (hsame : ∀ i, i < h.length → i ≠ 10 → i ≠ 11 → byteAt h i = byteAt h' i) (a b : Byte) :
    (h.set 10 a).set 11 b = (h'.set 10 a).set 11 b := by
  refine ext_byteAt (by simp [hlen]) fun i hi => ?_
  rw [length_set, length_set] at hi
  simp only [byteAt_set, length_set, hlen]
  split_ifs with h11 h10
  · rfl
  · rfl
  · exact hsame i hi (fun heq => h10 ⟨heq.symm, by omega⟩) fun heq => h11 ⟨heq.symm, by omega⟩

/-- The bytes of a length that a 16-bit field has. -/
theorem beBytes_be16 (a b : Byte) : beBytes (be16 a b) = (a, b) := by
  have ha := a.isLt
  have hb := b.isLt
  unfold beBytes be16
  refine Prod.ext (BitVec.eq_of_toNat_eq ?_) (BitVec.eq_of_toNat_eq ?_)
  · simp only [BitVec.toNat_ofNat]
    omega
  · simp only [BitVec.toNat_ofNat]
    omega

/-- **The header comes back** from that of fragment 0, if the ECN field agrees. -/
theorem FragmentOf.wholeHeader_eq {dg : Datagram} {p : Nat × List Byte} {f : Fragment}
    (h : FragmentOf dg p f) (hzero : p.1 = 0) {ecn : Byte}
    (hecn : byteAt dg.header 1 ||| ecn = byteAt dg.header 1) :
    wholeHeader f.head ecn (dg.header.length + dg.payload.length) = dg.header := by
  have hihl := h.ihl hzero
  have hlen : f.head.length = dg.header.length := f.length_head.trans hihl
  set fields := headerFields f.head ecn (dg.header.length + dg.payload.length) with hdef
  have hfields : fields.length = dg.header.length := by simp [hdef, headerFields, hlen]
  have hbyte (i : Nat) (hi : i < dg.header.length) : byteAt f.head i = byteAt f.ip i :=
    byteAt_take (hihl ▸ hi)
  have hbytes := beBytes_be16 (byteAt dg.header 2) (byteAt dg.header 3)
  rw [show be16 (byteAt dg.header 2) (byteAt dg.header 3) = dg.header.length + dg.payload.length
    from dg.len] at hbytes
  -- Outside of the checksum the fields are those of the datagram.
  have hsame : ∀ i, i < fields.length → i ≠ 10 → i ≠ 11 →
      byteAt fields i = byteAt dg.header i := by
    intro i hi h10 h11
    rw [hfields] at hi
    rw [hdef, headerFields]
    simp only [byteAt_set, length_set, hlen, hbytes]
    split_ifs with h7 h6 h3 h2 h1
    · rw [← h7.1, dg.flags.2]
    · rw [← h6.1, dg.flags.1]
    · rw [h3.1]
    · rw [h2.1]
    · rw [hbyte 1 h1.2, h.tos, hecn, h1.1]
    · rw [hbyte i hi]
      have hne {k : Nat} (hk : ¬ (k = i ∧ k < dg.header.length)) : i ≠ k :=
        fun heq => hk ⟨heq.symm, heq ▸ hi⟩
      exact h.head hzero i hi (hne h2) (hne h3) (hne h6) (hne h7) h10 h11
  have hset (a b : Byte) := set_check_eq hfields hsame a b
  rw [NopeekOS.Net.wholeHeader_eq, ← hdef]
  have hcheck : checkOf fields = checkOf dg.header := by
    unfold checkOf
    rw [hset]
  rw [hcheck, hset]
  exact dg.check

/-- The ECN bits of fragments that all have the same field. -/
theorem ecnBits_uniform {L : List Fragment} {tos : Byte} (hL : L ≠ [])
    (htos : ∀ f ∈ L, byteAt f.ip 1 = tos) : Queue.ecnBits L = fragEcn tos := by
  have haux : ∀ (L : List Fragment) (e : Byte), (∀ f ∈ L, byteAt f.ip 1 = tos) →
      e = 0 ∧ L ≠ [] ∨ e = fragEcn tos →
      L.foldl (fun e f => e ||| fragEcn (byteAt f.ip 1)) e = fragEcn tos := by
    intro L
    induction L with
    | nil =>
      rintro e - (⟨-, h⟩ | h)
      · exact absurd rfl h
      · exact h
    | cons f L ih =>
      intro e htos he
      rw [foldl_cons, htos f mem_cons_self]
      refine ih _ (fun g hg => htos g (mem_cons_of_mem _ hg)) (.inr ?_)
      rcases he with ⟨rfl, -⟩ | rfl
      · exact BitVec.zero_or
      · exact BitVec.or_self
  exact haux L 0 htos (.inl ⟨rfl, hL⟩)

/-- Fragments of one ECN field keep it. -/
theorem ecnOf_fragEcn (tos : Byte) : ∃ ecn, ecnOf (fragEcn tos) = some ecn ∧ tos ||| ecn = tos := by
  have hall : ∀ tos : Byte, ecnOf (fragEcn tos) = some (if tos.toNat % 4 = 3 then 3#8 else 0#8) ∧
      tos ||| (if tos.toNat % 4 = 3 then 3#8 else 0#8) = tos := by decide +kernel
  exact ⟨_, hall tos⟩

/-! ## A queue on its way -/

/-- The fragments `L` of the queue are those of the pieces `got`, and its length and last
flag are what these say. -/
structure Collecting {dg : Datagram} (cut : Cut dg) (q : Queue) (L : List Fragment)
    (got : List (Nat × List Byte)) : Prop where
  of : ∀ f ∈ L, ∃ p ∈ cut.pieces, FragmentOf dg p f
  mem : ∀ p, p ∈ L.map Fragment.piece ↔ p ∈ got
  len : q.len ≤ dg.payload.length
  last : q.lastIn = true ↔ ∃ p ∈ got, p.1 + p.2.length = dg.payload.length
  lastLen : q.lastIn = true → q.len = dg.payload.length

/-- The queue `q₁` is `q` with the length that the piece `p` says. -/
structure Lengthened (dg : Datagram) (p : Nat × List Byte) (q q₁ : Queue) : Prop where
  len : q₁.len ≤ dg.payload.length
  last : q₁.lastIn = true ↔ q.lastIn = true ∨ p.1 + p.2.length = dg.payload.length
  lastLen : q₁.lastIn = true → q₁.len = dg.payload.length

namespace Collecting

variable {dg : Datagram} {cut : Cut dg} {q q₁ : Queue} {L : List Fragment} {d : Defrag}
  {got : List (Nat × List Byte)} {p : Nat × List Byte} {f : Fragment}

theorem fresh (cut : Cut dg) (rid expires : Nat) : Collecting cut (Queue.fresh rid expires) [] [] where
  of := by simp
  mem := by simp
  len := Nat.zero_le _
  last := by simp [Queue.fresh]
  lastLen := by simp [Queue.fresh]

section

variable (h : Collecting cut q L got)

include h

theorem subset : ∀ p ∈ got, p ∈ cut.pieces := by
  intro p hp
  obtain ⟨f, hf, rfl⟩ := mem_map.mp ((h.mem p).mpr hp)
  obtain ⟨r, hr, hof⟩ := h.of f hf
  rw [hof.piece]
  exact hr

/-- The pieces are in the map of the queue. -/
theorem mem_frags (hq : q.Holds L) (p : Nat × List Byte) : p ∈ q.frags ↔ p ∈ got := by
  rw [hq.frags.mem_iff]
  exact h.mem p

/-- **No fragment of the datagram contradicts the length.** -/
theorem takeLen (hp : p ∈ cut.pieces) (hf : FragmentOf dg p f) :
    ∃ q₁, q.takeLen (endOf f.ip) (mfOf f.ip) = some q₁ ∧ Lengthened dg p q q₁ := by
  have hle := (cut.tiles.le p hp).2
  have hlen := h.len
  rw [hf.last]
  unfold Queue.takeLen
  by_cases hlast : p.1 + p.2.length = dg.payload.length
  · -- The last fragment sets length and flag.
    have hmf : mfOf f.ip = false := by
      rw [← Bool.not_eq_true, hf.more]
      exact fun hne => hne hlast
    rw [hmf, hlast, Bool.not_false, if_pos rfl, if_neg]
    · exact ⟨_, rfl, Nat.le_refl _, by simp [hlast], fun _ => rfl⟩
    · simp only [Bool.or_eq_true, decide_eq_true_eq, Bool.and_eq_true, bne_iff_ne, not_or, not_and,
        not_not]
      exact ⟨by omega, fun hin => (h.lastLen hin).symm⟩
  · have hmf : mfOf f.ip = true := hf.more.mpr hlast
    rw [hmf, Bool.not_true, if_neg Bool.false_ne_true]
    split
    · rename_i hgrow
      -- The length grows only while the last fragment is missing.
      have hnot : q.lastIn = false := by
        rw [← Bool.not_eq_true]
        intro hin
        have := h.lastLen hin
        omega
      rw [if_neg (by rw [hnot]; exact Bool.false_ne_true)]
      refine ⟨_, rfl, hle, ?_, fun hin => ?_⟩
      · simp [hnot, hlast]
      · exact absurd hin (by simp [hnot])
    · exact ⟨q, rfl, hlen, by simp [hlast], h.lastLen⟩

/-- The queue with its length taken. -/
theorem withLen (hlen : Lengthened dg p q q₁) (hmem : p ∈ got) :
    Collecting cut q₁ L (p :: got) := by
  refine ⟨h.of, fun r => (h.mem r).trans ?_, hlen.len, hlen.last.trans ?_, hlen.lastLen⟩
  · rw [mem_cons]
    exact ⟨.inr, fun hr => hr.elim (fun heq => heq ▸ hmem) id⟩
  · rw [h.last, exists_mem_cons_iff]
    exact Or.comm

/-- A piece that is new overlaps nothing. -/
theorem overlapped_new (hq : q.Holds L) (hp : p ∈ cut.pieces) (hnew : p ∉ got) :
    (q.overlapped p.1 (p.1 + p.2.length)).isEmpty := by
  rw [List.isEmpty_iff]
  refine filter_eq_nil_iff.mpr fun r hr => ?_
  have hgot := (h.mem_frags hq r).mp hr
  have hne : r ≠ p := fun heq => hnew (heq ▸ hgot)
  simp only [Bool.and_eq_true, decide_eq_true_eq, not_and, Nat.not_lt]
  rcases cut.apart (h.subset r hgot) hp hne with h | h <;> omega

/-- A piece that is there overlaps itself only. -/
theorem overlapped_dup (hq : q.Holds L) (hmem : p ∈ got) :
    q.overlapped p.1 (p.1 + p.2.length) = [p] := by
  have hp := h.subset p hmem
  have hpos := cut.pos p hp
  refine perm_singleton.mp ((perm_ext_iff_of_nodup (hq.asc.nodup.filter _)
    (nodup_singleton p)).mpr fun r => ?_)
  simp only [mem_filter, Bool.and_eq_true, decide_eq_true_eq, mem_singleton]
  constructor
  · rintro ⟨hr, hlt, hgt⟩
    by_contra hne
    have hgot := (h.mem_frags hq r).mp hr
    rcases cut.apart (h.subset r hgot) hp hne with h | h <;> omega
  · rintro rfl
    exact ⟨(h.mem_frags hq r).mpr hmem, by omega, by omega⟩

/-- The queue with a new piece. -/
theorem add (hp : p ∈ cut.pieces) (hf : FragmentOf dg p f) (hlen : Lengthened dg p q q₁) :
    Collecting cut (q₁.add f.ip) (L ++ [f]) (p :: got) := by
  refine ⟨forall_mem_append.mpr ⟨h.of, forall_mem_singleton.mpr ⟨p, hp, hf⟩⟩, fun r => ?_,
    hlen.len, hlen.last.trans ?_, hlen.lastLen⟩
  · rw [map_append, mem_append, h.mem, map_singleton, mem_singleton, hf.piece,
      mem_cons]
    exact Or.comm
  · rw [h.last, exists_mem_cons_iff]
    exact Or.comm

/-- With all pieces the queue has the cut. -/
theorem frags_eq (hq : q.Holds L) (hall : ∀ p ∈ cut.pieces, p ∈ got) : q.frags = cut.pieces :=
  hq.asc.eq_of_mem_iff (cut.tiles.ascending cut.pos) fun e =>
    (h.mem_frags hq e).trans ⟨h.subset e, hall e⟩

/-- **Whole means all pieces.** -/
theorem whole_iff (hq : q.Holds L) : q.whole = true ↔ ∀ p ∈ cut.pieces, p ∈ got := by
  have hsub := h.subset
  have hmem := h.mem_frags hq
  unfold Queue.whole
  rw [Bool.and_eq_true, Bool.and_eq_true, beq_iff_eq]
  constructor
  · rintro ⟨⟨-, hlast⟩, hmeat⟩ r hr
    by_contra hmiss
    -- The queue has a piece of the cut at the offset of the missing one.
    have hlen := h.lastLen hlast
    have hrpos := cut.pos r hr
    have hrle := (cut.tiles.le r hr).2
    obtain ⟨e, he, hlo, hhi⟩ := (hq.tiles hmeat).exists_mem (Nat.zero_le r.1) (by omega)
    have hgot := (hmem e).mp he
    have hne : e ≠ r := fun heq => hmiss (heq ▸ hgot)
    rcases cut.apart (hsub e hgot) hr hne with h | h <;> omega
  · intro hall
    have hfrags := h.frags_eq hq hall
    obtain ⟨r, hr, hrlast⟩ := cut.exists_last
    have hlast : q.lastIn = true := h.last.mpr ⟨r, hall r hr, hrlast⟩
    obtain ⟨p₀, hp₀, hzero⟩ := cut.exists_first
    obtain ⟨f, hf, hpiece⟩ := mem_map.mp ((h.mem p₀).mpr (hall p₀ hp₀))
    have hoffset : offsetOf f.ip = 0 := (congrArg Prod.fst hpiece).trans hzero
    refine ⟨⟨hq.hasHead f hf hoffset, hlast⟩, ?_⟩
    rw [hq.meat, hfrags, h.lastLen hlast]
    exact (Nat.zero_add _).symm.trans cut.tiles.sum

/-- **The datagram comes back** from a whole queue. -/
theorem reasm (hq : q.Holds L) (hwhole : q.whole = true) (d : Defrag) (key : Nat) :
    (d.reasm key q).1 = .complete dg.bytes := by
  have hall := (h.whole_iff hq).mp hwhole
  have hfrags := h.frags_eq hq hall
  simp only [Queue.whole, Bool.and_eq_true, beq_iff_eq] at hwhole
  obtain ⟨⟨hsome, hlast⟩, -⟩ := hwhole
  obtain ⟨head, hhead⟩ := Option.isSome_iff_exists.mp hsome
  obtain ⟨f, hf, hoffset, rfl⟩ := hq.head head hhead
  obtain ⟨p, hp, hof⟩ := h.of f hf
  have hzero : p.1 = 0 := hof.offset.symm.trans hoffset
  have hlen : q.len = dg.payload.length := h.lastLen hlast
  have hheadlen : f.head.length = dg.header.length := f.length_head.trans (hof.ihl hzero)
  -- All fragments have the datagram's ECN field.
  obtain ⟨ecn, hecn, hor⟩ := ecnOf_fragEcn (byteAt dg.header 1)
  have hbits : q.ecn = fragEcn (byteAt dg.header 1) := by
    rw [hq.ecn]
    refine ecnBits_uniform (ne_nil_of_mem hf) fun g hg => ?_
    obtain ⟨r, -, hg⟩ := h.of g hg
    exact hg.tos
  have hmin := dg.min
  have htotal : dg.header.length + dg.payload.length ≤ 65535 := by
    rw [← dg.len]
    exact Nat.le_of_lt_succ (be16_lt _ _)
  unfold Defrag.reasm
  rw [hhead, hbits, hecn, Option.getD_some]
  dsimp only
  rw [hheadlen, hlen, if_neg (Nat.not_lt.mpr htotal), q.datagram_eq (by omega) ecn, hheadlen, hlen,
    hof.wholeHeader_eq hzero hor, hfrags, cut.data]
  rfl

end

/-! ## One fragment of the datagram -/

/-- **A fragment of the datagram** at the queue `q` that has the pieces `got`: the last
missing one completes it, and otherwise the queue has the pieces `p :: got`. -/
theorem fragQueue (h : Collecting cut q L got) (hq : q.Holds L) (hasc : Ascending d.queues)
    (hp : p ∈ cut.pieces) (hf : FragmentOf dg p f) (hmiss : ¬ ∀ r ∈ cut.pieces, r ∈ got) :
    if ∀ r ∈ cut.pieces, r ∈ p :: got then
      (d.fragQueue dg.key q f.ip).1 = .complete dg.bytes ∧
        getKey dg.key (d.fragQueue dg.key q f.ip).2.queues = none
    else
      (∀ out, (d.fragQueue dg.key q f.ip).1 ≠ .complete out) ∧
        ∃ q' L', getKey dg.key (d.fragQueue dg.key q f.ip).2.queues = some q' ∧ q'.Holds L' ∧
          Collecting cut q' L' (p :: got) ∧ q'.rid = q.rid ∧ q'.expires = q.expires := by
  obtain ⟨q₁, htake, hlen⟩ := h.takeLen hp hf
  have hq₁ := hq.takeLen htake
  obtain ⟨heq, -, hcover⟩ := Queue.takeLen_eq_some htake
  have hpos := cut.pos p hp
  have hend := hf.last
  have hne : endOf f.ip ≠ offsetOf f.ip := by
    rw [hend, hf.offset]
    omega
  have hfrags : q₁.frags = q.frags := by rw [heq]
  have hrid : q₁.rid = q.rid ∧ q₁.expires = q.expires := by
    rw [heq]
    exact ⟨rfl, rfl⟩
  have hhit : q₁.overlapped (offsetOf f.ip) (endOf f.ip) = q.overlapped p.1 (p.1 + p.2.length) := by
    rw [hend, hf.offset]
    unfold Queue.overlapped
    rw [hfrags]
  by_cases hdup : p ∈ got
  · -- A duplicate is dropped alone.
    have hnot : ¬ ∀ r ∈ cut.pieces, r ∈ p :: got := fun hall => hmiss fun r hr =>
      (mem_cons.mp (hall r hr)).elim (fun heq => heq ▸ hdup) id
    have hcov : Queue.covered [p] (offsetOf f.ip) (endOf f.ip) = endOf f.ip - offsetOf f.ip := by
      rw [hend, hf.offset]
      simp [Queue.covered]
    have hrun : d.fragQueue dg.key q f.ip =
        (.dropped, { d with queues := insertKey dg.key q₁ d.queues }) := by
      unfold Defrag.fragQueue
      dsimp only
      rw [htake]
      dsimp only
      rw [if_neg hne, hhit, h.overlapped_dup hq hdup,
        if_pos (show (!([p] : List (Nat × List Byte)).isEmpty) = true from rfl), if_pos hcov]
    rw [if_neg hnot, hrun]
    refine ⟨by simp, q₁, L, (getKey_insertKey hasc _).trans (if_pos rfl), hq₁, ?_, hrid⟩
    exact h.withLen hlen hdup
  · -- A new piece is taken in.
    have hfree : (q₁.overlapped (offsetOf f.ip) (endOf f.ip)).isEmpty := by
      rw [hhit]
      exact h.overlapped_new hq hp hdup
    have hadd := hq₁.add f hcover hne hfree
    have hcol := h.add hp hf hlen
    have hwhole := hcol.whole_iff hadd
    obtain ⟨d', hqueues, hrun⟩ : ∃ d', d'.queues = insertKey dg.key (q₁.add f.ip) d.queues ∧
        d.fragQueue dg.key q f.ip = if (q₁.add f.ip).whole then d'.reasm dg.key (q₁.add f.ip)
          else (.pending, d') := by
      unfold Defrag.fragQueue
      dsimp only
      rw [htake]
      dsimp only
      rw [if_neg hne, hfree, Bool.not_true, if_neg Bool.false_ne_true]
      exact ⟨_, rfl, rfl⟩
    have hasc' : Ascending d'.queues := hqueues ▸ hasc.insertKey _ _
    rw [hrun]
    split
    · rename_i hall
      have hw := hwhole.mpr hall
      rw [if_pos hw]
      refine ⟨hcol.reasm hadd hw d' dg.key, ?_⟩
      unfold Defrag.reasm
      dsimp only
      split
      · exact (getKey_eraseKey hasc' _).trans (if_pos rfl)
      · split <;> exact (getKey_eraseKey hasc' _).trans (if_pos rfl)
    · rename_i hall
      rw [if_neg fun hw => hall (hwhole.mp hw)]
      refine ⟨by simp, q₁.add f.ip, L ++ [f], ?_, hadd, hcol, hrid⟩
      rw [hqueues]
      exact (getKey_insertKey hasc _).trans (if_pos rfl)

end Collecting

end NopeekOS.Net
