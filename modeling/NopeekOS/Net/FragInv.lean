import NopeekOS.Net.Frag

/-!
# What a reassembly queue holds

A queue is compared with the list of fragments it accepted since it was started
(`Queue.Holds`): its map has their data by offset, no two overlap, none reaches behind the
length known so far, and the counts are right. Every stage of `Defrag.input` keeps this
for the queue it works on and leaves the other queues alone, so the memory count is the
sum over all queues (`DefragInv`).

The count of bytes is enough to see that a queue is whole: fragments within `[0, len)`
that do not overlap and have `len` bytes together leave no gap (`tiles_of_sum`).
-/

namespace NopeekOS.Net

open Lib List

/-! ## Fragments -/

/-- A datagram whose header was checked: it has at least 20 bytes and lies within the
total length. -/
structure Fragment where
  ip : List Byte
  ihl : 20 ≤ ihlOf ip
  room : ihlOf ip ≤ totOf ip

namespace Fragment

variable (f : Fragment)

/-- The data with its offset. -/
def piece : Nat × List Byte := (offsetOf f.ip, dataOf f.ip)

/-- The header. -/
def head : List Byte := f.ip.take (ihlOf f.ip)

def key : Nat := keyOf f.ip

theorem offset_mod : offsetOf f.ip % 8 = 0 := by
  unfold offsetOf
  rw [Nat.shiftLeft_eq]
  omega

theorem offset_le_end : offsetOf f.ip ≤ endOf f.ip := by
  have := f.offset_mod
  unfold endOf
  dsimp only
  split <;> omega

theorem length_data : (dataOf f.ip).length = endOf f.ip - offsetOf f.ip := by
  have hroom := f.room
  have htot : totOf f.ip ≤ f.ip.length := Nat.min_le_right _ _
  have hend : endOf f.ip ≤ offsetOf f.ip + (totOf f.ip - ihlOf f.ip) := by
    unfold endOf
    dsimp only
    split <;> omega
  unfold dataOf
  rw [length_take, length_drop]
  omega

theorem length_head : f.head.length = ihlOf f.ip := by
  have hroom := f.room
  have htot : totOf f.ip ≤ f.ip.length := Nat.min_le_right _ _
  unfold head
  rw [length_take]
  omega

end Fragment

/-! ## Tilings -/

/-- The pieces follow one another from `lo` to `hi`, each at its own offset. -/
def Tiles : Nat → Nat → List (Nat × List Byte) → Prop
  | lo, hi, [] => lo = hi
  | lo, hi, p :: ps => p.1 = lo ∧ Tiles (lo + p.2.length) hi ps

/-- The bytes of the pieces. -/
def bytesOf (ps : List (Nat × List Byte)) : Nat := (ps.map fun p => p.2.length).sum

variable {lo hi : Nat} {ps : List (Nat × List Byte)}

theorem bytesOf_cons (p : Nat × List Byte) : bytesOf (p :: ps) = p.2.length + bytesOf ps := by
  rw [bytesOf, map_cons, sum_cons]
  rfl

section

variable (hapart : ps.Pairwise fun a b => a.1 + a.2.length ≤ b.1)
  (hin : ∀ p ∈ ps, lo ≤ p.1 ∧ p.1 + p.2.length ≤ hi)

include hapart hin

/-- Pieces that do not overlap have no more bytes than the space they lie in. -/
theorem bytesOf_le (hle : lo ≤ hi) : lo + bytesOf ps ≤ hi := by
  induction ps generalizing lo with
  | nil => exact hle
  | cons p ps ih =>
    obtain ⟨hlater, hrest⟩ := pairwise_cons.mp hapart
    have hp := hin p mem_cons_self
    have := ih hrest (fun q hq => ⟨hlater q hq, (hin q (mem_cons_of_mem _ hq)).2⟩) hp.2
    rw [bytesOf_cons]
    omega

/-- **No gap**: pieces that do not overlap and have as many bytes as their space tile
it. -/
theorem tiles_of_sum (hsum : lo + bytesOf ps = hi) : Tiles lo hi ps := by
  induction ps generalizing lo with
  | nil => exact hsum
  | cons p ps ih =>
    obtain ⟨hlater, hrest⟩ := pairwise_cons.mp hapart
    have hp := hin p mem_cons_self
    have hlater' (q : Nat × List Byte) (hq : q ∈ ps) :
        p.1 + p.2.length ≤ q.1 ∧ q.1 + q.2.length ≤ hi :=
      ⟨hlater q hq, (hin q (mem_cons_of_mem _ hq)).2⟩
    have hbound := bytesOf_le hrest hlater' hp.2
    rw [bytesOf_cons] at hsum
    have hstart : p.1 = lo := by omega
    refine ⟨hstart, ih hrest (fun q hq => ?_) (by omega)⟩
    rw [← hstart]
    exact hlater' q hq

end

/-! ## One queue -/

namespace Queue

/-- The ECN bits of the fragments. -/
def ecnBits (L : List Fragment) : Byte := L.foldl (fun e f => e ||| fragEcn (byteAt f.ip 1)) 0

/-- The queue holds the fragments `L`. -/
structure Holds (q : Queue) (L : List Fragment) : Prop where
  frags : q.frags.Perm (L.map Fragment.piece)
  asc : Ascending q.frags
  apart : q.frags.Pairwise fun a b => a.1 + a.2.length ≤ b.1
  pos : ∀ p ∈ q.frags, 0 < p.2.length
  le : ∀ p ∈ q.frags, p.1 + p.2.length ≤ q.len
  meat : q.meat = bytesOf q.frags
  mem : q.mem = (q.frags.map fun p => p.2.length + FRAG_OVERHEAD).sum
  ecn : q.ecn = ecnBits L
  head : ∀ h, q.head = some h → ∃ f ∈ L, offsetOf f.ip = 0 ∧ h = f.head
  hasHead : ∀ f ∈ L, offsetOf f.ip = 0 → q.head.isSome

variable {q q' : Queue} {L : List Fragment}

theorem holds_fresh (rid expires : Nat) : (fresh rid expires).Holds [] where
  frags := .nil
  asc := .nil
  apart := .nil
  pos := by simp [fresh]
  le := by simp [fresh]
  meat := rfl
  mem := rfl
  ecn := rfl
  head := by simp [fresh]
  hasHead := by simp

/-- The count of the source does not matter. -/
theorem Holds.setRid (h : q.Holds L) (rid : Nat) : { q with rid := rid }.Holds L :=
  { h with }

variable {last : Nat} {mf : Bool}

/-- The bookkeeping of the length changes length and flag only, and the length covers the
fragment. -/
theorem takeLen_eq_some (h : q.takeLen last mf = some q') :
    q' = { q with len := q'.len, lastIn := q'.lastIn } ∧ q.len ≤ q'.len ∧ last ≤ q'.len := by
  unfold takeLen at h
  split at h
  · split at h
    · cases h
    rename_i hok
    cases h
    simp only [Bool.or_eq_true, decide_eq_true_eq, not_or, Nat.not_lt] at hok
    exact ⟨rfl, hok.1, Nat.le_refl _⟩
  · split at h
    · rename_i hlt
      split at h
      · cases h
      · cases h
        exact ⟨rfl, Nat.le_of_lt hlt, Nat.le_refl _⟩
    · rename_i hge
      cases h
      exact ⟨rfl, Nat.le_refl _, Nat.not_lt.mp hge⟩

theorem Holds.takeLen (h : q.Holds L) (htake : q.takeLen last mf = some q') : q'.Holds L := by
  obtain ⟨heq, hle, -⟩ := takeLen_eq_some htake
  rw [heq]
  exact { h with le := fun p hp => Nat.le_trans (h.le p hp) hle }

/-- No fragment overlaps. -/
theorem overlapped_isEmpty {offset : Nat} (h : (q.overlapped offset last).isEmpty) :
    ∀ p ∈ q.frags, last ≤ p.1 ∨ p.1 + p.2.length ≤ offset := by
  intro p hp
  have hnil := isEmpty_iff.mp h
  have hnot := filter_eq_nil_iff.mp hnil p hp
  simp only [Bool.and_eq_true, decide_eq_true_eq, not_and, Nat.not_lt] at hnot
  by_cases hlt : p.1 < last
  · exact .inr (hnot hlt)
  · exact .inl (Nat.not_lt.mp hlt)

/-- **Taking a fragment in** that overlaps nothing. -/
theorem Holds.add (h : q.Holds L) (f : Fragment) (hlen : endOf f.ip ≤ q.len)
    (hne : endOf f.ip ≠ offsetOf f.ip)
    (hfree : (q.overlapped (offsetOf f.ip) (endOf f.ip)).isEmpty) :
    (q.add f.ip).Holds (L ++ [f]) := by
  have hfit := overlapped_isEmpty hfree
  have hle := f.offset_le_end
  have hdata := f.length_data
  -- The other fragments are on one side, so the key is new.
  have hside (p : Nat × List Byte) (hp : p ∈ q.frags) :
      (p.1 < offsetOf f.ip ∧ p.1 + p.2.length ≤ offsetOf f.ip) ∨
        (offsetOf f.ip < p.1 ∧ offsetOf f.ip + (dataOf f.ip).length ≤ p.1) := by
    have := h.pos p hp
    rcases hfit p hp with hp' | hp' <;> omega
  have hperm : (insertKey (offsetOf f.ip) (dataOf f.ip) q.frags).Perm (f.piece :: q.frags) :=
    insertKey_perm h.asc fun p hp => by rcases hside p hp with h | h <;> omega
  have hmem (p : Nat × List Byte) (hp : p ∈ insertKey (offsetOf f.ip) (dataOf f.ip) q.frags) :
      p = f.piece ∨ p ∈ q.frags := mem_cons.mp (hperm.mem_iff.mp hp)
  refine ⟨?_, h.asc.insertKey _ _, ?_, fun p hp => ?_, fun p hp => ?_, ?_, ?_, ?_, ?_, ?_⟩
  · rw [map_append]
    refine hperm.trans ((h.frags.cons f.piece).trans ?_)
    exact (perm_append_singleton ..).symm
  · exact pairwise_insertKey h.asc h.apart fun p hp _ => hside p hp
  · rcases hmem p hp with rfl | hp
    · show 0 < (dataOf f.ip).length
      omega
    · exact h.pos p hp
  · rcases hmem p hp with rfl | hp
    · show offsetOf f.ip + (dataOf f.ip).length ≤ q.len
      omega
    · exact h.le p hp
  · show q.meat + (dataOf f.ip).length = bytesOf (insertKey (offsetOf f.ip) (dataOf f.ip) q.frags)
    rw [bytesOf, (hperm.map _).sum_nat, h.meat, map_cons, sum_cons]
    exact Nat.add_comm _ _
  · show q.mem + ((dataOf f.ip).length + FRAG_OVERHEAD) = _
    rw [show (q.add f.ip).frags = insertKey (offsetOf f.ip) (dataOf f.ip) q.frags from rfl,
      (hperm.map _).sum_nat, h.mem, map_cons, sum_cons]
    exact Nat.add_comm _ _
  · show q.ecn ||| fragEcn (byteAt f.ip 1) = ecnBits (L ++ [f])
    rw [h.ecn, ecnBits, ecnBits, foldl_append]
    rfl
  · intro x hx
    have hx : (if offsetOf f.ip = 0 then some f.head else q.head) = some x := hx
    split at hx
    · rename_i hzero
      exact ⟨f, by simp, hzero, (Option.some.inj hx).symm⟩
    · obtain ⟨g, hg, hzero, hhead⟩ := h.head x hx
      exact ⟨g, mem_append_left _ hg, hzero, hhead⟩
  · intro g hg hzero
    show (if offsetOf f.ip = 0 then some f.head else q.head).isSome
    split
    · rfl
    rename_i hne0
    rcases mem_append.mp hg with hg | hg
    · exact h.hasHead g hg hzero
    · exact absurd (mem_singleton.mp hg ▸ hzero) hne0

/-- **A whole queue is a tiling.** -/
theorem Holds.tiles (h : q.Holds L) (hwhole : q.meat = q.len) : Tiles 0 q.len q.frags := by
  refine tiles_of_sum h.apart (fun p hp => ⟨Nat.zero_le _, h.le p hp⟩) ?_
  rw [Nat.zero_add, ← h.meat, hwhole]

end Queue

/-! ## All queues -/

/-- What is known of all queues: each holds the fragments that `log` has for its key, and
the memory is counted. -/
structure DefragInv (d : Defrag) (log : Nat → List Fragment) : Prop where
  asc : Ascending d.queues
  holds : ∀ k q, getKey k d.queues = some q → q.Holds (log k)
  mem : d.mem = (d.queues.map fun e => e.2.mem).sum

namespace Defrag

variable {d : Defrag} {key now : Nat} {q q' : Queue}

/-- The memory of the queues, with that of one key apart. -/
theorem mem_split (hasc : Ascending d.queues) (hget : getKey key d.queues = some q) :
    (d.queues.map fun e => e.2.mem).sum =
      q.mem + ((eraseKey key d.queues).map fun e => e.2.mem).sum :=
  sum_eraseKey hasc (fun e => e.2.mem) hget

theorem mem_insert (hasc : Ascending d.queues) :
    ((insertKey key q' d.queues).map fun e => e.2.mem).sum =
      q'.mem + ((eraseKey key d.queues).map fun e => e.2.mem).sum :=
  sum_insertKey hasc (fun e => e.2.mem)

/-- What a stage for the key `key` may do: the other queues stay, and the memory is
counted. -/
structure Touches (d d' : Defrag) (key : Nat) : Prop where
  asc : Ascending d'.queues
  mem : d'.mem = (d'.queues.map fun e => e.2.mem).sum
  other : ∀ k, k ≠ key → getKey k d'.queues = getKey k d.queues

theorem Touches.trans {d₁ d₂ : Defrag} (h₁ : Touches d d₁ key) (h₂ : Touches d₁ d₂ key) :
    Touches d d₂ key :=
  ⟨h₂.asc, h₂.mem, fun k hk => (h₂.other k hk).trans (h₁.other k hk)⟩

/-- Whether the queue starts with this fragment: there is none, or it is too far from its
last fragment. -/
def startsOver (d : Defrag) (f : Fragment) (now : Nat) : Bool :=
  match getKey f.key d.queues with
  | none => true
  | some q => !q.frags.isEmpty &&
      decide (MAX_DIST < sub32 (d.nextRid (keySource f.key) now) q.rid)

/-- The count of the source. -/
def ridOf (d : Defrag) (f : Fragment) (now : Nat) : Nat := d.nextRid (keySource f.key) now

theorem nextRid_findQueue (source : Nat) :
    (d.findQueue key now).nextRid source now = d.nextRid source now := by
  unfold findQueue
  split <;> rfl

/-- The queue met: an empty one that starts now, or the queue of the key with its count
set. -/
def queueAt (d : Defrag) (f : Fragment) (now : Nat) : Queue :=
  if d.startsOver f now then Queue.fresh (d.ridOf f now) (now + FRAG_TIME)
  else { (getKey f.key d.queues).getD (Queue.fresh 0 0) with rid := d.ridOf f now }

/-- What `fragQueue` answers, by what it did to the queue: it is gone, keeps its
fragments (with a new length), has the fragment too, or was whole with it. -/
inductive Took (d' : Defrag) (f : Fragment) (L : List Fragment) : Defragged → Prop
  | gone (hget : getKey f.key d'.queues = none) : Took d' f L .dropped
  | kept (q : Queue) (hget : getKey f.key d'.queues = some q) (hq : q.Holds L) : Took d' f L .dropped
  | added (q : Queue) (hget : getKey f.key d'.queues = some q) (hq : q.Holds (L ++ [f])) :
      Took d' f L .pending
  | whole (q : Queue) (head : List Byte) (ecn : Byte) (hget : getKey f.key d'.queues = none)
      (hq : q.Holds (L ++ [f])) (hwhole : q.meat = q.len) (hhead : q.head = some head)
      (hecn : ecnOf q.ecn = some ecn) (hlen : head.length + q.len ≤ 65535) :
      Took d' f L (.complete (q.datagram head ecn))

/-! ### The stages -/

section

variable (hasc : Ascending d.queues) (hmem : d.mem = (d.queues.map fun e => e.2.mem).sum)

include hasc hmem

/-- Taking a queue out. -/
theorem touches_erase (hget : getKey key d.queues = some q) (fails oks : Nat) : let d' := { d with
      queues := eraseKey key d.queues, mem := d.mem - q.mem, fails := fails, oks := oks }
    Touches d d' key ∧ getKey key d'.queues = none := by
  refine ⟨⟨hasc.eraseKey key, ?_, fun k hk => ?_⟩, ?_⟩
  · rw [hmem, mem_split hasc hget]
    exact Nat.add_sub_cancel_left ..
  · exact (getKey_eraseKey hasc k).trans (if_neg hk)
  · exact (getKey_eraseKey hasc key).trans (if_pos rfl)

theorem touches_kill (key : Nat) :
    Touches d (d.kill key) key ∧ getKey key (d.kill key).queues = none := by
  unfold kill
  split
  · rename_i q hget
    exact touches_erase hasc hmem hget (d.fails + 1) d.oks
  · rename_i hget
    exact ⟨⟨hasc, hmem, fun _ _ => rfl⟩, hget⟩

/-- Putting a queue back that counts `more` bytes more. -/
theorem touches_put (hget : getKey key d.queues = some q) (d' : Defrag)
    (hqueues : d'.queues = insertKey key q' d.queues) (hmem' : d'.mem + q.mem = d.mem + q'.mem) :
    Touches d d' key ∧ getKey key d'.queues = some q' := by
  have hsplit := mem_split hasc hget
  have hput : ((insertKey key q' d.queues).map fun e => e.2.mem).sum = _ := mem_insert hasc
  refine ⟨⟨hqueues ▸ hasc.insertKey key q', ?_, fun k hk => ?_⟩, ?_⟩
  · rw [hqueues]
    omega
  · rw [hqueues]
    exact (getKey_insertKey hasc k).trans (if_neg hk)
  · rw [hqueues]
    exact (getKey_insertKey hasc key).trans (if_pos rfl)

theorem findQueue_spec (key now : Nat) :
    Touches d (d.findQueue key now) key ∧ getKey key (d.findQueue key now).queues =
      some ((getKey key d.queues).getD (Queue.fresh 0 (now + FRAG_TIME))) := by
  unfold findQueue
  cases hget : getKey key d.queues with
  | none =>
    refine ⟨⟨hasc.insertKey _ _, ?_, fun k hk => (getKey_insertKey hasc k).trans (if_neg hk)⟩, ?_⟩
    · show d.mem = ((insertKey key _ d.queues).map fun e => e.2.mem).sum
      rw [mem_insert hasc, eraseKey_of_none hget, hmem]
      exact (Nat.zero_add _).symm
    · exact (getKey_insertKey hasc key).trans (if_pos rfl)
  | some q => exact ⟨⟨hasc, hmem, fun _ _ => rfl⟩, hget⟩

theorem tooFar_spec (hget : getKey key d.queues = some q) (rid now : Nat) :
    Touches d (d.tooFar key rid now) key ∧ getKey key (d.tooFar key rid now).queues =
      some (if !q.frags.isEmpty && decide (MAX_DIST < sub32 rid q.rid) then
        Queue.fresh rid (now + FRAG_TIME) else { q with rid := rid }) := by
  have hle : q.mem ≤ d.mem := by
    rw [hmem, mem_split hasc hget]
    exact Nat.le_add_right ..
  unfold tooFar
  rw [hget]
  dsimp only
  split
  · exact touches_put hasc hmem hget _ rfl (Nat.sub_add_cancel hle)
  · exact touches_put hasc hmem hget _ rfl rfl

/-- **Arriving** at a queue. -/
theorem arrive_spec (f : Fragment) (now : Nat) : Touches d (d.arrive f.ip now) f.key ∧
      getKey f.key (d.arrive f.ip now).queues = some (d.queueAt f now) := by
  obtain ⟨htouch, hget⟩ := findQueue_spec hasc hmem f.key now
  have harrive : d.arrive f.ip now = ((d.findQueue f.key now).countPeer (keySource f.key) now).tooFar
      f.key (d.ridOf f now) now := by
    show Defrag.tooFar _ _ ((d.findQueue f.key now).nextRid (keySource f.key) now) now = _
    rw [nextRid_findQueue]
    rfl
  obtain ⟨htouch', hget'⟩ := tooFar_spec
    (d := (d.findQueue f.key now).countPeer (keySource f.key) now) htouch.asc htouch.mem hget
    (d.ridOf f now) now
  rw [harrive]
  refine ⟨htouch.trans { htouch' with }, hget'.trans ?_⟩
  unfold queueAt startsOver
  cases getKey f.key d.queues <;> rfl

variable {f : Fragment} {L : List Fragment} (hget : getKey f.key d.queues = some q)

include hget

theorem reasm_spec (hq : q.Holds (L ++ [f])) (hwhole : q.whole = true) :
    Touches d (d.reasm f.key q).2 f.key ∧ Took (d.reasm f.key q).2 f L (d.reasm f.key q).1 := by
  have hgone := touches_erase hasc hmem hget
  simp only [Queue.whole, Bool.and_eq_true, beq_iff_eq] at hwhole
  obtain ⟨⟨hsome, -⟩, hmeat⟩ := hwhole
  obtain ⟨head, hhead⟩ := Option.isSome_iff_exists.mp hsome
  unfold reasm
  dsimp only
  rw [hhead, Option.getD_some]
  split
  · exact ⟨(hgone _ _).1, .gone (hgone _ _).2⟩
  rename_i ecn hecn
  split
  · exact ⟨(hgone _ _).1, .gone (hgone _ _).2⟩
  · rename_i hlen
    exact ⟨(hgone _ _).1, .whole q head ecn (hgone _ _).2 hq hmeat hhead hecn (Nat.not_lt.mp hlen)⟩

/-- **The fragment in its queue.** -/
theorem fragQueue_spec (hq : q.Holds L) : Touches d (d.fragQueue f.key q f.ip).2 f.key ∧
      Took (d.fragQueue f.key q f.ip).2 f L (d.fragQueue f.key q f.ip).1 := by
  have hkill : Touches d (d.kill f.key) f.key ∧ Took (d.kill f.key) f L .dropped := by
    obtain ⟨htouch, hnone⟩ := touches_kill hasc hmem f.key
    exact ⟨htouch, .gone hnone⟩
  unfold fragQueue
  dsimp only
  split
  · exact hkill
  rename_i q₁ htake
  have hq₁ := hq.takeLen htake
  obtain ⟨heq, -, hlen⟩ := Queue.takeLen_eq_some htake
  have hmem₁ : q₁.mem = q.mem := by rw [heq]
  split
  · exact hkill
  rename_i hne
  split
  · split
    · obtain ⟨htouch, hget'⟩ := touches_put hasc hmem hget
        { d with queues := insertKey f.key q₁ d.queues } rfl (by rw [hmem₁])
      exact ⟨htouch, .kept q₁ hget' hq₁⟩
    · exact hkill
  · rename_i hfree
    rw [Bool.not_eq_true', Bool.not_eq_false] at hfree
    have hadd := hq₁.add f hlen hne hfree
    obtain ⟨htouch, hget'⟩ := touches_put hasc hmem hget { d with
        queues := insertKey f.key (q₁.add f.ip) d.queues
        mem := d.mem + ((dataOf f.ip).length + FRAG_OVERHEAD) } rfl (by
      show d.mem + ((dataOf f.ip).length + FRAG_OVERHEAD) + q.mem =
        d.mem + (q₁.mem + ((dataOf f.ip).length + FRAG_OVERHEAD))
      omega)
    split
    · rename_i hwhole
      obtain ⟨htouch', htook⟩ := reasm_spec htouch.asc htouch.mem hget' hadd hwhole
      exact ⟨htouch.trans htouch', htook⟩
    · exact ⟨htouch, .added _ hget' hadd⟩

end

end Defrag

end NopeekOS.Net
