import NopeekOS.Net.TcpWindow

/-!
# Dynamic right sizing of the receive buffer

How `drs_win`, the window `full_space` starts from, is measured: `rcv_rtt_update` (tcp.rs:227),
`rcv_space_adjust` (tcp.rs:266) and `rcvbuf_grow` (tcp.rs:245). Of the buffers only the lengths
are read.

The window only grows and stays below the buffer's size, whatever is computed. But the growth
multiplies before it divides, in 64 bits, and after a long time without a sample the product does
not fit. It fits if fewer than 3,037,000,500 bytes, the root of 2^63, were read since the last
measurement.
-/

namespace NopeekOS.Net

open Lib

/-- The window of `rcvbuf_grow` (tcp.rs:250-255), in `u64`. -/
def rcvwin (newval oldval ooo : Nat) : Nat :=
  let grow := newval * 2 * (newval - oldval) % 2 ^ 64 / oldval
  ((newval * 2 + grow * 2 % 2 ^ 64) % 2 ^ 64 + ooo) % 2 ^ 64

/-- The same without a bound on the numbers. -/
def rcvwinWide (newval oldval ooo : Nat) : Nat :=
  newval * 2 + newval * 2 * (newval - oldval) / oldval * 2 + ooo

/-- **When the arithmetic is exact.** -/
theorem rcvwin_eq_iff {newval oldval ooo : Nat} (hpos : 0 < oldval) (hold : oldval ≤ 2 ^ 64) :
    rcvwin newval oldval ooo = rcvwinWide newval oldval ooo ↔
      newval * (newval - oldval) < 2 ^ 63 ∧ rcvwinWide newval oldval ooo < 2 ^ 64 := by
  unfold rcvwin rcvwinWide
  dsimp only
  rw [Nat.mul_comm newval 2, Nat.mul_assoc]
  generalize newval * (newval - oldval) = p
  by_cases hfit : p < 2 ^ 63
  · rw [Nat.mod_eq_of_lt (by omega : 2 * p < 2 ^ 64)]
    generalize 2 * p / oldval = grow
    omega
  · -- Cutting the product loses at least one `oldval`.
    have hlost : 2 * p % 2 ^ 64 / oldval + 1 ≤ 2 * p / oldval := by
      rw [← Nat.add_div_right _ hpos]
      exact Nat.div_le_div_right (by omega)
    generalize 2 * p % 2 ^ 64 / oldval = cut at hlost ⊢
    generalize 2 * p / oldval = grow at hlost ⊢
    omega

/-- The window itself fits: the product is at most 2^65 and `oldval` at least ten segments. -/
theorem rcvwinWide_lt {newval oldval ooo : Nat} (hnew : newval < 2 ^ 32) (hold : 2560 ≤ oldval)
    (hooo : ooo < 2 ^ 62) : rcvwinWide newval oldval ooo < 2 ^ 64 := by
  have hprod : newval * 2 * (newval - oldval) ≤ 2 ^ 32 * 2 * 2 ^ 32 :=
    Nat.mul_le_mul (by omega) (by omega)
  have hgrow := Nat.div_le_div hprod hold (by decide)
  unfold rcvwinWide
  omega

/-- What the measurement reads of a connection: the bytes in `recv_buf` and in `ooo`, and its own
fields (tcp.rs:583-594). -/
structure Drs where
  recvLen : Nat
  oooLen : Nat
  rcvRttUs8 : Nat
  rcvqCopied0 : Nat
  copiedTotal : Nat
  rcvqTimeUs : Nat
  rcvqSpace : Nat
  drsWin : Nat

namespace Drs

variable (s : Drs)

/-- A connection with its path set (tcp.rs:766-774, 1024); `advmss` is at least 256. -/
def fresh (advmss : Nat) : Drs := ⟨0, 0, 0, 0, 0, 0, 10 * advmss, RCV_WND_MIN⟩

/-- `rcv_rtt_update` (tcp.rs:227). -/
def rcvRttUpdate (sampleUs : Nat) : Drs :=
  let m := min (sampleUs * 8) (2 ^ 32 - 1)
  if s.rcvRttUs8 = 0 ∨ m < s.rcvRttUs8 then { s with rcvRttUs8 := m }
  else if s.recvLen ≠ 0 then s
  else { s with rcvRttUs8 := (s.rcvRttUs8 - s.rcvRttUs8 / 8 + sampleUs) % 2 ^ 32 }

/-- `oldval` in `rcvbuf_grow` (tcp.rs:246). -/
def oldval : Nat := max s.rcvqSpace 1

/-- `rcvbuf_grow` (tcp.rs:245). -/
def rcvbufGrow (newval : Nat) : Drs :=
  let rcvbuf := min (rcvwin newval s.oldval s.oooLen) RCV_WND_MAX
  { s with rcvqSpace := newval, drsWin := if s.drsWin < rcvbuf then rcvbuf else s.drsWin }

/-- The `newval` that `rcv_space_adjust` grows to at `now` (tcp.rs:267-277), if it does. -/
def growsTo (now : Nat) : Option Nat :=
  let copied := s.copiedTotal - s.rcvqCopied0 - s.recvLen
  if s.rcvRttUs8 ≠ 0 ∧ s.rcvRttUs8 / 8 ≤ now - s.rcvqTimeUs ∧ s.rcvqSpace < copied then
    some (min copied (2 ^ 32 - 1))
  else none

/-- `rcv_space_adjust` (tcp.rs:266). -/
def rcvSpaceAdjust (now : Nat) : Drs :=
  if s.rcvRttUs8 = 0 ∨ now - s.rcvqTimeUs < s.rcvRttUs8 / 8 then s
  else
    let s := match s.growsTo now with
      | none => s
      | some newval => s.rcvbufGrow newval
    { s with rcvqCopied0 := s.copiedTotal, rcvqTimeUs := now }

/-- `recv` of at most `n` bytes, before the measurement (tcp.rs:1445-1460). -/
def read (n : Nat) : Drs :=
  { s with
    recvLen := s.recvLen - min s.recvLen n
    copiedTotal := min (s.copiedTotal + min s.recvLen n) (2 ^ 64 - 1) }

/-- What happens to a connection: bytes come in, in order as far as there is room and `ooo` of
them queued behind a gap; a round trip is measured; the application reads. -/
inductive Event
  | arrive (n ooo : Nat)
  | sample (us : Nat)
  | recv (n now : Nat)

def step : Event → Drs
  | .arrive n ooo => { s with recvLen := min (s.recvLen + n) RECV_BUF_SIZE, oooLen := ooo }
  | .sample us => s.rcvRttUpdate us
  | .recv n now => (s.read n).rcvSpaceAdjust now

/-- The window in its bounds, and the measured need, which never falls, in its type. -/
structure Ok : Prop where
  min_le : RCV_WND_MIN ≤ s.drsWin
  le_max : s.drsWin ≤ RCV_WND_MAX
  floor : 2560 ≤ s.rcvqSpace
  space : s.rcvqSpace < 2 ^ 32

variable {s}

/-- It grows to what was read since the last measurement, which is more than the need so far. -/
theorem growsTo_bounds {now newval : Nat} (h : s.growsTo now = some newval) (hok : s.Ok) :
    s.rcvqSpace ≤ newval ∧ newval < 2 ^ 32 ∧ newval ≤ s.copiedTotal - s.rcvqCopied0 := by
  have hspace := hok.space
  unfold growsTo at h
  dsimp only at h
  split at h <;> cases h
  omega

/-- **One step** keeps the bounds and does not take the window back. -/
theorem Ok.step (h : s.Ok) (e : Event) : (s.step e).Ok ∧ s.drsWin ≤ (s.step e).drsWin := by
  have hgrow : ∀ d : Drs, d.Ok → ∀ newval, d.rcvqSpace ≤ newval → newval < 2 ^ 32 →
      (d.rcvbufGrow newval).Ok ∧ d.drsWin ≤ (d.rcvbufGrow newval).drsWin := by
    rintro d ⟨hmin, hmax, hfloor, -⟩ newval hle hnew
    have hfloor : 2560 ≤ newval := Nat.le_trans hfloor hle
    unfold rcvbufGrow
    dsimp only
    split
    · next hlt =>
      exact ⟨⟨Nat.le_trans hmin (Nat.le_of_lt hlt), Nat.min_le_right _ _, hfloor, hnew⟩,
        Nat.le_of_lt hlt⟩
    · exact ⟨⟨hmin, hmax, hfloor, hnew⟩, Nat.le_refl _⟩
  cases e with
  | arrive n ooo => exact ⟨{ h with }, Nat.le_refl _⟩
  | sample us =>
    simp only [Drs.step, rcvRttUpdate]
    split
    · exact ⟨{ h with }, Nat.le_refl _⟩
    · split
      · exact ⟨h, Nat.le_refl _⟩
      · exact ⟨{ h with }, Nat.le_refl _⟩
  | recv n now =>
    have hread : (s.read n).Ok := { h with }
    simp only [Drs.step, rcvSpaceAdjust]
    split
    · exact ⟨hread, Nat.le_refl _⟩
    cases hg : (s.read n).growsTo now with
    | none => exact ⟨{ hread with }, Nat.le_refl _⟩
    | some newval =>
      obtain ⟨hle, hnew, -⟩ := growsTo_bounds hg hread
      obtain ⟨hok, hle⟩ := hgrow _ hread newval hle hnew
      exact ⟨{ hok with }, hle⟩

end Drs

/-- **The receive buffer's tuning**, for every sequence of arrivals, samples and reads. The window
lies between its first value and 8 MiB and no step takes it back. A read that ends with fewer than
3,037,000,500 bytes read since the last measurement grows it without an overflow of 64 bits; in
general the arithmetic is exact if and only if the product of the bytes and their growth is below
2^63. -/
theorem drs_bounded {advmss : Nat} (hmin : 256 ≤ advmss) (hmax : advmss < 2 ^ 16)
    {evs : List Drs.Event} {s : Drs}
    (hrun : Run (fun s e s' => s' = Drs.step s e) (.fresh advmss) evs s) :
    (RCV_WND_MIN ≤ s.drsWin ∧ s.drsWin ≤ RCV_WND_MAX) ∧ (∀ e, s.drsWin ≤ (s.step e).drsWin) ∧
      ∀ n now newval, s.oooLen < 2 ^ 62 → (s.read n).growsTo now = some newval →
        ((s.read n).copiedTotal - s.rcvqCopied0 < 3037000500 →
          newval * 2 * (newval - s.oldval) < 2 ^ 64 ∧
            rcvwinWide newval s.oldval s.oooLen < 2 ^ 64) ∧
        (rcvwin newval s.oldval s.oooLen = rcvwinWide newval s.oldval s.oooLen ↔
          newval * (newval - s.oldval) < 2 ^ 63) := by
  have hok : s.Ok := by
    refine hrun.invariant (I := Drs.Ok) (fun s e s' h (hstep : s' = s.step e) => ?_)
      ⟨Nat.le_refl _, ?_, ?_, ?_⟩
    · exact hstep ▸ (h.step e).1
    · show RCV_WND_MIN ≤ RCV_WND_MAX
      decide
    · show 2560 ≤ 10 * advmss
      omega
    · show 10 * advmss < 2 ^ 32
      omega
  refine ⟨⟨hok.min_le, hok.le_max⟩, fun e => (hok.step e).2, fun n now newval hooo hg => ?_⟩
  obtain ⟨-, hnew, hread⟩ := Drs.growsTo_bounds hg { hok with }
  have hspace := hok.space
  have hold : 2560 ≤ s.oldval := Nat.le_trans hok.floor (Nat.le_max_left _ _)
  have hfits := rcvwinWide_lt hnew hold hooo
  refine ⟨fun hbytes => ⟨?_, hfits⟩, ?_⟩
  · have hlt : newval < 3037000500 := Nat.lt_of_le_of_lt hread hbytes
    -- 3037000499 * 3037000499 is just below 2^63
    have hprod : newval * (newval - s.oldval) ≤ 3037000499 * 3037000499 :=
      Nat.mul_le_mul (by omega) (by omega)
    rw [Nat.mul_right_comm]
    omega
  · rw [rcvwin_eq_iff (by omega) (by unfold Drs.oldval; omega)]
    exact and_iff_left hfits

/-- A connection that has read 100000 bytes before its first sample of 1 ms, at the next read. -/
theorem drs_bounded_first_sample :
    let s := (((Drs.fresh 1460).step (.arrive 100000 0)).step (.recv 100000 0)).step (.sample 1000)
    (s.read 0).growsTo 1000 = some 100000 ∧ RCV_WND_MIN ≤ s.drsWin ∧
      s.drsWin ≤ (s.step (.recv 0 1000)).drsWin ∧ 100000 * 2 * (100000 - s.oldval) < 2 ^ 64 ∧
      rcvwin 100000 s.oldval s.oooLen = rcvwinWide 100000 s.oldval s.oooLen := by
  intro s
  have hg : (s.read 0).growsTo 1000 = some 100000 := by decide
  obtain ⟨hbounds, hkeeps, hgrow⟩ := drs_bounded (by decide) (by decide)
    (.cons rfl (.cons rfl (.single rfl)) : Run _ (.fresh 1460) _ s)
  obtain ⟨hfits, hexact⟩ := hgrow 0 1000 100000 (by decide) hg
  exact ⟨hg, hbounds.1, hkeeps _, (hfits (by decide)).1, hexact.mpr (by decide)⟩

/-- 4 GiB are read, 8 MiB at a time, before the first sample of 1 ms. The next read grows the
window with a product of more than 64 bits. -/
theorem drs_product_wraps :
    let s := ((List.replicate 512 [.arrive RECV_BUF_SIZE 0, .recv RECV_BUF_SIZE 0]).flatten.foldl
      Drs.step (.fresh 1460)).step (.sample 1000)
    (s.read 0).growsTo 1000 = some (2 ^ 32 - 1) ∧ rcvwin (2 ^ 32 - 1) s.oldval s.oooLen ≠
      rcvwinWide (2 ^ 32 - 1) s.oldval s.oooLen := by
  decide +kernel

end NopeekOS.Net
