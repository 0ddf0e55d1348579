import NopeekOS.Net.TcpWindow

/-!
# The offered window does not shrink

`recv_window` keeps the edge it offered last (`recvWindow_edge`), so that edges grow in the order
in which segments are built. They grow on the wire too as long as segments go out in that
order: none goes out while an ACK that `tick` built waits for its caller to send it (`Prompt`).

`WinOk` relates the connection to positions that do not wrap: `wup` is that of `rcv_wup`. The
differences that `receive_window` computes as an `i32` are exact because no more than the
receive buffer and one segment is ever taken without a window being offered (`lagBuf`), which
is what the ACK of a read (`cleanup_rbuf`) and the scheduling of ACKs are for.
-/

namespace NopeekOS.Net

open Lib List WinConn

/-! ## What data changes -/

/-- The receive side took `d` bytes, and offered no window. -/
structure Advanced (d : Nat) (r r' : RecvSide) : Prop where
  nxt : r'.rcvNxt = add32 r.rcvNxt d
  off : r'.rcvOff = r.rcvOff + d
  len : r'.recvBuf.length = r.recvBuf.length + d
  fits : r.recvBuf.length ≤ RECV_BUF_SIZE → r'.recvBuf.length ≤ RECV_BUF_SIZE
  wup : r'.rcvWup = r.rcvWup
  wnd : r'.rcvWnd = r.rcvWnd
  mss : r'.rcvMss = r.rcvMss
  scale : r'.wscaleOk = r.wscaleOk

theorem add32_add32 (a m n : Nat) : add32 (add32 a m) n = add32 a (m + n) := by
  unfold add32
  omega

namespace Advanced

variable {d e : Nat} {r r' r'' : RecvSide}

theorem trans (h : Advanced d r r') (h' : Advanced e r' r'') : Advanced (d + e) r r'' where
  nxt := by rw [h'.nxt, h.nxt, add32_add32]
  off := by rw [h'.off, h.off, Nat.add_assoc]
  len := by rw [h'.len, h.len, Nat.add_assoc]
  fits hr := h'.fits (h.fits hr)
  wup := h'.wup.trans h.wup
  wnd := h'.wnd.trans h.wnd
  mss := h'.mss.trans h.mss
  scale := h'.scale.trans h.scale

theorem nxt_lt (h : Advanced d r r') : r'.rcvNxt < 2 ^ 32 :=
  h.nxt ▸ Nat.mod_lt _ (by decide)

/-- Only the out-of-order queue changed. -/
theorem queued {r : RecvSide} (hnxt : r.rcvNxt < 2 ^ 32) {ooo : List (Nat × List Byte)}
    {oooBytes : Nat} {oooRuns : Runs} {dsack : Option (Nat × Nat)} :
    Advanced 0 r { r with ooo, oooBytes, oooRuns, dsack } :=
  ⟨(Nat.mod_eq_of_lt hnxt).symm, rfl, rfl, id, rfl, rfl, rfl, rfl⟩

/-- The bytes `b` go into the buffer. -/
theorem took (r : RecvSide) (b : List Byte)
    (hfits : r.recvBuf.length ≤ RECV_BUF_SIZE → r.recvBuf.length + b.length ≤ RECV_BUF_SIZE)
    (oooBytes : Nat) : Advanced b.length r { r with
      recvBuf := r.recvBuf ++ b, rcvNxt := add32 r.rcvNxt b.length
      rcvOff := r.rcvOff + b.length, oooBytes } :=
  ⟨rfl, rfl, length_append, fun hr => length_append ▸ hfits hr, rfl, rfl, rfl, rfl⟩

end Advanced

namespace RecvSide

variable (r : RecvSide)

/-- The queue's entries go into the buffer as far as it has room. -/
theorem drain_advanced {r : RecvSide} (hnxt : r.rcvNxt < 2 ^ 32) (q : List (Nat × List Byte)) :
    ∃ d, Advanced d r (r.drain q) := by
  induction q generalizing r with
  | nil => exact ⟨0, .queued hnxt⟩
  | cons entry rest ih =>
    obtain ⟨k, seg⟩ := entry
    unfold drain
    split
    · obtain ⟨d, hd⟩ := @ih { r with oooBytes := r.oooBytes - seg.length } hnxt
      exact ⟨_, (Advanced.queued hnxt).trans hd⟩
    split
    · exact ⟨0, .queued hnxt⟩
    split
    · exact ⟨0, .queued hnxt⟩
    rename_i hstale hgap hroom
    -- The entry's tail is delivered.
    have htail : seg.length - (r.rcvOff - k) = (seg.drop (r.rcvOff - k)).length := by
      rw [length_drop]
    rw [htail]
    have hfirst := Advanced.took r (seg.drop (r.rcvOff - k)) (fun _ => by omega)
      (r.oooBytes - seg.length)
    obtain ⟨d, hd⟩ := ih hfirst.nxt_lt
    exact ⟨_, hfirst.trans hd⟩

theorem inOrder_advanced (payload : List Byte) (granted : Bool) :
    ∃ d, Advanced d r (r.inOrder payload granted) := by
  have hcopy : r.copyLen payload granted ≤ payload.length ∧ (r.recvBuf.length ≤ RECV_BUF_SIZE →
        r.recvBuf.length + r.copyLen payload granted ≤ RECV_BUF_SIZE) := by
    unfold copyLen
    split
    · omega
    · omega
  unfold inOrder
  generalize r.copyLen payload granted = copy at hcopy
  have hlen : copy = (payload.take copy).length := by
    rw [length_take, Nat.min_eq_left hcopy.1]
  have hfirst := Advanced.took r (payload.take copy) (hlen ▸ hcopy.2) r.oooBytes
  rw [← hlen] at hfirst
  obtain ⟨d, hd⟩ := drain_advanced hfirst.nxt_lt r.ooo
  exact ⟨_, { hfirst.trans hd with }⟩

variable {r}

section

variable (hnxt : r.rcvNxt < 2 ^ 32)

include hnxt

section

variable (seq : Nat) (payload : List Byte)

include seq payload

theorem ahead_advanced (granted : Bool) : Advanced 0 r (r.ahead seq payload granted) := by
  unfold ahead
  dsimp only
  split
  · split
    · exact .queued hnxt
    · exact .queued hnxt
  · split
    · exact .queued hnxt
    · exact .queued hnxt

theorem behind_advanced : Advanced 0 r (r.behind seq payload) := by
  unfold behind
  dsimp only
  generalize (if seqAfter (add32 seq payload.length) r.rcvNxt then r.rcvNxt
    else add32 seq payload.length) = hi
  split
  · exact .queued hnxt
  · exact .queued hnxt

theorem partialPacket_advanced : Advanced 0 r (r.partialPacket seq payload).1 := by
  unfold partialPacket
  split
  · split
    · exact .queued hnxt
    · exact .queued hnxt
  · exact .queued hnxt

/-- **The data path** only advances. -/
theorem dataQueue_advanced (granted : Bool) :
    ∃ d, Advanced d r (r.dataQueue seq payload granted) := by
  have hpartial := partialPacket_advanced hnxt seq payload
  unfold dataQueue
  generalize r.partialPacket seq payload = p at hpartial
  obtain ⟨r', seq', payload'⟩ := p
  dsimp only at hpartial ⊢
  have hnxt' := hpartial.nxt_lt
  split
  · exact ⟨0, hpartial⟩
  split
  · obtain ⟨d, hd⟩ := r'.inOrder_advanced payload' granted
    exact ⟨_, hpartial.trans hd⟩
  · split
    · exact ⟨_, hpartial.trans (ahead_advanced hnxt' seq' payload' granted)⟩
    · exact ⟨_, hpartial.trans (behind_advanced hnxt' seq' payload')⟩

end

/-- A segment that ends no later than `rcv_nxt` brings nothing. -/
theorem dataQueue_old {seq : Nat} {payload : List Byte} (hlen : payload.length ≤ 65535)
    (hold : seqAfter (add32 seq payload.length) r.rcvNxt = false) (granted : Bool) :
    Advanced 0 r (r.dataQueue seq payload granted) := by
  unfold dataQueue partialPacket
  rw [if_neg (fun h => by simp [hold] at h)]
  dsimp only
  split
  · exact .queued hnxt
  rename_i hne
  split
  · -- The next segment would end after `rcv_nxt`.
    rename_i heq
    have hpos := length_pos_iff.mpr hne
    subst heq
    unfold seqAfter sub32 add32 at hold
    rw [decide_eq_false_iff_not] at hold
    omega
  · split
    · exact ahead_advanced hnxt seq payload granted
    · exact behind_advanced hnxt seq payload

end

/-! ## What `recv_window` offers -/

section window

variable (r) (forced : Nat)

theorem fullSpace_le : r.fullSpace forced ≤ RCV_WND_MAX := by
  unfold fullSpace
  split
  · exact Nat.min_le_right _ _
  · exact Nat.min_le_right _ _

theorem pow_wscale_dvd : 2 ^ r.wscale ∣ RCV_WND_MAX := by
  unfold wscale
  split
  · decide
  · exact Nat.one_dvd _

theorem roundUp_le {a m n : Nat} (ha : a ∣ m) (hn : n ≤ m) : (n + a - 1) / a * a ≤ m := by
  obtain ⟨k, rfl⟩ := ha
  rcases Nat.eq_zero_or_pos a with rfl | hpos
  · simp
  have hlt : (n + a - 1) / a < k + 1 := by
    rw [Nat.div_lt_iff_lt_mul hpos, Nat.add_one_mul, Nat.mul_comm k a]
    omega
  rw [Nat.mul_comm a k]
  exact Nat.mul_le_mul_right a (Nat.le_of_lt_succ hlt)

theorem le_roundUp {a : Nat} (hpos : 0 < a) (n : Nat) : n ≤ (n + a - 1) / a * a := by
  have h := Nat.div_add_mod (n + a - 1) a
  have hmod := Nat.mod_lt (n + a - 1) hpos
  rw [Nat.mul_comm] at h
  omega

theorem offer_le {full mss free : Nat} (hfree : free ≤ RCV_WND_MAX) :
    r.offer full mss free ≤ RCV_WND_MAX := by
  unfold offer
  split
  · exact roundUp_le r.pow_wscale_dvd hfree
  split
  · exact Nat.le_trans (Nat.div_mul_le_self _ _) hfree
  · split
    · exact hfree
    · omega

theorem offer_dvd (full mss free : Nat) : 2 ^ r.wscale ∣ r.offer full mss free := by
  unfold offer
  split
  · exact Nat.dvd_mul_left _ _
  · rename_i hzero
    rw [not_ne_iff.mp hzero]
    exact Nat.one_dvd _

theorem selectWindowRaw_spec :
    r.selectWindowRaw forced ≤ RCV_WND_MAX ∧ 2 ^ r.wscale ∣ r.selectWindowRaw forced := by
  have hfull := r.fullSpace_le forced
  unfold selectWindowRaw
  dsimp only
  generalize r.fullSpace forced = full at hfull
  generalize hf : full - (r.recvBuf.length + r.oooBytes) = free
  have hfree : free ≤ RCV_WND_MAX := by omega
  split
  · exact ⟨Nat.zero_le _, Nat.dvd_zero _⟩
  split
  · have hdown : free / 2 ^ r.wscale * 2 ^ r.wscale ≤ RCV_WND_MAX :=
      Nat.le_trans (Nat.div_mul_le_self _ _) hfree
    split
    · exact ⟨Nat.zero_le _, Nat.dvd_zero _⟩
    · exact ⟨r.offer_le hdown, r.offer_dvd _ _ _⟩
  · exact ⟨r.offer_le hfree, r.offer_dvd _ _ _⟩

theorem newWindow_spec (hwnd : r.receiveWindow ≤ RCV_WND_MAX) :
    r.newWindow forced ≤ RCV_WND_MAX ∧ 2 ^ r.wscale ∣ r.newWindow forced ∧
      r.receiveWindow ≤ r.newWindow forced := by
  have hraw := r.selectWindowRaw_spec forced
  unfold newWindow
  dsimp only
  split
  · exact ⟨roundUp_le r.pow_wscale_dvd hwnd, Nat.dvd_mul_left _ _,
      le_roundUp (Nat.two_pow_pos _) _⟩
  · rename_i hge
    exact ⟨hraw.1, hraw.2, Nat.le_of_not_lt hge⟩

end window

variable {base wup pos : Nat}

/-- `receive_window` on positions. -/
theorem receiveWindow_eq (hnxt : r.rcvNxt = seqAt base pos) (hwup : r.rcvWup = seqAt base wup)
    (hle : wup ≤ pos) (hlag : pos ≤ wup + 2 ^ 25) (hwnd : r.rcvWnd ≤ RCV_WND_MAX) :
    r.receiveWindow = wup + r.rcvWnd - pos := by
  have hmax : RCV_WND_MAX = 2 ^ 23 := by decide
  unfold receiveWindow
  dsimp only
  rw [hnxt, hwup, add32_seqAt]
  generalize r.rcvWnd = wnd at hwnd ⊢
  rcases Nat.le_total pos (wup + wnd) with h | h
  · rw [sub32_seqAt h (by omega), if_pos (by omega)]
  -- The window is used up: the difference is negative, or zero.
  have hsub : sub32 (seqAt base (wup + wnd)) (seqAt base pos) =
      (2 ^ 32 - (pos - (wup + wnd))) % 2 ^ 32 := by
    unfold sub32 seqAt
    omega
  rw [hsub]
  split
  · omega
  · omega

/-- **The window field** is that of a window which keeps the edge. -/
theorem recvWindow_edge (forced : Nat) (hnxt : r.rcvNxt = seqAt base pos)
    (hwup : r.rcvWup = seqAt base wup) (hle : wup ≤ pos) (hlag : pos ≤ wup + 2 ^ 25)
    (hwnd : r.rcvWnd ≤ RCV_WND_MAX) :
    r.newWindow forced ≤ RCV_WND_MAX ∧ 2 ^ r.wscale ∣ r.newWindow forced ∧
      (r.recvWindow forced).1 * 2 ^ r.wscale =
        min (r.newWindow forced) (MAX_TCP_WINDOW * 2 ^ r.wscale) ∧
      wup + min r.rcvWnd (MAX_TCP_WINDOW * 2 ^ r.wscale) ≤
        pos + min (r.newWindow forced) (MAX_TCP_WINDOW * 2 ^ r.wscale) := by
  have heq := receiveWindow_eq hnxt hwup hle hlag hwnd
  obtain ⟨hmax, hdvd, hge⟩ := r.newWindow_spec forced (by omega)
  refine ⟨hmax, hdvd, ?_, by omega⟩
  refine Nat.div_mul_cancel ?_
  rcases Nat.le_total (r.newWindow forced) (MAX_TCP_WINDOW * 2 ^ r.wscale) with h | h
  · rwa [Nat.min_eq_left h]
  · rw [Nat.min_eq_right h]
    exact Nat.dvd_mul_left _ _

end RecvSide

/-! ## Segments in the order of their edges -/

/-- The segments `l` have growing edges up to `top`, and each `ack` is the number of its
position. -/
structure OutOk (base ws top : Nat) (l : List SentSeg) : Prop where
  ack : ∀ s ∈ l, s.ack = seqAt base s.off
  mono : l.Pairwise fun a b => a.edge ws ≤ b.edge ws
  le : ∀ s ∈ l, s.edge ws ≤ top

namespace OutOk

variable {base ws top top' : Nat} {l : List SentSeg} {s : SentSeg}

theorem raise (h : OutOk base ws top l) (hle : top ≤ top') : OutOk base ws top' l :=
  ⟨h.ack, h.mono, fun s hs => Nat.le_trans (h.le s hs) hle⟩

/-- A segment with the largest edge comes last. -/
theorem snoc (h : OutOk base ws top l) (hack : s.ack = seqAt base s.off) (hge : top ≤ s.edge ws) :
    OutOk base ws (s.edge ws) (l ++ [s]) := by
  obtain ⟨hacks, hmono, hle⟩ := h.raise hge
  refine ⟨?_, pairwise_append.mpr ⟨hmono, pairwise_singleton _ _, ?_⟩, ?_⟩
  · exact forall_mem_append.mpr ⟨hacks, forall_mem_singleton.mpr hack⟩
  · exact fun a ha => forall_mem_singleton.mpr (hle a ha)
  · exact forall_mem_append.mpr ⟨hle, forall_mem_singleton.mpr (Nat.le_refl _)⟩

end OutOk

/-! ## The invariant -/

/-- The receive side on positions: `pos` is that of `rcv_nxt`, `wup` that of `rcv_wup`. -/
structure Numbers (base wup pos : Nat) (r : RecvSide) : Prop where
  nxt : r.rcvNxt = seqAt base pos
  wupAt : r.rcvWup = seqAt base wup
  le : wup ≤ pos
  lag : pos ≤ wup + 2 ^ 25
  buf : r.recvBuf.length ≤ RECV_BUF_SIZE
  mss : r.rcvMss ≤ 65535
  wnd : r.rcvWnd ≤ RCV_WND_MAX

/-- Our side closed, or is about to be done. -/
def WinConn.finishing (c : WinConn) : Prop :=
  c.state = .finWait1 ∨ c.state = .finWait2 ∨ c.state = .closing ∨ c.state = .lastAck ∨
    c.state = .timeWait

/-- Nothing more of the stream can come, and a window was offered since. -/
def WinConn.Settled (c : WinConn) : Prop :=
  c.state = .closing ∨ c.state = .timeWait ∨
    (c.state = .finWait1 ∨ c.state = .finWait2) ∧ c.finSent = true

/-- How far the offered window may be behind, by state. -/
structure Phase (wup : Nat) (c : WinConn) : Prop where
  lagBuf : c.state ≠ .closed → c.r.rcvOff ≤ wup + c.r.recvBuf.length + 65535
  idle : c.sched = false → wup = c.pos
  stillOpen : c.receives = true → c.closed = false
  rel : c.finishing → c.released = true
  settled : c.Settled → wup = c.pos ∧ 2 ^ c.r.wscale ∣ c.r.rcvWnd
  acked : c.state = .finWait2 → c.finSent = true
  own : c.released = true → c.state ≠ .established ∧ c.state ≠ .closeWait
  unsent : c.state = .established ∨ c.state = .closeWait → c.finSent = false

/-- **The invariant**, for a connection whose positions have the numbers from `base` on. -/
structure WinOk (base ws wup : Nat) (c : WinConn) : Prop where
  scale : c.r.wscale = ws
  num : Numbers base wup c.pos c.r
  phase : Phase wup c
  out : ∃ top, OutOk base ws top (c.wire ++ c.deferred) ∧
    (c.live = true → top ≤ wup + min c.r.rcvWnd (MAX_TCP_WINDOW * 2 ^ ws)) ∧
    ∀ tw ∈ c.tw, c.live = false ∧ tw.rcvNxt = seqAt base tw.off ∧ top ≤ (c.twAck tw).edge ws

variable {base ws wup top : Nat} {c : WinConn} {st : State}

/-- Right after a window was offered. -/
theorem Phase.of_offered (hdvd : 2 ^ c.r.wscale ∣ c.r.rcvWnd)
    (hopen : c.receives = true → c.closed = false) (hrel : c.finishing → c.released = true)
    (hacked : c.state = .finWait2 → c.finSent = true)
    (hown : c.released = true → c.state ≠ .established ∧ c.state ≠ .closeWait)
    (hunsent : c.state = .established ∨ c.state = .closeWait → c.finSent = false) :
    Phase c.pos c where
  lagBuf _ := by
    unfold pos
    omega
  idle _ := rfl
  stillOpen := hopen
  rel := hrel
  settled _ := ⟨rfl, hdvd⟩
  acked := hacked
  own := hown
  unsent := hunsent

theorem Phase.renew (h : Phase wup c) {r : RecvSide} (sched : Bool)
    (hdvd : 2 ^ r.wscale ∣ r.rcvWnd) :
    Phase { c with r, sched }.pos { c with r, sched } :=
  .of_offered hdvd h.stillOpen h.rel h.acked h.own h.unsent

/-- It does not depend on the segments, the entry, the segment size and the tuning. -/
theorem Phase.congr_tw (h : Phase wup c) {tw : Option TwWindow} {deferred wire : List SentSeg}
    {rcvMss drsWin : Nat} :
    Phase wup { c with tw, deferred, wire, r := { c.r with rcvMss, drsWin } } :=
  { h with }

/-- The connection moves to the state `st`, which asks for no more than the old one. -/
theorem Phase.move {rel : Bool} (h : Phase wup c) (hstate : c.state ≠ .closed)
    (hopen : { c with state := st, released := rel }.receives = true → c.receives = true)
    (hrel : { c with state := st, released := rel }.finishing → rel = true)
    (hset : { c with state := st, released := rel }.Settled → c.Settled)
    (hacked : st = .finWait2 → c.finSent = true) (hne : st ≠ .established ∧ st ≠ .closeWait) :
    Phase wup { c with state := st, released := rel } where
  lagBuf _ := h.lagBuf hstate
  idle := h.idle
  stillOpen hr := h.stillOpen (hopen hr)
  rel := hrel
  settled hs := h.settled (hset hs)
  acked := hacked
  own _ := hne
  unsent hs := (hs.elim hne.1 hne.2).elim

/-- A closed connection asks for nothing. -/
theorem Phase.shut (h : Phase wup c) : Phase wup { c with state := .closed } where
  lagBuf hne := absurd rfl hne
  idle := h.idle
  stillOpen hr := by simp [receives] at hr
  rel hf := by simp [finishing] at hf
  settled hf := by simp [WinConn.Settled] at hf
  acked := nofun
  own _ := ⟨nofun, nofun⟩
  unsent := nofun

theorem WinConn.pos_of_open (hclosed : c.closed = false) : c.pos = c.r.rcvOff := by
  unfold pos
  rw [if_neg (by simp [hclosed])]
  rfl

theorem WinConn.ne_closed_of_receives (hrecv : c.receives = true) : c.state ≠ .closed := by
  intro hs
  simp [receives, hs] at hrecv

/-- **A window is offered**: the numbers after it, and the segment. -/
theorem Numbers.offer {pos : Nat} {r : RecvSide} (h : Numbers base wup pos r) (forced : Nat) :
    Numbers base pos pos (r.recvWindow forced).2 ∧ 2 ^ r.wscale ∣ (r.recvWindow forced).2.rcvWnd ∧
      (⟨pos, r.rcvNxt, (r.recvWindow forced).1⟩ : SentSeg).edge r.wscale =
        pos + min (r.recvWindow forced).2.rcvWnd (MAX_TCP_WINDOW * 2 ^ r.wscale) ∧
      wup + min r.rcvWnd (MAX_TCP_WINDOW * 2 ^ r.wscale) ≤
        pos + min (r.recvWindow forced).2.rcvWnd (MAX_TCP_WINDOW * 2 ^ r.wscale) := by
  obtain ⟨hmax, hdvd, hfield, hedge⟩ :=
    RecvSide.recvWindow_edge forced h.nxt h.wupAt h.le h.lag h.wnd
  refine ⟨⟨h.nxt, h.nxt, Nat.le_refl _, Nat.le_add_right _ _, h.buf, h.mss, hmax⟩, hdvd, ?_,
    hedge⟩
  unfold SentSeg.edge
  rw [hfield]
  rfl

/-- What `send_seg` leaves alone. -/
theorem WinConn.sendSeg_frame (c : WinConn) (forced : Nat) (h : Handoff) : (c.sendSeg forced h).1 =
      { c with r := (c.r.recvWindow forced).2, sched := (c.sendSeg forced h).1.sched } := by
  cases h <;> rfl

/-- **`send_seg`** puts a segment with the largest edge on the wire, or none. -/
theorem WinConn.sendSeg_out (forced : Nat) {h : Handoff} (hws : c.r.wscale = ws)
    (hnum : Numbers base wup c.pos c.r) (hout : OutOk base ws top (c.wire ++ c.deferred))
    (htop : top ≤ wup + min c.r.rcvWnd (MAX_TCP_WINDOW * 2 ^ ws))
    (hprompt : h = .taken → c.deferred = []) :
    OutOk base ws (c.pos + min (c.r.recvWindow forced).2.rcvWnd (MAX_TCP_WINDOW * 2 ^ ws))
      ((c.wire ++ (c.sendSeg forced h).2) ++ c.deferred) := by
  obtain ⟨hnum', -, hedge, hmono⟩ := hnum.offer forced
  rw [hws] at hedge hmono
  have hraised := hout.raise (Nat.le_trans htop hmono)
  cases h with
  | taken =>
    rw [hprompt rfl, append_nil] at hraised ⊢
    rw [← hedge]
    exact hraised.snoc hnum.nxt (Nat.le_of_eq hedge.symm)
  | refused => simpa [sendSeg] using hraised
  | unrouted => simpa [sendSeg] using hraised

/-! ## The events -/

/-- **What keeps the order**: no reset with a zero window, and the driver takes a segment only
while no ACK of `tick` waits. -/
def WinConn.Prompt (c : WinConn) : WinEvent → Prop
  | .reset _ => False
  | .data seq payload _ => payload = [] ∨ ¬ (c.shut ∧ seqAfter (add32 seq payload.length) c.r.rcvNxt)
  | .fin _ h | .send _ h | .sendFin _ h | .recv _ _ _ h | .close _ h | .twAck h =>
    h = .taken → c.deferred = []
  | _ => True

/-- The connection after an event that sent `sent`. -/
def WinConn.wired (p : WinConn × List SentSeg) : WinConn :=
  { p.1 with wire := p.1.wire ++ p.2 }

theorem WinConn.wired_nil (c : WinConn) : WinConn.wired (c, []) = c := by
  unfold WinConn.wired
  rw [append_nil]

namespace WinOk

variable {forced : Nat} {hd : Handoff}

theorem tw_of_live (h : WinOk base ws wup c) (hlive : c.live = true) : ∀ tw ∈ c.tw, False := by
  obtain ⟨top, -, -, htw⟩ := h.out
  intro tw hmem
  exact absurd hlive (by rw [(htw tw hmem).1]; decide)

/-- The same segments, for a connection that is as the old one in the table. -/
theorem out_of_live (h : WinOk base ws wup c) (hlive : c.live = true) {c' : WinConn}
    (hwire : c'.wire = c.wire) (hdef : c'.deferred = c.deferred) (htw : c'.tw = c.tw)
    (hwnd : c'.r.rcvWnd = c.r.rcvWnd) :
    ∃ top, OutOk base ws top (c'.wire ++ c'.deferred) ∧
      (c'.live = true → top ≤ wup + min c'.r.rcvWnd (MAX_TCP_WINDOW * 2 ^ ws)) ∧
      ∀ tw ∈ c'.tw, c'.live = false ∧ tw.rcvNxt = seqAt base tw.off ∧
        top ≤ (c'.twAck tw).edge ws := by
  obtain ⟨top, hout, htop, -⟩ := h.out
  rw [hwire, hdef, htw, hwnd]
  exact ⟨top, hout, fun _ => htop hlive, fun tw hmem => (h.tw_of_live hlive tw hmem).elim⟩

/-- **A segment of the connection**, sent from what an event made of it before, `c₁`. The
event then leaves it in the state `st`, with our FIN sent or not. -/
theorem offered (forced : Nat) (c₁ : WinConn) (st : State) (fs : Bool) (h : WinOk base ws wup c)
    (hlive : c.live = true) (hws : c₁.r.wscale = ws) (hnum : Numbers base wup c₁.pos c₁.r)
    (hwnd : c₁.r.rcvWnd = c.r.rcvWnd) (hwire : c₁.wire = c.wire) (hdef : c₁.deferred = c.deferred)
    (htw : c₁.tw = c.tw) (hprompt : hd = .taken → c.deferred = [])
    (hphase : ∀ r sched, 2 ^ r.wscale ∣ r.rcvWnd →
      Phase { c₁ with r, sched, state := st, finSent := fs }.pos
        { c₁ with r, sched, state := st, finSent := fs }) :
    WinOk base ws c₁.pos (WinConn.wired
      ({ (c₁.sendSeg forced hd).1 with state := st, finSent := fs }, (c₁.sendSeg forced hd).2)) := by
  obtain ⟨top, hout, htop, -⟩ := h.out
  obtain ⟨hnum', hdvd, -, -⟩ := hnum.offer forced
  rw [← hwire, ← hdef] at hout
  have hout' := sendSeg_out forced hws hnum hout (hwnd ▸ htop hlive) fun ht => hdef.trans (hprompt ht)
  have hphase' := hphase (c₁.r.recvWindow forced).2 (c₁.sendSeg forced hd).1.sched hdvd
  rw [WinConn.wired, sendSeg_frame]
  refine ⟨hws, hnum', hphase'.congr_tw, _, hout', fun _ => Nat.le_of_eq rfl, fun tw hmem => ?_⟩
  have hmem' : tw ∈ c.tw := htw ▸ hmem
  exact (h.tw_of_live hlive tw hmem').elim

section

variable (h : WinOk base ws wup c)

include h

theorem send (hlive : c.live = true) (hprompt : hd = .taken → c.deferred = []) :
    WinOk base ws c.pos (WinConn.wired (c.sendSeg forced hd)) := by
  have hsent := h.offered forced c c.state c.finSent hlive h.scale h.num rfl rfl rfl rfl hprompt
    fun _ => h.phase.renew
  cases hd <;> exact hsent

theorem sendFin (hlive : c.live = true) (hrel : c.released = true) (hunsent : c.finSent ≠ true)
    (hprompt : hd = .taken → c.deferred = []) :
    WinOk base ws c.pos (WinConn.wired ({ (c.sendSeg forced hd).1 with
      finSent := decide (hd = .taken) }, (c.sendSeg forced hd).2)) := by
  have hsent := h.offered forced c c.state (decide (hd = .taken)) hlive h.scale h.num rfl rfl rfl rfl
    hprompt fun r sched hdvd => ?_
  · cases hd <;> exact hsent
  · refine .of_offered hdvd h.phase.stillOpen h.phase.rel (fun hstate => ?_) h.phase.own
      fun hstate => ?_
    · exact absurd (h.phase.acked hstate) hunsent
    · obtain ⟨hne, hne'⟩ := h.phase.own hrel
      exact (hstate.elim hne hne').elim

/-- Data is taken only while both sides are open. -/
theorem data (hlive : c.live = true) {seq : Nat} {payload : List Byte} {granted : Bool}
    (hlen : payload.length ≤ 65535)
    (hprompt : payload = [] ∨ ¬ (c.shut ∧ seqAfter (add32 seq payload.length) c.r.rcvNxt)) :
    WinOk base ws wup (WinConn.wired (c.data seq payload granted)) := by
  unfold WinConn.data
  split
  · rwa [WinConn.wired_nil]
  · rename_i hne
    have hshut := hprompt.resolve_left hne
    rw [if_neg hshut]
    split
    · rename_i hrecv
      have hnxt : c.r.rcvNxt < 2 ^ 32 := h.num.nxt ▸ Nat.mod_lt _ (by decide)
      -- After a side closed there is nothing new in the segment.
      have hadv : ∃ d, Advanced d c.r (c.r.dataQueue seq payload granted) ∧
          (c.shut = true → d = 0) := by
        cases hs : c.shut with
        | true =>
          refine ⟨0, RecvSide.dataQueue_old hnxt hlen ?_ granted, fun _ => rfl⟩
          simpa [hs] using hshut
        | false =>
          obtain ⟨d, hd⟩ := RecvSide.dataQueue_advanced hnxt seq payload granted
          exact ⟨d, hd, fun hs => Bool.noConfusion hs⟩
      obtain ⟨d, hd, hzero⟩ := hadv
      clear hprompt hshut
      generalize c.r.dataQueue seq payload granted = r' at hd ⊢
      have hclosed := h.phase.stillOpen hrecv
      have hpos : ∀ r', { c with r := r', sched := true }.pos = r'.rcvOff :=
        fun _ => pos_of_open hclosed
      have hpos' : c.pos = c.r.rcvOff := pos_of_open hclosed
      have hlag := h.phase.lagBuf (ne_closed_of_receives hrecv)
      have hbuf := hd.fits h.num.buf
      have hsize : RECV_BUF_SIZE = 2 ^ 23 := by decide
      have hws : r'.wscale = c.r.wscale := by
        unfold RecvSide.wscale
        rw [hd.scale]
      refine ⟨hws.trans h.scale, ?_, ?_, ?_⟩
      · show Numbers base wup { c with r := r', sched := true }.pos r'
        rw [hpos]
        have hnum := h.num
        rw [hpos'] at hnum
        refine ⟨?_, hd.wup.trans hnum.wupAt, ?_, ?_, hbuf, hd.mss ▸ hnum.mss, hd.wnd ▸ hnum.wnd⟩
        · rw [hd.nxt, hnum.nxt, add32_seqAt, hd.off]
        · have := hnum.le
          rw [hd.off]
          omega
        · rw [hd.off]
          have := hd.len
          omega
      · refine { h.phase with lagBuf := fun _ => ?_, idle := nofun, settled := fun hset => ?_ }
        · show r'.rcvOff ≤ wup + r'.recvBuf.length + 65535
          rw [hd.off, hd.len]
          omega
        · have hset' : c.Settled := hset
          have hfin : c.finishing := by
            rcases hset' with hs | hs | ⟨hs | hs, -⟩ <;> simp [finishing, hs]
          have hshut' : c.shut = true := by simp [shut, h.phase.rel hfin]
          obtain ⟨hwup, hdvd⟩ := h.phase.settled hset'
          show wup = { c with r := r', sched := true }.pos ∧ 2 ^ r'.wscale ∣ r'.rcvWnd
          rw [hpos, hd.off, hzero hshut', hws, hd.wnd]
          exact ⟨hwup.trans hpos', hdvd⟩
      · exact h.out_of_live hlive (append_nil _) rfl rfl hd.wnd
    · rwa [WinConn.wired_nil]

theorem takeFin (hrecv : c.receives = true) : Numbers base wup c.takeFin.pos c.takeFin.r := by
  have hnum := h.num
  have hlag := h.phase.lagBuf (ne_closed_of_receives hrecv)
  have hbuf := hnum.buf
  have hsize : RECV_BUF_SIZE = 2 ^ 23 := by decide
  have hpos : c.pos = c.r.rcvOff := pos_of_open (h.phase.stillOpen hrecv)
  have hpos' : c.takeFin.pos = c.r.rcvOff + 1 := rfl
  rw [hpos']
  rw [hpos] at hnum
  have hle := hnum.le
  refine ⟨?_, hnum.wupAt, by omega, by omega, hnum.buf, hnum.mss, hnum.wnd⟩
  show add32 c.r.rcvNxt 1 = _
  rw [hnum.nxt, add32_seqAt]

section

variable (hlive : c.live = true)

include hlive

/-- In FIN-WAIT the peer's FIN is acknowledged at once. -/
theorem finWait (hrecv : c.receives = true) (hrel : c.released = true)
    (hst : st = .closing ∨ st = .timeWait) (hprompt : hd = .taken → c.deferred = []) :
    WinOk base ws c.takeFin.pos (WinConn.wired
      ({ (c.takeFin.sendSeg forced hd).1 with state := st }, (c.takeFin.sendSeg forced hd).2)) := by
  have hsent := h.offered forced c.takeFin st c.finSent hlive h.scale (h.takeFin hrecv) rfl rfl rfl
    rfl hprompt fun r sched hdvd => ?_
  · cases hd <;> exact hsent
  · refine .of_offered hdvd (fun hr => ?_) (fun _ => hrel) (fun hf => ?_) (fun _ => ?_) (fun hf => ?_)
    · rcases hst with rfl | rfl <;> simp [receives] at hr
    · rcases hst with rfl | rfl <;> cases hf
    · rcases hst with rfl | rfl <;> simp
    · rcases hst with rfl | rfl <;> simp at hf

theorem fin (hrecv : c.receives = true) (hprompt : hd = .taken → c.deferred = []) :
    ∃ wup', WinOk base ws wup' (WinConn.wired (c.fin forced hd)) := by
  have hrel : c.state ≠ .established → c.released = true := by
    intro hne
    refine h.phase.rel ?_
    simp only [receives, Bool.or_eq_true, decide_eq_true_eq] at hrecv
    unfold finishing
    tauto
  unfold WinConn.fin
  split
  · -- ESTABLISHED: the ACK may wait.
    rename_i hs
    refine ⟨wup, h.scale, h.takeFin hrecv, ?_, h.out_of_live hlive (append_nil _) rfl rfl rfl⟩
    refine ⟨fun _ => h.phase.lagBuf (by simp [hs]), fun hsched => Bool.noConfusion hsched,
      fun hr => by simp [receives, WinConn.wired] at hr,
      fun hf => by simp [finishing, WinConn.wired] at hf,
      fun hf => by simp [WinConn.Settled, WinConn.wired] at hf,
      fun hf => by simp [WinConn.wired] at hf, fun hrel => ?_, fun _ => h.phase.unsent (.inl hs)⟩
    exact absurd hs (h.phase.own hrel).1
  · rename_i hs
    exact ⟨_, h.finWait hlive hrecv (hrel (by simp [hs])) (.inl rfl) hprompt⟩
  · rename_i hs _
    exact ⟨_, h.finWait hlive hrecv (hrel hs) (.inr rfl) hprompt⟩

/-- Only the state and the owner changed. -/
theorem moved {rel : Bool} (hphase : Phase wup { c with state := st, released := rel }) :
    WinOk base ws wup { c with state := st, released := rel } :=
  ⟨h.scale, h.num, hphase, h.out_of_live hlive rfl rfl rfl rfl⟩

theorem setClosed : WinOk base ws wup { c with state := .closed } :=
  h.moved hlive h.phase.shut

/-- Our FIN was acknowledged. -/
theorem finAcked (hsent : c.finSent = true) : WinOk base ws wup c.finAcked := by
  unfold WinConn.finAcked
  split
  · rename_i hs
    have hset : c.Settled := .inr (.inr ⟨.inl hs, hsent⟩)
    refine h.moved hlive (h.phase.move (by simp [hs]) (fun _ => ?_) (fun _ => ?_) (fun _ => hset)
      (fun _ => hsent) ⟨nofun, nofun⟩)
    · simp [receives, hs]
    · exact h.phase.rel (.inl hs)
  · rename_i hs
    refine h.moved hlive (h.phase.move (by simp [hs]) (fun hr => ?_) (fun _ => ?_)
      (fun _ => .inl hs) nofun ⟨nofun, nofun⟩)
    · simp [receives] at hr
    · exact h.phase.rel (.inr (.inr (.inl hs)))
  · exact h.setClosed hlive
  · exact h

/-- `tick` builds an ACK. -/
theorem defer : WinOk base ws c.pos { (c.build forced).1 with
      sched := false, deferred := c.deferred ++ [(c.build forced).2] } := by
  obtain ⟨top, hout, htop, -⟩ := h.out
  obtain ⟨hnum, hdvd, hedge, hmono⟩ := h.num.offer forced
  rw [h.scale] at hedge hmono
  refine ⟨h.scale, hnum, ?_, _, ?_, fun _ => Nat.le_of_eq hedge, fun tw hmem => ?_⟩
  · exact (h.phase.renew false hdvd).congr_tw
  · rw [← append_assoc]
    exact hout.snoc h.num.nxt
      (Nat.le_trans (Nat.le_trans (htop hlive) hmono) (Nat.le_of_eq hedge.symm))
  · exact (h.tw_of_live hlive tw hmem).elim

end

/-- The caller of `tick` sends what it got. -/
theorem flush {rest : List SentSeg} {s : SentSeg} (hdef : c.deferred = s :: rest) :
    WinOk base ws wup (WinConn.wired ({ c with deferred := rest }, if hd = .taken then [s] else [])) := by
  obtain ⟨top, hout, htop, htw⟩ := h.out
  refine ⟨h.scale, h.num, h.phase.congr_tw, top, ?_, htop, htw⟩
  rw [hdef] at hout
  have hsub : ((c.wire ++ if hd = .taken then [s] else []) ++ rest).Sublist (c.wire ++ s :: rest) := by
    rw [append_assoc]
    refine List.Sublist.append_left ?_ _
    split
    · exact List.Sublist.refl _
    · exact sublist_cons_self _ _
  exact ⟨fun x hx => hout.ack x (hsub.subset hx), hout.mono.sublist hsub,
    fun x hx => hout.le x (hsub.subset hx)⟩

theorem read (n : Nat) : Numbers base wup { c with r := (c.r.recv n).2 }.pos (c.r.recv n).2 := by
  refine { h.num with buf := ?_ }
  show (c.r.recvBuf.drop _).length ≤ _
  rw [length_drop]
  exact Nat.le_trans (Nat.sub_le ..) h.num.buf

end

/-- A read without an ACK: no more than a segment was not acknowledged. -/
theorem recv_quiet (forced : Nat) (h : WinOk base ws wup c) (hlive : c.live = true) {n : Nat}
    (pushed : Bool) (hquiet : c.state ≠ .closed → c.state ≠ .timeWait →
      { c with r := (c.r.recv n).2 }.timeToAck (c.r.recv n).1.length pushed forced = false) :
    WinOk base ws wup { c with r := (c.r.recv n).2 } := by
  have hphase := h.phase
  refine ⟨h.scale, h.read n, ?_, h.out_of_live hlive rfl rfl rfl rfl⟩
  refine { hphase with lagBuf := fun hne => ?_ }
  have hoff : c.r.rcvOff ≤ c.pos := Nat.le_add_right _ _
  show c.r.rcvOff ≤ wup + (c.r.recvBuf.drop _).length + 65535
  by_cases htw : c.state = .timeWait
  · have := (hphase.settled (.inr (.inl htw))).1
    omega
  cases hsched : c.sched with
  | false =>
    have := hphase.idle hsched
    omega
  | true =>
    have hmss := h.num.mss
    have hsub : sub32 c.r.rcvNxt c.r.rcvWup = c.pos - wup := by
      have hlag := h.num.lag
      rw [h.num.nxt, h.num.wupAt]
      exact sub32_seqAt h.num.le (by omega)
    have hq := hquiet hne htw
    unfold timeToAck at hq
    simp only [hsched, Bool.true_and, Bool.or_eq_false_iff, decide_eq_false_iff_not] at hq
    have hle : ¬ c.r.rcvMss < sub32 c.r.rcvNxt c.r.rcvWup := hq.1.1
    omega

section

variable (h : WinOk base ws wup c)

include h

theorem recv (hlive : c.live = true) {n : Nat} {pushed : Bool}
    (hprompt : hd = .taken → c.deferred = []) :
    ∃ wup', WinOk base ws wup' (WinConn.wired (c.recv n pushed forced hd)) := by
  unfold WinConn.recv
  dsimp only
  split
  · have hsent := h.offered forced { c with r := (c.r.recv n).2 } c.state c.finSent hlive h.scale
      (h.read n) rfl rfl rfl rfl hprompt fun _ => h.phase.renew
    cases hd <;> exact ⟨_, hsent⟩
  · rename_i hquiet
    rw [WinConn.wired_nil]
    refine ⟨wup, h.recv_quiet forced hlive pushed fun hne htw => ?_⟩
    rw [← Bool.not_eq_true]
    exact fun hack => hquiet ⟨hne, htw, hack⟩

/-- `close`: unread data resets, else our FIN is to be sent. -/
theorem close (hlive : c.live = true) (hstate : c.state = .established ∨ c.state = .closeWait)
    (hprompt : hd = .taken → c.deferred = []) :
    ∃ wup', WinOk base ws wup' (WinConn.wired (c.close forced hd)) := by
  have hphase := h.phase
  unfold WinConn.close
  split
  · have hsent := h.offered forced { c with released := true } .closed c.finSent hlive h.scale h.num
      rfl rfl rfl rfl hprompt fun r sched hdvd => .of_offered hdvd (fun hr => by simp [receives] at hr)
        (fun _ => rfl) (nofun) (fun _ => by simp) (fun hf => by simp at hf)
    cases hd <;> exact ⟨_, hsent⟩
  · split
    · rename_i hest
      rw [WinConn.wired_nil]
      refine ⟨wup, h.moved hlive (hphase.move (by simp [hest]) (fun _ => ?_) (fun _ => rfl)
        (fun hf => ?_) nofun ⟨nofun, nofun⟩)⟩
      · simp [receives, hest]
      · -- Our FIN is still to be sent.
        simp [WinConn.Settled, hphase.unsent hstate] at hf
    · rename_i hest
      rw [WinConn.wired_nil]
      have hcw := hstate.resolve_left hest
      refine ⟨wup, h.moved hlive (hphase.move (by simp [hcw]) (fun hr => ?_) (fun _ => rfl)
        (fun hf => ?_) nofun ⟨nofun, nofun⟩)⟩
      · simp [receives] at hr
      · simp [WinConn.Settled] at hf

theorem tune {rcvMss : Nat} (hmss : rcvMss ≤ 65535) (drsWin : Nat) :
    WinOk base ws wup { c with r := { c.r with rcvMss, drsWin } } :=
  ⟨h.scale, { h.num with mss := hmss }, h.phase.congr_tw, h.out⟩

/-- The entry offers what the connection offered last. -/
theorem fromConn_edge (hset : wup = c.pos ∧ 2 ^ c.r.wscale ∣ c.r.rcvWnd) :
    (c.twAck c.fromConn).edge ws = wup + min c.r.rcvWnd (MAX_TCP_WINDOW * 2 ^ ws) := by
  obtain ⟨hwup, k, hk⟩ := hset
  have hrest : c.r.receiveWindow = c.r.rcvWnd := by
    rw [RecvSide.receiveWindow_eq h.num.nxt h.num.wupAt h.num.le h.num.lag h.num.wnd, hwup]
    exact Nat.add_sub_cancel_left _ _
  have hpos : 0 < 2 ^ ws := Nat.two_pow_pos ws
  show c.pos + min (c.r.receiveWindow / 2 ^ c.r.wscale) 65535 * 2 ^ ws = _
  rw [hrest, hwup, hk, h.scale, Nat.mul_div_cancel_left _ hpos, Nat.mul_comm (2 ^ ws) k,
    ← Nat.mul_min_mul_right]
  rfl

/-- The hand-over: the connection is gone, its entry answers. -/
theorem timeWait (hlive : c.live = true)
    (hstate : c.state = .timeWait ∨ c.state = .finWait2 ∧ c.released = true) (room : Bool) :
    WinOk base ws wup { c with
      state := .closed, tw := if room then some c.fromConn else none } := by
  have hphase := h.phase
  have hset : wup = c.pos ∧ 2 ^ c.r.wscale ∣ c.r.rcvWnd := by
    refine hphase.settled ?_
    rcases hstate with hs | ⟨hs, -⟩
    · exact .inr (.inl hs)
    · exact .inr (.inr ⟨.inr hs, hphase.acked hs⟩)
  have hrel : c.released = true := by
    rcases hstate with hs | ⟨-, hr⟩
    · exact hphase.rel (by simp [finishing, hs])
    · exact hr
  have hgone : { c with
      state := .closed, tw := if room then some c.fromConn else none }.live = false := by
    simp [live, hrel]
  obtain ⟨top, hout, htop, -⟩ := h.out
  refine ⟨h.scale, h.num, hphase.shut.congr_tw, top, hout, fun hl => ?_, fun tw hmem => ?_⟩
  · exact absurd hl (by rw [hgone]; decide)
  · have htw : tw = c.fromConn := by
      cases room with
      | false => simp at hmem
      | true => simpa using hmem.symm
    rw [htw]
    refine ⟨hgone, h.num.nxt, ?_⟩
    show top ≤ (c.twAck c.fromConn).edge ws
    rw [h.fromConn_edge hset]
    exact htop hlive

theorem twFin : WinOk base ws wup { c with tw := c.tw.map fun tw =>
      if tw.finWait2 then ⟨false, tw.off + 1, add32 tw.rcvNxt 1, tw.rcvWnd⟩ else tw } := by
  obtain ⟨top, hout, htop, htw⟩ := h.out
  refine ⟨h.scale, h.num, h.phase.congr_tw, top, hout, htop, fun tw' hmem => ?_⟩
  obtain ⟨tw, htwc, rfl⟩ := Option.mem_map.mp hmem
  obtain ⟨hgone, hnxt, hle⟩ := htw tw htwc
  refine ⟨hgone, ?_⟩
  split
  · refine ⟨?_, Nat.le_trans hle ?_⟩
    · rw [hnxt, add32_seqAt]
    · -- The FIN moves the edge, as the window is kept.
      exact Nat.add_le_add_right (Nat.le_succ _) _
  · exact ⟨hnxt, hle⟩

theorem twAck (hprompt : hd = .taken → c.deferred = []) : WinOk base ws wup
      (WinConn.wired (c, if hd = .taken then (c.tw.map c.twAck).toList else [])) := by
  obtain ⟨top, hout, htop, htw⟩ := h.out
  split
  · rename_i htaken
    cases hc : c.tw with
    | none => exact c.wired_nil.symm ▸ h
    | some tw =>
      obtain ⟨hgone, hnxt, hle⟩ := htw tw hc
      rw [hprompt htaken, append_nil] at hout
      have hnew : OutOk base ws ((c.twAck tw).edge ws) ((c.wire ++ [c.twAck tw]) ++ c.deferred) := by
        rw [hprompt htaken, append_nil]
        exact hout.snoc hnxt hle
      refine ⟨h.scale, h.num, h.phase.congr_tw, _, hnew, fun hl => ?_, fun tw' hmem => ?_⟩
      · exact absurd hl (by rw [show (WinConn.wired _).live = c.live from rfl, hgone]; decide)
      · have heq : tw' = tw := Option.some_inj.mp (hmem.symm.trans hc)
        rw [heq]
        exact ⟨hgone, hnxt, Nat.le_refl _⟩
  · rwa [WinConn.wired_nil]

theorem twGone : WinOk base ws wup { c with tw := none } := by
  obtain ⟨top, hout, htop, -⟩ := h.out
  exact ⟨h.scale, h.num, h.phase.congr_tw, top, hout, htop, nofun⟩

/-- An event that sends nothing. -/
theorem wired_nil : WinOk base ws wup (WinConn.wired (c, [])) := by
  rwa [WinConn.wired_nil]

/-- **One event** in order keeps the invariant. -/
theorem step {c' : WinConn} {e : WinEvent} (hstep : c.Step e c') (hprompt : c.Prompt e) :
    ∃ wup', WinOk base ws wup' c' := by
  obtain ⟨hen, rfl⟩ := hstep
  cases e with
  | data seq payload granted => exact ⟨_, h.data hen.1 hen.2 hprompt⟩
  | fin forced hd => exact h.fin hen.1 hen.2 hprompt
  | send forced hd => exact ⟨_, h.send hen.1 hprompt⟩
  | sendFin forced hd => exact ⟨_, h.sendFin hen.1 hen.2.1 hen.2.2.1 hprompt⟩
  | finAcked => exact ⟨_, (h.finAcked hen.1 hen.2).wired_nil⟩
  | defer forced => exact ⟨_, (h.defer hen).wired_nil⟩
  | flush hd =>
    refine ⟨wup, ?_⟩
    rw [WinConn.step]
    cases hdef : c.deferred with
    | nil => exact h.wired_nil
    | cons s rest => exact h.flush hdef
  | recv n pushed forced hd => exact h.recv hen hprompt
  | close forced hd => exact h.close hen.1 hen.2 hprompt
  | tune rcvMss drsWin => exact ⟨_, (h.tune hen drsWin).wired_nil⟩
  | timeWait room => exact ⟨_, (h.timeWait hen.1 hen.2 room).wired_nil⟩
  | twFin => exact ⟨_, h.twFin.wired_nil⟩
  | twAck hd => exact ⟨_, h.twAck hprompt⟩
  | twGone => exact ⟨_, h.twGone.wired_nil⟩
  | reset ack => exact hprompt.elim
  | setClosed => exact ⟨_, (h.setClosed hen).wired_nil⟩

end

end WinOk

/-! ## Runs -/

/-- A connection right after its handshake, before its first segment. -/
structure WinConn.Fresh (irs : Nat) (c : WinConn) : Prop where
  state : c.state = .established
  nxt : c.r.rcvNxt = seqAt (irs + 1) 0
  off : c.r.rcvOff = 0
  wup : c.r.rcvWup = c.r.rcvNxt
  wnd : c.r.rcvWnd = INITIAL_WINDOW
  mss : c.r.rcvMss ≤ 65535
  buf : c.r.recvBuf = []
  closed : c.closed = false
  released : c.released = false
  finSent : c.finSent = false
  tw : c.tw = none
  deferred : c.deferred = []
  wire : c.wire = []

theorem WinConn.Fresh.ok {irs : Nat} (h : c.Fresh irs) : WinOk (irs + 1) c.r.wscale 0 c := by
  have hpos : c.pos = 0 := by
    unfold pos
    rw [h.off, h.closed]
    rfl
  refine ⟨rfl, ?_, ?_, 0, ?_, fun _ => Nat.zero_le _, fun tw hmem => ?_⟩
  · rw [hpos]
    refine ⟨h.nxt, h.wup.trans h.nxt, Nat.le_refl _, Nat.zero_le _, ?_, h.mss, ?_⟩
    · rw [h.buf]
      exact Nat.zero_le _
    · rw [h.wnd]
      decide
  · refine ⟨fun _ => by rw [h.off]; exact Nat.zero_le _, fun _ => hpos.symm, fun _ => h.closed,
      fun hf => ?_, fun hf => ?_, fun hf => ?_, fun hr => ?_, fun _ => h.finSent⟩
    · simp [finishing, h.state] at hf
    · simp [WinConn.Settled, h.state] at hf
    · simp [h.state] at hf
    · simp [h.released] at hr
  · rw [h.wire, h.deferred]
    exact ⟨fun s hs => absurd hs not_mem_nil, .nil, fun s hs => absurd hs not_mem_nil⟩
  · rw [h.tw] at hmem
    cases hmem

theorem WinConn.ok_run {c₀ : WinConn} {es : List WinEvent} (h : WinOk base ws wup c₀)
    (hrun : Run (fun c e c' => WinConn.Step c e c' ∧ c.Prompt e) c₀ es c) :
    ∃ wup', WinOk base ws wup' c :=
  Run.invariant (I := fun c => ∃ wup', WinOk base ws wup' c)
    (fun _ _ _ hc hstep => hc.elim fun _ hc => hc.step hstep.1 hstep.2) hrun ⟨wup, h⟩

/-- The peer's edge is the number of the edge's position. -/
theorem OutOk.wireEdge {l : List SentSeg} (h : OutOk base ws top l) {s : SentSeg} (hs : s ∈ l) :
    s.wireEdge ws = seqAt base (s.edge ws) := by
  unfold SentSeg.wireEdge SentSeg.edge
  rw [h.ack s hs, add32_seqAt]

/-- **The offered window does not shrink**, in every run in which no segment goes out while an ACK
of `tick` waits and no reset with a zero window is sent: of any two segments on the wire the later
one has the larger edge, and the edge that the peer computes, modulo 2^32, moves right by exactly
the difference. -/
theorem window_kept {irs : Nat} {c₀ : WinConn} {es : List WinEvent} (hfresh : c₀.Fresh irs)
    (hrun : Run (fun c e c' => WinConn.Step c e c' ∧ c.Prompt e) c₀ es c) :
    c.wire.Pairwise fun a b =>
      a.edge c.r.wscale ≤ b.edge c.r.wscale ∧
      sub32 (b.wireEdge c.r.wscale) (a.wireEdge c.r.wscale) =
        (b.edge c.r.wscale - a.edge c.r.wscale) % 2 ^ 32 ∧
      (b.edge c.r.wscale - a.edge c.r.wscale < 2 ^ 31 →
        seqBefore (b.wireEdge c.r.wscale) (a.wireEdge c.r.wscale) = false) := by
  obtain ⟨wup, h⟩ := ok_run hfresh.ok hrun
  obtain ⟨top, hout, -, -⟩ := h.out
  have hmono := (pairwise_append.mp hout.mono).1
  rw [h.scale]
  refine hmono.imp_of_mem fun {a b} ha hb hle => ?_
  rw [hout.wireEdge (mem_append_left _ ha), hout.wireEdge (mem_append_left _ hb)]
  have hsub : sub32 (seqAt (irs + 1) (b.edge c₀.r.wscale)) (seqAt (irs + 1) (a.edge c₀.r.wscale)) =
      (b.edge c₀.r.wscale - a.edge c₀.r.wscale) % 2 ^ 32 := by
    unfold sub32 seqAt
    omega
  refine ⟨hle, hsub, fun hlt => ?_⟩
  unfold seqBefore
  rw [hsub, decide_eq_false_iff_not]
  omega

/-- A connection with window scaling, after its handshake. -/
def scaledConn : WinConn :=
  ⟨.established, ⟨1, 0, 1, 65535, 536, 65535, true, true, [], [], 0, [], none⟩,
    false, false, false, false, none, [], []⟩

theorem scaledConn_fresh : scaledConn.Fresh 0 :=
  ⟨rfl, rfl, rfl, rfl, rfl, by decide, rfl, rfl, rfl, rfl, rfl, rfl, rfl⟩

/-- Two ACKs with bytes read in between. -/
theorem window_kept_scaled : ∃ c : WinConn,
    Run (fun c e c' => WinConn.Step c e c' ∧ c.Prompt e) scaledConn
      [.data 1 [1, 2] true, .defer 0, .flush .taken, .recv 2 false 0 .taken, .send 0 .taken] c ∧
    c.wire.Pairwise (fun a b => a.edge 8 ≤ b.edge 8) ∧ c.wire.length = 2 := by
  have hrun : Run (fun c e c' => WinConn.Step c e c' ∧ c.Prompt e) scaledConn
      [.data 1 [1, 2] true, .defer 0, .flush .taken, .recv 2 false 0 .taken, .send 0 .taken] _ :=
    .cons ⟨⟨⟨rfl, by decide⟩, rfl⟩, .inr (by decide)⟩ (.cons ⟨⟨rfl, rfl⟩, trivial⟩
      (.cons ⟨⟨trivial, rfl⟩, trivial⟩ (.cons ⟨⟨rfl, rfl⟩, fun _ => rfl⟩
        (.cons ⟨⟨⟨rfl, by decide⟩, rfl⟩, fun _ => rfl⟩ (.nil _)))))
  exact ⟨_, hrun, (window_kept scaledConn_fresh hrun).imp fun h => h.1, by decide⟩

/-- An ACK that `tick` built is overtaken. A request comes and is acknowledged and answered;
256 more bytes come, whose ACK is delayed until `tick` builds it. Before it goes out the
application reads them and sends a segment of its own, with the window that has grown; the ACK
follows, and its edge is 256 bytes to the left of the one before. -/
theorem overtaken_ack_shrinks : ∃ c : WinConn,
    Run WinConn.Step scaledConn
      [.data 1 [1] true, .send 0 .taken, .recv 1 false 0 .taken, .send 0 .taken,
        .data 2 (List.replicate 256 0) true, .defer 0,
        .recv 256 false 0 .taken, .send 0 .taken, .flush .taken] c ∧
    c.wire.map (SentSeg.wireEdge 8) = [262146, 262146, 262402, 262146] ∧
    seqBefore 262146 262402 = true := by
  have hlen : (List.replicate 256 (0 : Byte)).length ≤ 65535 := by
    rw [length_replicate]
    decide
  refine ⟨_, .cons ⟨⟨rfl, by decide⟩, rfl⟩ (.cons ⟨⟨rfl, by decide⟩, rfl⟩ (.cons ⟨rfl, rfl⟩
    (.cons ⟨⟨rfl, by decide⟩, rfl⟩ (.cons ⟨⟨rfl, hlen⟩, rfl⟩
      (.cons ⟨show live _ = true by decide +kernel, rfl⟩
        (.cons ⟨show live _ = true by decide +kernel, rfl⟩
          (.cons ⟨⟨by decide +kernel, by decide +kernel⟩, rfl⟩
            (.cons ⟨trivial, rfl⟩ (.nil _))))))))), ?_, by decide⟩
  decide +kernel

end NopeekOS.Net
