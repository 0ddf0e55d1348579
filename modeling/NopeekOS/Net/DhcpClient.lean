import NopeekOS.Net.DhcpLease

/-!
# The DHCP client (dhcp.rs)

INIT, SELECTING, REQUESTING and BOUND, INIT-REBOOT when it held an address, RENEWING at T1 by
unicast, REBINDING at T2 by broadcast, back to INIT when the lease expires or a server says NAK.
Four timers; `tick` fires those that are due, the earliest first.

The methods of the source take the client, a random generator and an `Out` to append to; here the
three are one `Ctx`. The generator is the stream of what it will answer. The caller's `Out` is only
ever appended to, so one that is kept over all calls holds what the calls reported, in order.

`tick` is a loop that need not end: it has a number of turns, and `none` means they did not do.
Times and counters are `u64`; sums saturate or wrap as the source writes them.
-/

namespace NopeekOS.Net.Dhcp

open Lib

def DHCP_DISCOVER : Byte := 1
def DHCP_OFFER : Byte := 2
def DHCP_REQUEST : Byte := 3
def DHCP_DECLINE : Byte := 4
def DHCP_ACK : Byte := 5
def DHCP_NAK : Byte := 6

def RESTART_AFTER_NAK_MIN_USEC : Nat := USEC_PER_SEC
def RESTART_AFTER_NAK_MAX_USEC : Nat := 30 * 60 * USEC_PER_SEC
def MAX_REQUEST_ATTEMPTS_ON_REBOOTING : Nat := 2
def MAX_REQUEST_ATTEMPTS : Nat := 5
def TRANSIENT_FAILURE_ATTEMPTS : Nat := 3

def REQ_OPTS : List Byte :=
  [OPT_SUBNET_MASK, OPT_ROUTER, OPT_DOMAIN_NAME_SERVER, OPT_HOST_NAME,
   OPT_DOMAIN_NAME, OPT_MTU_INTERFACE, OPT_STATIC_ROUTE, OPT_CLASSLESS_STATIC_ROUTE]

inductive State where
  | stopped
  | init
  | selecting
  | initReboot
  | rebooting
  | requesting
  | bound
  | renewing
  | rebinding
  deriving DecidableEq, Repr

/-- The states in which a lease is held (dhcp.rs:336). -/
def State.held : State → Bool
  | .bound | .renewing | .rebinding => true
  | .stopped | .init | .selecting | .initReboot | .rebooting | .requesting => false

inductive Event where
  /-- An offer was taken. -/
  | selecting
  /-- A first lease. -/
  | ipAcquire
  /-- A renewed lease with another address, mask or router. -/
  | ipChange
  /-- The same binding, renewed. -/
  | renew
  /-- The lease is gone. -/
  | expired
  | stop
  | transientFailure
  deriving DecidableEq, Repr

inductive Dest where
  | broadcast
  | server (a : Addr)
  deriving DecidableEq, Repr

/-- Which replies the client listens for. -/
inductive Rx where
  | none
  /-- Every datagram to port 68. -/
  | raw
  /-- Only those to the leased address. -/
  | udp
  deriving DecidableEq, Repr

structure Out where
  send : List (Dest × List Byte) := []
  events : List Event := []

/-! ## Times -/

/-- `saturating_add`. -/
def satAdd (a b : Nat) : Nat := min (a + b) INFINITY

/-- `fuzz` (dhcp.rs:140), of what the generator answered: -1 to +1 s. -/
def fuzz (r : Nat) : Int := (r % (2 * USEC_PER_SEC) : Nat) - (USEC_PER_SEC : Int)

/-- `sub_signed` (dhcp.rs:145). -/
def subSigned (t : Nat) (delta : Int) : Nat :=
  if delta < 0 then satAdd t delta.natAbs
  else if t = INFINITY then INFINITY
  else t - delta.toNat

/-- `request_timeout` (dhcp.rs:157): 4 s doubling to 64 s, ±1 s. -/
def requestTimeout (attempt r : Nat) : Nat :=
  subSigned (2 ^ min ((attempt + 1) % 2 ^ 64) 6 * USEC_PER_SEC) (fuzz r)

/-- `reacquisition_timeout` (dhcp.rs:163). -/
def reacquisitionTimeout (now expire : Nat) : Nat := max ((expire - now) / 2) (60 * USEC_PER_SEC)

/-- `usec_to_sec16` (dhcp.rs:168). -/
def usecToSec16 (t : Nat) : BitVec 16 :=
  if t = INFINITY then 0xffff
  else if (0xffff - 1) * USEC_PER_SEC ≤ t then 0xffff - 1
  else BitVec.ofNat 16 ((t + USEC_PER_SEC - 1) / USEC_PER_SEC)

/-! ## The client -/

structure Client where
  state : State
  hw : Vector Byte 6
  mtu : Nat
  rapidCommit : Bool
  requestBroadcast : Bool
  lastAddr : Addr
  xid : BitVec 32
  startTime : Nat
  startDelay : Nat
  t1Time : Nat
  t2Time : Nat
  expireTime : Nat
  discoverAttempt : Nat
  requestAttempt : Nat
  maxDiscoverAttempts : Nat
  lease : Option Lease
  rx : Rx
  timeoutResend : Option Nat
  timeoutT1 : Option Nat
  timeoutT2 : Option Nat
  timeoutExpire : Option Nat

/-- The timers, in the order `tick` lists them (dhcp.rs:374). -/
inductive Timer where
  | expire
  | t2
  | t1
  | resend
  deriving DecidableEq, Repr

namespace Client

/-- `Client::new` (dhcp.rs:206). -/
def new (hw : Vector Byte 6) (mtu : Nat) : Client where
  state := .stopped
  hw := hw
  mtu := mtu
  rapidCommit := true
  requestBroadcast := false
  lastAddr := 0
  xid := 0
  startTime := 0
  startDelay := 0
  t1Time := 0
  t2Time := 0
  expireTime := 0
  discoverAttempt := 0
  requestAttempt := 0
  maxDiscoverAttempts := 2 ^ 64 - 1
  lease := none
  rx := .none
  timeoutResend := none
  timeoutT1 := none
  timeoutT2 := none
  timeoutExpire := none

variable (c : Client)

/-- `set_request_address` (dhcp.rs:245). -/
def setRequestAddress (a : Option Addr) : Client := { c with lastAddr := a.getD 0 }

/-- `set_mtu` (dhcp.rs:251). -/
def setMtu (mtu : Nat) : Client := if 68 ≤ mtu then { c with mtu := mtu } else c

/-- When a timer is due. -/
def timer : Timer → Option Nat
  | .expire => c.timeoutExpire
  | .t2 => c.timeoutT2
  | .t1 => c.timeoutT1
  | .resend => c.timeoutResend

/-- `set_state` (dhcp.rs:263): a new cycle starts its attempts over. -/
def setState (s : State) : Client :=
  if c.state = s then c
  else
    match s with
    | .stopped | .bound => { c with state := s, discoverAttempt := 0 }
    | .rebooting | .requesting | .renewing | .rebinding =>
      { c with state := s, requestAttempt := 0 }
    | .init | .selecting | .initReboot => { c with state := s }

/-- `disable_event_sources` (dhcp.rs:278). -/
def disableEventSources : Client :=
  { c with
    rx := .none
    timeoutResend := none
    timeoutT1 := none
    timeoutT2 := none
    timeoutExpire := none }

/-- `client_initialize` (dhcp.rs:287). -/
def clientInitialize : Client :=
  { c.disableEventSources.setState .stopped with xid := 0, lease := none }

/-- `enter_requesting` (dhcp.rs:605). -/
def enterRequesting (now : Nat) : Client :=
  { c.disableEventSources.setState .requesting with timeoutResend := some now }

/-- The requested address of a message (dhcp.rs:483), and whether the lease's address goes into
`ciaddr` instead. -/
def requestedAddr (kind : Byte) : Addr × Bool :=
  let leaseAddr := c.lease.elim 0 (·.address)
  if kind = DHCP_DISCOVER then (c.lastAddr, false)
  else if kind = DHCP_REQUEST then
    match c.state with
    | .requesting => (leaseAddr, false)
    | .rebooting => (c.lastAddr, false)
    | _ => (0, true)
  else (leaseAddr, false)

/-- `new_message` (dhcp.rs:463). -/
def newMessage (kind : Byte) (now : Nat) : Message :=
  let m := Message.new BOOTREQUEST c.xid c.hw
  let elapsed := now - c.startTime
  let m := { m with secs := usecToSec16 (if elapsed = 0 then USEC_PER_SEC else elapsed) }
  let m := m.setBroadcastFlag c.requestBroadcast
  let leaseAddr := c.lease.elim 0 (·.address)
  let server := c.lease.elim 0 (·.serverAddress)
  let m := (m.appendOption OPT_MESSAGE_TYPE [kind]).1
  let m := if (kind = DHCP_REQUEST ∧ c.state = .requesting) ∨ kind = DHCP_DECLINE then
      (m.appendOption OPT_SERVER_IDENTIFIER (toBe32 server)).1 else m
  let m := (m.appendOption OPT_CLIENT_IDENTIFIER (ARPHRD_ETHER :: c.hw.toList)).1
  let (addr, inCiaddr) := c.requestedAddr kind
  let m := if inCiaddr then { m with ciaddr := leaseAddr } else m
  let m := if addr ≠ 0 then (m.appendOption OPT_REQUESTED_IP_ADDRESS (toBe32 addr)).1 else m
  if kind = DHCP_DECLINE then m
  else
    let prl := REQ_OPTS.insertionSort fun a b => a.toNat ≤ b.toNat
    let m := (m.appendOption OPT_PARAMETER_REQUEST_LIST prl).1
    let most := BitVec.ofNat 16 (min (max c.mtu IPV4_MIN_REASSEMBLY_SIZE) 0xffff)
    let m := (m.appendOption OPT_MAXIMUM_MESSAGE_SIZE (toBe16 most)).1
    if c.rapidCommit ∧ kind = DHCP_DISCOVER then (m.appendOption OPT_RAPID_COMMIT []).1 else m

/-- What a reply says: the message type, with the lease an OFFER or ACK carries. -/
inductive Reply where
  | offer (l : Lease)
  | ack (l : Lease)
  | nak

/-- Whether an ACK is taken (dhcp.rs:546): in answer to a REQUEST, or to a DISCOVER that asked for
it. -/
def takesAck (m : Message) : Bool :=
  match c.state with
  | .selecting => c.rapidCommit && (m.optionExact OPT_RAPID_COMMIT 0).isSome
  | .rebooting | .requesting | .renewing | .rebinding => true
  | .stopped | .init | .initReboot | .bound => false

/-- Whether a NAK is taken (dhcp.rs:557): in answer to a REQUEST, and it names the lease's
server. -/
def takesNak (m : Message) : Bool :=
  match c.state with
  | .rebooting | .requesting | .renewing | .rebinding =>
    (m.optionAddr OPT_SERVER_IDENTIFIER).any fun server =>
      !c.lease.any (·.serverAddress ≠ server)
  | .stopped | .init | .selecting | .initReboot | .bound => false

/-- `parse_message` (dhcp.rs:535). -/
def parseMessage (b : List Byte) : Option Reply := do
  let m ← (Message.parse b BOOTREPLY (some c.xid) (some c.hw)).toOption
  let kind ← m.optionU8 OPT_MESSAGE_TYPE
  if kind = DHCP_OFFER then
    if c.state = .selecting then (Lease.fromMessage m 0).map .offer else none
  else if kind = DHCP_ACK then
    if c.takesAck m then (Lease.fromMessage m 0).map .ack else none
  else if kind = DHCP_NAK then
    if c.takesNak m then some .nak else none
  else none

/-- Whether the client takes a datagram (dhcp.rs:580); `toLeaseAddr` says that it was addressed to
the leased address. -/
def hears (toLeaseAddr : Bool) : Bool :=
  match c.rx with
  | .none => false
  | .udp => toLeaseAddr
  | .raw => true

/-- What an ACK that grants `l` is reported as (dhcp.rs:613). -/
def boundEvent (l : Lease) : Event :=
  match c.state with
  | .renewing | .rebinding => if c.lease.any (·.sameBinding l) then .renew else .ipChange
  | .stopped | .init | .selecting | .initReboot | .rebooting | .requesting | .bound => .ipAcquire

/-- The earlier of two timers that are due; of two at one time the one listed first, as the
number in the source's pair decides. -/
def earlier (best : Option (Nat × Timer)) (x : Nat × Timer) : Option (Nat × Timer) :=
  match best with
  | none => some x
  | some y => if x.1 < y.1 then some x else some y

/-- The timer `tick` fires next (dhcp.rs:374). -/
def due (now : Nat) : Option (Nat × Timer) :=
  let timers := [Timer.expire, .t2, .t1, .resend].filterMap fun k =>
    ((c.timer k).filter (· ≤ now)).map (·, k)
  timers.foldl earlier none

end Client

/-! ## The client with its generator and what it reported -/

structure Ctx where
  client : Client
  /-- What the generator answers from here on. -/
  rnd : Nat → Nat
  out : Out

namespace Ctx

def new (hw : Vector Byte 6) (mtu : Nat) (rnd : Nat → Nat) : Ctx := ⟨Client.new hw mtu, rnd, {}⟩

variable (x : Ctx)

/-- Behind one use of the generator. -/
def drawn : Ctx := { x with rnd := fun n => x.rnd (n + 1) }

def withClient (c : Client) : Ctx := { x with client := c }

/-- An event is reported. -/
def push (e : Event) : Ctx :=
  { x with out := { x.out with events := x.out.events ++ [e] } }

/-- `send_message` (dhcp.rs:516). -/
def sendMessage (kind : Byte) (now : Nat) : Ctx :=
  match (x.client.newMessage kind now).build with
  | .error _ => x
  | .ok bytes =>
    let go (dest : Dest) (rx : Rx) : Ctx :=
      { x with
        client := { x.client with rx := rx }
        out := { x.out with send := x.out.send ++ [(dest, bytes)] } }
    if kind = DHCP_REQUEST ∧ x.client.state = .renewing then
      match x.client.lease with
      | none => x
      | some l => if l.address = 0 then x else go (.server l.serverAddress) .udp
    else if kind = DHCP_DECLINE then go .broadcast .none
    else go .broadcast .raw

/-- `stop_with` (dhcp.rs:295), which is also `stop` (dhcp.rs:303). -/
def stop : Ctx :=
  let x := if x.client.state ≠ .stopped then x.push .stop else x
  x.withClient x.client.clientInitialize

/-- `start_delayed` (dhcp.rs:308). -/
def startDelayed (now : Nat) : Ctx :=
  let c := x.client.disableEventSources
  let c := { c with lease := none, xid := BitVec.ofNat 32 (x.rnd 0), startTime := now }
  let c := if c.state ≠ .initReboot then c.setState .init else c
  x.drawn.withClient { c with timeoutResend := some (satAdd now c.startDelay) }

/-- `start_now` (dhcp.rs:319). -/
def startNow (now : Nat) : Ctx :=
  (x.withClient { x.client with startDelay := 0 }).startDelayed now

/-- `restart` (dhcp.rs:335): after a NAK or a REQUEST nobody answered. -/
def restart (now : Nat) : Ctx :=
  let x := if x.client.state.held then x.push .expired else x
  if x.client.state = .rebooting then x.startNow now
  else
    let delay := min (max (x.client.startDelay * 2 % 2 ^ 64) RESTART_AFTER_NAK_MIN_USEC)
      RESTART_AFTER_NAK_MAX_USEC
    (x.withClient { x.client with startDelay := delay }).startDelayed now

/-- The end of `timeout_resend_fired` (dhcp.rs:450): the next one, and the message itself. -/
def resend (now next : Nat) : Ctx :=
  let x := x.withClient { x.client with timeoutResend := some (satAdd now next) }
  if x.client.state = .selecting then
    let x := x.sendMessage DHCP_DISCOVER now
    if TRANSIENT_FAILURE_ATTEMPTS ≤ x.client.discoverAttempt then x.push .transientFailure else x
  else x.sendMessage DHCP_REQUEST now

/-- A DISCOVER, or the end of trying (dhcp.rs:419). -/
def fireDiscover (now : Nat) : Ctx :=
  let c := x.client.setState .selecting
  if c.maxDiscoverAttempts ≤ c.discoverAttempt then (x.withClient c).stop
  else
    let c := { c with discoverAttempt := c.discoverAttempt + 1 }
    (x.drawn.withClient c).resend now (requestTimeout c.discoverAttempt (x.rnd 0))

/-- A REQUEST in state `s`, at most `attempts` of them, or back to INIT (dhcp.rs:428, 438); the
interval is cut by `part`. -/
def fireRequest (s : State) (attempts part now : Nat) : Ctx :=
  let c := x.client.setState s
  if attempts ≤ c.requestAttempt then (x.withClient c).restart now
  else
    let c := { c with requestAttempt := c.requestAttempt + 1 }
    (x.drawn.withClient c).resend now (requestTimeout c.requestAttempt (x.rnd 0) / part)

/-- `timeout_resend_fired` (dhcp.rs:415). -/
def timeoutResendFired (now : Nat) : Ctx :=
  match x.client.state with
  | .renewing => x.resend now (reacquisitionTimeout now x.client.t2Time)
  | .rebinding => x.resend now (reacquisitionTimeout now x.client.expireTime)
  | .init | .selecting => x.fireDiscover now
  | .initReboot | .rebooting =>
    x.fireRequest .rebooting MAX_REQUEST_ATTEMPTS_ON_REBOOTING 4 now
  | .requesting => x.fireRequest .requesting MAX_REQUEST_ATTEMPTS 1 now
  | .stopped | .bound => x

/-- `timeout_expire_fired` (dhcp.rs:409). -/
def timeoutExpireFired (now : Nat) : Ctx := (x.push .expired).startNow now

/-- One turn of the loop of `tick` (dhcp.rs:383). -/
def fire (now : Nat) : Timer → Ctx
  | .expire => (x.withClient { x.client with timeoutExpire := none }).timeoutExpireFired now
  | .t2 =>
    let c := { x.client with timeoutT2 := none, rx := .none }
    (x.withClient (c.setState .rebinding)).timeoutResendFired now
  | .t1 =>
    let c := { x.client with timeoutT1 := none }
    (x.withClient (c.setState .renewing)).timeoutResendFired now
  | .resend => (x.withClient { x.client with timeoutResend := none }).timeoutResendFired now

/-- `tick` (dhcp.rs:372), as far as `fuel` turns of its loop go. -/
def tick (now : Nat) : Nat → Ctx → Option Ctx
  | 0, _ => none
  | fuel + 1, x =>
    match x.client.due now with
    | none => some x
    | some (_, k) => tick now fuel (x.fire now k)

/-- `start` (dhcp.rs:326): INIT-REBOOT when an address is to be asked for again. -/
def start (now : Nat) : Ctx :=
  let c := if x.client.lastAddr ≠ 0 then x.client.setState .initReboot else x.client
  (x.withClient c).startNow now

/-- `send_renew` (dhcp.rs:350), up to its `tick`; `none` where it returns before that. -/
def sendRenew (now : Nat) : Option Ctx :=
  if x.client.state ≠ .bound then none
  else
    let c := { x.client.setState .renewing with startDelay := 0, timeoutResend := some now }
    some (x.withClient c)

/-- `send_decline` (dhcp.rs:362), up to its `tick`. -/
def sendDecline (now : Nat) : Option Ctx :=
  if x.client.state = .stopped ∨ x.client.lease = none then none
  else some ((x.sendMessage DHCP_DECLINE now).restart now)

/-- `set_lease_timeouts` (dhcp.rs:634) for the lease `l`: T1 and T2 with ±1 s, none for a lease
that never ends. -/
def setLeaseTimeouts (l : Lease) (now : Nat) : Ctx :=
  if l.lifetime = INFINITY then
    x.withClient { x.client with timeoutT1 := none, timeoutT2 := none, timeoutExpire := none }
  else
    let expireTime := satAdd l.timestamp l.lifetime
    let t1Time := subSigned (satAdd l.timestamp l.t1) (fuzz (x.rnd 0))
    let t2Time := max (subSigned (satAdd l.timestamp l.t2) (fuzz (x.rnd 1))) t1Time
    x.drawn.drawn.withClient { x.client with
      expireTime := expireTime
      t1Time := t1Time
      t2Time := t2Time
      timeoutExpire := some expireTime
      timeoutT2 := if expireTime ≤ now then x.client.timeoutT2 else some t2Time
      timeoutT1 := if expireTime ≤ now ∨ t2Time ≤ now then x.client.timeoutT1 else some t1Time }

/-- `enter_bound` (dhcp.rs:612). -/
def enterBound (l : Lease) (now : Nat) : Ctx :=
  let event := x.client.boundEvent l
  let c := { x.client with lease := some l }.disableEventSources
  let c := { { c with startDelay := 0 }.setState .bound with lastAddr := l.address }
  ((x.withClient c).setLeaseTimeouts l now).push event

/-- `receive` (dhcp.rs:577), up to its `tick`; `none` where it returns before that. -/
def receive (b : List Byte) (toLeaseAddr : Bool) (now : Nat) : Option Ctx :=
  if x.client.hears toLeaseAddr = false then none
  else
    match x.client.parseMessage b with
    | none => none
    | some (.offer l) =>
      let c := { x.client with lease := some { l with timestamp := now } }
      some (((x.withClient c).push .selecting).withClient (c.enterRequesting now))
    | some (.ack l) => some (x.enterBound { l with timestamp := now } now)
    | some .nak => some (x.restart now)

end Ctx

/-! ## Calls -/

/-- A call on the client. -/
inductive Call where
  | start (now : Nat)
  | stop
  | receive (b : List Byte) (toLeaseAddr : Bool) (now : Nat)
  | tick (now : Nat)
  | sendRenew (now : Nat)
  | sendDecline (now : Nat)
  | setRequestAddress (a : Option Addr)
  | setMtu (mtu : Nat)
  deriving DecidableEq

/-- A call that ends with a `tick`, unless it returned before. -/
def Ctx.ticked (fuel now : Nat) (x : Ctx) : Option Ctx → Option Ctx
  | none => some x
  | some y => Ctx.tick now fuel y

/-- What a call leaves, as far as `fuel` turns of its `tick` go. -/
def Ctx.call (fuel : Nat) (x : Ctx) : Call → Option Ctx
  | .start now => Ctx.tick now fuel (x.start now)
  | .stop => some x.stop
  | .receive b toLeaseAddr now => x.ticked fuel now (x.receive b toLeaseAddr now)
  | .tick now => Ctx.tick now fuel x
  | .sendRenew now => x.ticked fuel now (x.sendRenew now)
  | .sendDecline now => x.ticked fuel now (x.sendDecline now)
  | .setRequestAddress a => some (x.withClient (x.client.setRequestAddress a))
  | .setMtu mtu => some (x.withClient (x.client.setMtu mtu))

/-- One call that returned. The caller starts the client only while it is stopped. -/
def Step (x : Ctx) (l : Call) (y : Ctx) : Prop :=
  (∀ now, l = .start now → x.client.state = .stopped) ∧ ∃ fuel, x.call fuel l = some y

end NopeekOS.Net.Dhcp
