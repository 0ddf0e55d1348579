import NopeekOS.Lib.ByteBits

/-!
# DHCP messages (dhcp/message.rs)

The BOOTP header and its options. Options keep every instance of a code, in the order they came;
a variable-length option reads as their concatenation, a fixed-size one as the first instance of
that size. `file` and `sname` carry further options when option 52 says so.

The ordered map of options is a function from the code to its instances: a code that is absent has
none, since an entry is only made to push to it (message.rs:85). An IPv4 address is the number
its four bytes are in network order.
-/

namespace NopeekOS.Net.Dhcp

open Lib

abbrev Addr := BitVec 32

def BOOTREQUEST : Byte := 1
def BOOTREPLY : Byte := 2
def ARPHRD_ETHER : Byte := 1
def HEADER_LEN : Nat := 240
def BOOTP_MESSAGE_SIZE : Nat := 236 + 64
def UDP_PAYLOAD_MAX_SIZE : Nat := 65535 - 20 - 8
def MAGIC_COOKIE : List Byte := [99, 130, 83, 99]
def MAX_ENTRIES : Nat := 4096
def OPT_PAD : Byte := 0
def OPT_END : Byte := 255
def OPT_OVERLOAD : Byte := 52
def OVERLOAD_FILE : Byte := 1
def OVERLOAD_SNAME : Byte := 2

/-! ## Numbers in network order -/

def ofBe16 (a b : Byte) : BitVec 16 := a ++ b

def ofBe32 (a b c d : Byte) : BitVec 32 := (a ++ b : BitVec 16) ++ (c ++ d : BitVec 16)

def toBe16 (x : BitVec 16) : List Byte := [x.extractLsb' 8 8, x.extractLsb' 0 8]

def toBe32 (x : BitVec 32) : List Byte :=
  [x.extractLsb' 24 8, x.extractLsb' 16 8, x.extractLsb' 8 8, x.extractLsb' 0 8]

/-- `try_into` to an address: four bytes, no more and no less. -/
def addrOf : List Byte → Option Addr
  | [a, b, c, d] => some (ofBe32 a b c d)
  | _ => none

/-- The `n` bytes from `off` on, as a fixed array. -/
def field (b : List Byte) (off n : Nat) : Vector Byte n := Vector.ofFn fun i => b.getD (off + i) 0

def addrAt (b : List Byte) (off : Nat) : Addr :=
  ofBe32 (b.getD off 0) (b.getD (off + 1) 0) (b.getD (off + 2) 0) (b.getD (off + 3) 0)

/-! ## The message -/

structure Message where
  op : Byte
  htype : Byte
  hlen : Byte
  xid : BitVec 32
  secs : BitVec 16
  flags : BitVec 16
  ciaddr : Addr
  yiaddr : Addr
  siaddr : Addr
  giaddr : Addr
  chaddr : Vector Byte 16
  sname : Vector Byte 64
  file : Vector Byte 128
  /-- Without the cookie the message is BOOTP and has no options. -/
  magic : Bool
  options : Byte → List (List Byte)
  entries : Nat

inductive Error where
  | badMsg
  | tooBig
  deriving DecidableEq, Repr

namespace Message

/-- `Message::new` (message.rs:62). -/
def new (op : Byte) (xid : BitVec 32) (hw : Vector Byte 6) : Message where
  op := op
  htype := ARPHRD_ETHER
  hlen := 6
  xid := xid
  secs := 0
  flags := 0
  ciaddr := 0
  yiaddr := 0
  siaddr := 0
  giaddr := 0
  chaddr := field hw.toList 0 16
  sname := Vector.replicate 64 0
  file := Vector.replicate 128 0
  magic := true
  options := fun _ => []
  entries := 0

variable (m : Message)

def setBroadcastFlag (b : Bool) : Message :=
  if b then { m with flags := m.flags ||| 0x8000 } else { m with flags := m.flags &&& ~~~0x8000 }

/-- `append_impl` (message.rs:81). -/
def appendImpl (code : Byte) (data : List Byte) : Except Error Message :=
  if MAX_ENTRIES ≤ m.entries then .error .tooBig
  else .ok { m with
    options := Function.update m.options code (m.options code ++ [data])
    entries := m.entries + 1 }

/-- The loop of `append_option` (message.rs:97) and the piece behind it; the message is what the
pieces appended before an error left. -/
def appendPieces : Nat → Message → Byte → List Byte → Message × Option Error
  | 0, m, _, _ => (m, none)
  | fuel + 1, m, code, rest =>
    if 255 < rest.length then
      match m.appendImpl code (rest.take 255) with
      | .error e => (m, some e)
      | .ok m => appendPieces fuel m code (rest.drop 255)
    else
      match m.appendImpl code rest with
      | .error e => (m, some e)
      | .ok m => (m, none)

/-- `append_option` (message.rs:92). Each turn of the loop takes bytes off, so there are no more
turns than bytes. -/
def appendOption (code : Byte) (data : List Byte) : Message × Option Error :=
  if code = OPT_PAD ∨ code = OPT_END then (m, some .badMsg)
  else appendPieces (data.length + 1) m code data

/-- `option_exact` (message.rs:105): the first instance of exactly `len` bytes. -/
def optionExact (code : Byte) (len : Nat) : Option (List Byte) :=
  (m.options code).find? fun v => v.length = len

/-- `option` (message.rs:110): every instance, concatenated. -/
def option (code : Byte) : Option (List Byte) :=
  match m.options code with
  | [] => none
  | all => some all.flatten

def optionU8 (code : Byte) : Option Byte :=
  (m.optionExact code 1).bind List.head?

def optionU16 (code : Byte) : Option (BitVec 16) :=
  (m.optionExact code 2).map fun v => ofBe16 (v.getD 0 0) (v.getD 1 0)

def optionAddr (code : Byte) : Option Addr :=
  (m.optionExact code 4).bind addrOf

/-- The addresses of a list of bytes, four each. -/
def addresses : List Byte → List Addr
  | a :: b :: c :: d :: rest => ofBe32 a b c d :: addresses rest
  | _ => []

/-- `option_addresses` (message.rs:129): an error when the length is not a multiple of four,
`none` when the option is absent or empty. -/
def optionAddresses (code : Byte) : Except Error (Option (List Addr)) :=
  match m.option code with
  | none => .ok none
  | some v =>
    if v.length % 4 ≠ 0 then .error .badMsg
    else if v = [] then .ok none
    else .ok (some (addresses v))

/-- The loop of `parse_options` (message.rs:142). -/
def parseOptionsLoop : Nat → Message → List Byte → Except Error Message
  | _, m, [] => .ok m
  | 0, m, _ :: _ => .ok m
  | fuel + 1, m, code :: b =>
    if code = OPT_PAD then parseOptionsLoop fuel m b
    else if code = OPT_END then .ok m
    else
      match b with
      | [] => .error .badMsg
      | len :: b =>
        if b.length < len.toNat then .error .badMsg
        else
          match m.appendImpl code (b.take len.toNat) with
          | .error e => .error e
          | .ok m => parseOptionsLoop fuel m (b.drop len.toNat)

/-- `parse_options` (message.rs:141): every turn of the loop takes at least one byte. -/
def parseOptions (b : List Byte) : Except Error Message :=
  parseOptionsLoop b.length m b

/-- The loop has enough turns: one more changes nothing. -/
theorem parseOptionsLoop_succ {fuel : Nat} {b : List Byte} (h : b.length ≤ fuel) (m : Message) :
    parseOptionsLoop (fuel + 1) m b = parseOptionsLoop fuel m b := by
  induction fuel generalizing m b with
  | zero =>
    rw [List.length_eq_zero_iff.mp (Nat.le_zero.mp h)]
    rfl
  | succ fuel ih =>
    -- Whatever is left is shorter, so both sides go on alike.
    match b with
    | [] => rfl
    | [_] => simp only [parseOptionsLoop]
    | _ :: len :: b =>
      have hlen : (len :: b).length ≤ fuel := Nat.le_of_succ_le_succ h
      have hdrop : (b.drop len.toNat).length ≤ fuel := by grind
      unfold parseOptionsLoop
      simp only [ih hlen, ih hdrop]

/-- Options from one of the two overloaded fields, when option 52 names it (message.rs:206). -/
def parseOverload (named : Bool) (area : List Byte) : Except Error Message :=
  if named then m.parseOptions area else .ok m

/-- The header of a message that passed the checks (message.rs:190). -/
def header (b : List Byte) : Message where
  op := b.getD 0 0
  htype := b.getD 1 0
  hlen := b.getD 2 0
  xid := addrAt b 4
  secs := ofBe16 (b.getD 8 0) (b.getD 9 0)
  flags := ofBe16 (b.getD 10 0) (b.getD 11 0)
  ciaddr := addrAt b 12
  yiaddr := addrAt b 16
  siaddr := addrAt b 20
  giaddr := addrAt b 24
  chaddr := field b 28 16
  sname := field b 44 64
  file := field b 108 128
  magic := (b.drop 236).take 4 = MAGIC_COOKIE
  options := fun _ => []
  entries := 0

/-- `Message::parse` (message.rs:165); `op` 0 takes either, `xid` and `hw` must match when they
are given. -/
def parse (b : List Byte) (op : Byte) (xid : Option (BitVec 32)) (hw : Option (Vector Byte 6)) :
    Except Error Message :=
  if b.length < HEADER_LEN ∨ UDP_PAYLOAD_MAX_SIZE < b.length then .error .badMsg
  else if b.getD 0 0 ≠ BOOTREQUEST ∧ b.getD 0 0 ≠ BOOTREPLY then .error .badMsg
  else if op ≠ 0 ∧ b.getD 0 0 ≠ op then .error .badMsg
  else if xid.any (· ≠ addrAt b 4) then .error .badMsg
  else if b.getD 1 0 ≠ ARPHRD_ETHER then .error .badMsg
  else if 16 < (b.getD 2 0).toNat then .error .badMsg
  else if hw.any (fun h => (b.drop 28).take (b.getD 2 0).toNat ≠ h.toList) then .error .badMsg
  else
    let m := header b
    if m.magic = false then .ok m
    else do
      let m ← m.parseOptions (b.drop HEADER_LEN)
      let overload := (m.optionU8 OPT_OVERLOAD).getD 0
      let inFile := overload &&& OVERLOAD_FILE ≠ 0
      let inSname := overload &&& OVERLOAD_SNAME ≠ 0
      let m ← m.parseOverload inFile m.file.toList
      let m := if inFile then { m with file := Vector.replicate 128 0 } else m
      let m ← m.parseOverload inSname m.sname.toList
      .ok (if inSname then { m with sname := Vector.replicate 64 0 } else m)

/-- The options of one code as bytes (message.rs:234). -/
def optionBytes (code : Byte) : List Byte :=
  (m.options code).flatMap fun v => code :: BitVec.ofNat 8 v.length :: v

/-- `build` (message.rs:221): options by ascending code, END, padded to the size of a BOOTP
message. -/
def build : Except Error (List Byte) :=
  let head := [m.op, m.htype, m.hlen, 0] ++ toBe32 m.xid ++ toBe16 m.secs ++ toBe16 m.flags ++
    toBe32 m.ciaddr ++ toBe32 m.yiaddr ++ toBe32 m.siaddr ++ toBe32 m.giaddr ++
    m.chaddr.toList ++ m.sname.toList ++ m.file.toList ++
    (if m.magic then MAGIC_COOKIE else [0, 0, 0, 0])
  let options := (List.range 256).flatMap fun code => m.optionBytes (BitVec.ofNat 8 code)
  let b := head ++ options ++ [OPT_END]
  if UDP_PAYLOAD_MAX_SIZE < b.length then .error .tooBig
  else .ok (b ++ List.replicate (BOOTP_MESSAGE_SIZE - b.length) 0)

end Message

end NopeekOS.Net.Dhcp
