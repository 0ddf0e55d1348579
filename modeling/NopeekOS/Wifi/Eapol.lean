import NopeekOS.Lib.ByteBits

/-!
# The WPA2 supplicant

The station's side of the 4-way and group key handshakes (wifid/core/src/eapol.rs):
`Supplicant.onEapol` takes one EAPOL-Key frame and says what to answer and which keys
to install.

The key derivation, the MIC and the key unwrap are parameters (`Primitives`): the
supplicant only compares and hands around what they return. Frames are octets, and
every field is read at the offset the source reads it at.
-/

namespace NopeekOS.Wifi

open NopeekOS.Lib
open List (replicate)

abbrev Bytes := List Byte

/-- The cryptographic functions the supplicant calls (eapol.rs:17). -/
structure Primitives where
  /-- `wpa2_ptk`: PMK, AP address, own address, ANonce, SNonce; 48 octets. -/
  wpa2Ptk : Bytes → Bytes → Bytes → Bytes → Bytes → Bytes
  hmacSha1 : Bytes → Bytes → Bytes
  /-- The plain text of a wrapped key, `none` when its integrity check fails. -/
  aesUnwrap : Bytes → Bytes → Option Bytes

/-! ## Frames -/

/-- `n` octets at offset `o`. -/
def field (b : Bytes) (o n : Nat) : Bytes := (b.drop o).take n

def octet (b : Bytes) (o : Nat) : Byte := b.getD o 0

/-- A big-endian number of two octets (eapol.rs:53). -/
def be16 (b : Bytes) (o : Nat) : BitVec 16 := (octet b o ++ octet b (o + 1) : BitVec 16)

/-- The two octets of a number (eapol.rs:56). -/
def putBe16 (v : BitVec 16) : Bytes := [v.extractLsb' 8 8, v.extractLsb' 0 8]

def keyInfoAt : Nat := 5
def replayAt : Nat := 9
def nonceAt : Nat := 17
def keyRscAt : Nat := 65
def micAt : Nat := 81
def keyDataLenAt : Nat := 97
def keyDataAt : Nat := 99
def micLen : Nat := 16

/-- The longest frame whose MIC can be computed (eapol.rs:33). -/
def micBuf : Nat := 512

def kiPairwise : BitVec 16 := 1 <<< 3
def kiAck : BitVec 16 := 1 <<< 7
def kiMic : BitVec 16 := 1 <<< 8
def kiSecure : BitVec 16 := 1 <<< 9
def kiEncrypted : BitVec 16 := 1 <<< 12
def kiTypeMask : BitVec 16 := 0x0007
def kiKeyIndexMask : BitVec 16 := 0x0030

def keyInfo (frame : Bytes) : BitVec 16 := be16 frame keyInfoAt

/-- Whether a flag of the key information is set. -/
def hasFlag (frame : Bytes) (flag : BitVec 16) : Bool := keyInfo frame &&& flag != 0

/-- The Key Replay Counter, as the number its eight octets spell: comparing the octets in
order, as the source does (eapol.rs:225), compares these numbers. -/
def replayCounter (frame : Bytes) : Nat :=
  (field frame replayAt 8).foldl (fun n b => n * 256 + b.toNat) 0

/-- The packet number in the Key RSC (eapol.rs:198). -/
def keyRsc (frame : Bytes) : Bytes := field frame keyRscAt 6

/-! ## Keys -/

structure Ptk where
  kck : Bytes
  kek : Bytes
  tk : Bytes
deriving DecidableEq, Repr

/-- All zero, before any handshake. -/
def Ptk.zero : Ptk := ⟨replicate 16 0, replicate 16 0, replicate 16 0⟩

/-- The three keys in the 48 octets of a derived one (eapol.rs:306). -/
def Ptk.ofBytes (b : Bytes) : Ptk := ⟨field b 0 16, field b 16 16, field b 32 16⟩

/-- The MIC of a frame, its MIC field taken as zero (eapol.rs:354). -/
def computeMic (crypto : Primitives) (ptk : Ptk) (frame : Bytes) : Bytes :=
  let tmp := frame.take micBuf
  (crypto.hmacSha1 ptk.kck
    (tmp.take micAt ++ replicate micLen 0 ++ tmp.drop (micAt + micLen))).take micLen

/-- `verify_mic` (eapol.rs:367). -/
def verifyMic (crypto : Primitives) (ptk : Ptk) (frame : Bytes) : Bool :=
  field frame micAt micLen == computeMic crypto ptk frame

/-- The GTK a list of key data elements carries, with its id (eapol.rs:385). An element is
an id, a length and that many octets; the list ends at an id of zero or an element that
overruns. Every round takes two octets or more, so as many rounds as octets are enough. -/
def walkKdes : Nat → Bytes → Option (Byte × Bytes)
  | fuel + 1, id :: len :: rest =>
    if id = 0 ∨ rest.length < len.toNat then none
    else if id = 0xDD ∧ 6 ≤ len.toNat ∧ rest.take 4 = [0x00, 0x0F, 0xAC, 0x01] then
      some (octet rest 4 &&& 0x03, field rest 6 (min (len.toNat - 6) 32))
    else walkKdes fuel (rest.drop len.toNat)
  | _, _ => none

/-- The GTK a frame carries under a key, if any (`extract_gtk`, eapol.rs:373). The buffer for
the plain text has 256 octets; a longer one is refused by `aes_unwrap` (aes.rs:208). -/
def extractGtk (crypto : Primitives) (ptk : Ptk) (frame : Bytes) : Option (Byte × Bytes) :=
  let kdl := (be16 frame keyDataLenAt).toNat
  if frame.length < keyDataAt + kdl ∨ kdl < 16 ∨ kdl % 8 ≠ 0 then none
  else if 256 < (kdl / 8 - 1) * 8 then none
  else match crypto.aesUnwrap ptk.kek (field frame keyDataAt kdl) with
    | none => none
    | some plain => walkKdes (kdl - 8) (plain.take (kdl - 8))

/-! ## The supplicant -/

/-- What one frame asks the caller to do (eapol.rs:70). A reply is its octets. -/
inductive Step where
  | ignore
  | reply (out : Bytes)
  | done (out : Bytes)
  | fail
  | rekey (out : Bytes)
  | replyOnly (out : Bytes)
deriving DecidableEq, Repr

/-- `Supplicant` (eapol.rs:90). `gtk` is `gtk[..gtk_len]`: the octets behind are never read. -/
structure Supplicant where
  pmk : Bytes
  aa : Bytes
  sa : Bytes
  snonce : Bytes
  renewSnonce : Bool
  gtkFresh : Bool
  rsnIe : Bytes
  ptk : Ptk
  havePtk : Bool
  tptk : Ptk
  haveTptk : Bool
  installedTk : Option Bytes
  installedGtk : Option Bytes
  gtk : Bytes
  gtkId : Byte
  gtkRsc : Bytes
  rxReplay : Nat
  rxReplaySet : Bool
  replaysDropped : BitVec 32
  replaysRepeated : BitVec 32
  badKeyVersion : BitVec 32
  tooLong : BitVec 32
deriving DecidableEq, Repr

/-- `Supplicant::new` (eapol.rs:134). -/
def Supplicant.new (pmk aa sa snonce rsnIe : Bytes) : Supplicant where
  pmk := pmk
  aa := aa
  sa := sa
  snonce := snonce
  renewSnonce := false
  gtkFresh := false
  rsnIe := rsnIe.take 64
  ptk := .zero
  havePtk := false
  tptk := .zero
  haveTptk := false
  installedTk := none
  installedGtk := none
  gtk := []
  gtkId := 0
  gtkRsc := replicate 6 0
  rxReplay := 0
  rxReplaySet := false
  replaysDropped := 0
  replaysRepeated := 0
  badKeyVersion := 0
  tooLong := 0

namespace Supplicant

variable (crypto : Primitives) (s : Supplicant) (frame : Bytes)

/-- `needs_snonce` (eapol.rs:166). -/
def needsSnonce : Bool := s.renewSnonce

/-- `set_snonce` (eapol.rs:172). -/
def setSnonce (snonce : Bytes) : Supplicant := { s with snonce := snonce, renewSnonce := false }

/-- `gtk_is_installed` (eapol.rs:202). -/
def gtkIsInstalled : Bool := s.installedGtk == some s.gtk

/-- `mark_gtk_installed` (eapol.rs:206). -/
def markGtkInstalled : Supplicant := { s with installedGtk := some s.gtk }

/-- `take_gtk_rsc` (eapol.rs:197). -/
def takeGtkRsc : Supplicant := { s with gtkRsc := keyRsc frame }

/-- `replay_ok` (eapol.rs:220): lower than the last accepted counter is dropped, equal is
counted and taken. -/
def replayOk : Supplicant × Bool :=
  if !s.rxReplaySet then (s, true)
  else if replayCounter frame < s.rxReplay then
    ({ s with replaysDropped := s.replaysDropped + 1 }, false)
  else if replayCounter frame = s.rxReplay then
    ({ s with replaysRepeated := s.replaysRepeated + 1 }, true)
  else (s, true)

/-- `remember_replay` (eapol.rs:238). -/
def rememberReplay : Supplicant :=
  { s with rxReplay := replayCounter frame, rxReplaySet := true }

/-- `key_version_ok` (eapol.rs:249). -/
def keyVersionOk : Supplicant × Bool :=
  if keyInfo frame &&& kiTypeMask = 2 then (s, true)
  else ({ s with badKeyVersion := s.badKeyVersion + 1 }, false)

/-- `extract_gtk` into the state (eapol.rs:399). -/
def extractGtk : Supplicant × Bool :=
  match Wifi.extractGtk crypto s.ptk frame with
  | some (id, gtk) => ({ s with gtkId := id, gtk := gtk }, true)
  | none => (s, false)

/-- A reply frame under the key in use: key information, nonce and key data are the
message's own, the rest is echoed or zero (eapol.rs:410, 434, 462). -/
def buildReply (ki : BitVec 16) (nonce keyData : Bytes) : Bytes :=
  let total := keyDataAt + keyData.length
  let head := [octet frame 0, 0x03] ++ putBe16 (BitVec.ofNat 16 (total - 4)) ++ [octet frame 4]
    ++ putBe16 ki ++ putBe16 0 ++ field frame replayAt 8 ++ nonce
    ++ replicate (micAt - (nonceAt + 32)) 0
  let tail := putBe16 (BitVec.ofNat 16 keyData.length) ++ keyData
  head ++ computeMic crypto s.ptk (head ++ replicate micLen 0 ++ tail) ++ tail

/-- `build_msg2` (eapol.rs:410). -/
def buildMsg2 : Bytes :=
  s.buildReply crypto frame (keyInfo frame &&& kiTypeMask ||| kiPairwise ||| kiMic) s.snonce s.rsnIe

/-- `build_group_msg2` (eapol.rs:434). -/
def buildGroupMsg2 : Bytes :=
  s.buildReply crypto frame
    (keyInfo frame &&& kiKeyIndexMask ||| (keyInfo frame &&& kiTypeMask) ||| kiMic ||| kiSecure)
    (replicate 32 0) []

/-- `build_msg4` (eapol.rs:462). -/
def buildMsg4 : Bytes :=
  s.buildReply crypto frame
    (keyInfo frame &&& kiSecure ||| (keyInfo frame &&& kiTypeMask) ||| kiPairwise ||| kiMic)
    (replicate 32 0) []

/-- The key in use and the one message 1 derived change places (`mem::swap`). -/
def swapPtk : Supplicant := { s with ptk := s.tptk, tptk := s.ptk }

/-- The group key handshake, once a pairwise key is there (eapol.rs:282). -/
def onGroup : Supplicant × Step :=
  let (s, versionOk) := s.keyVersionOk frame
  if !versionOk then (s, .ignore)
  else
    let (s, replayOk) := s.replayOk frame
    if !replayOk then (s, .ignore)
    else if !verifyMic crypto s.ptk frame then (s, .fail)
    else
      let s := s.rememberReplay frame
      let (s, extracted) := s.extractGtk crypto frame
      if !extracted then (s, .fail)
      else
        let out := s.buildGroupMsg2 crypto frame
        if s.gtkIsInstalled then (s, .replyOnly out)
        else ((s.takeGtkRsc frame).markGtkInstalled, .rekey out)

/-- Message 1: derive a key from its ANonce and answer under it (eapol.rs:303). -/
def onMsg1 : Supplicant × Step :=
  let ptk48 := crypto.wpa2Ptk s.pmk s.aa s.sa (field frame nonceAt 32) s.snonce
  let s := { s with tptk := .ofBytes ptk48, haveTptk := true }
  let s := s.swapPtk
  let out := s.buildMsg2 crypto frame
  (s.swapPtk, .reply out)

/-- The end of message 3, its key now in use: what is new is handed out (eapol.rs:338). -/
def install : Supplicant × Step :=
  let out := s.buildMsg4 crypto frame
  if s.installedTk = some s.ptk.tk then (s, .replyOnly out)
  else
    let s := { s with installedTk := some s.ptk.tk, renewSnonce := true }
    let s := { s with gtkFresh := decide (0 < s.gtk.length) && !s.gtkIsInstalled }
    if s.gtkFresh then ((s.takeGtkRsc frame).markGtkInstalled, .done out) else (s, .done out)

/-- Message 3, once message 1 derived a key (eapol.rs:322). -/
def onMsg3 : Supplicant × Step :=
  let (s, versionOk) := s.keyVersionOk frame
  if !versionOk then (s, .ignore)
  else
    let (s, replayOk) := s.replayOk frame
    if !replayOk then (s, .ignore)
    else
      let s := s.swapPtk
      if !verifyMic crypto s.ptk frame then (s.swapPtk, .fail)
      else
        let s := { s with havePtk := true, tptk := s.ptk }
        let s := s.rememberReplay frame
        if hasFlag frame kiEncrypted then
          let (s, extracted) := s.extractGtk crypto frame
          if !extracted then (s, .fail) else s.install crypto frame
        else s.install crypto frame

/-- `Supplicant::on_eapol` (eapol.rs:258). -/
def onEapol : Supplicant × Step :=
  if frame.length < keyDataAt ∨ octet frame 1 ≠ 0x03 then (s, .ignore)
  else if frame.length > micBuf then ({ s with tooLong := s.tooLong + 1 }, .ignore)
  else if !hasFlag frame kiAck then (s, .ignore)
  else if !hasFlag frame kiPairwise then
    if !s.havePtk then (s, .ignore) else s.onGroup crypto frame
  else if !hasFlag frame kiMic then s.onMsg1 crypto frame
  else if !s.haveTptk then (s, .fail)
  else s.onMsg3 crypto frame

end Supplicant

end NopeekOS.Wifi
