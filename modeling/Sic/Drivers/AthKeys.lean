import Sic.Lib.Bytes

/-! The 4-way handshake of `kernel/drivers/qcom/qcom_ath.c`. The ciphers and
hashes are parameters: nothing here depends on what they compute. -/

namespace Sic.Ath

structure Crypto where
  hmacSha1 (key msg : Bytes) : Bytes
  hmacSha1_length : ∀ key msg, (hmacSha1 key msg).length = 20
  aesCmac (key msg : Bytes) : Bytes
  aesCmac_length : ∀ key msg, (aesCmac key msg).length = 16
  hmacSha256 (key msg : Bytes) : Bytes
  prfSha1 (key : Bytes) (label : String) (data : Bytes) (len : Nat) : Bytes
  kdfSha256 (key : Bytes) (label : String) (data : Bytes) (bits : Nat) : Bytes
  pbkdf2Sha1 (pass ssid : Bytes) (rounds len : Nat) : Bytes
  aesUnwrap (kek : Bytes) (n : Nat) (cipher : Bytes) : Option Bytes
  saePwe (pass mac bssid : Bytes) : Option Bytes
  scalarAdd (a b : Bytes) : Bytes
  pointMul (k p : Bytes) : Bytes
  pointAdd (p q : Bytes) : Bytes
  negate (p : Bytes) : Bytes
  pointValid (p : Bytes) : Bool

inductive JState where
  | idle | find | start | saeCommit | saeConfirm | auth | assoc | keys | up | failed
deriving DecidableEq, Repr

def JState.started : JState → Bool
  | .idle | .find => false
  | _ => true

/-- What a beacon says about a network: `secure` is 0 for an open one, 1 for WPA
and 2 for RSN. -/
structure Bss where
  bssid : Bytes := Bytes.zeros 6
  ssid : Bytes := []
  rssi : Int := 0
  freq : Nat := 0
  secure : Nat := 0
  nrates : Nat := 0
  group : Bytes := Bytes.zeros 4
  psk : Bool := false
  ccmp : Bool := false
  mfpReq : Bool := false
  akmPsk256 : Bool := false
  akmSae : Bool := false
  hasVht : Bool := false

/-- The key state. `hs` is 0 before message 2, 1 after it, 2 with the keys in. -/
structure Keys where
  pmk : Bytes := Bytes.zeros 32
  ptk : Bytes := Bytes.zeros 48
  anonce : Bytes := Bytes.zeros 32
  snonce : Bytes := Bytes.zeros 32
  replay : Bytes := Bytes.zeros 8
  rxReplay : Bytes := Bytes.zeros 8
  gtk : Bytes := Bytes.zeros 32
  gtkRsc : Bytes := Bytes.zeros 8
  igtk : Bytes := Bytes.zeros 16
  gtkLen : Nat := 0
  gtkId : Nat := 0
  igtkId : Nat := 0
  hs : Nat := 0

structure Sae where
  pwe : Bytes := Bytes.zeros 64
  rand : Bytes := Bytes.zeros 32
  mask : Bytes := Bytes.zeros 32
  scalar : Bytes := Bytes.zeros 32
  element : Bytes := Bytes.zeros 64
  peerScalar : Bytes := Bytes.zeros 32
  peerElement : Bytes := Bytes.zeros 64
  kck : Bytes := Bytes.zeros 32
  confirmed : Bool := false

inductive KeyKind where
  | pairwise | group
deriving DecidableEq, Repr

inductive Cipher where
  | aesCcm | aesCmac
deriving DecidableEq, Repr

inductive Out where
  | installKey (idx : Nat) (kind : KeyKind) (cipher : Cipher) (key : Bytes) (rsc : Option Bytes)
  | peerParam (param value : Nat)
  | data (frame : Bytes) (crypt : Bool)
  | chanList | vdevCreate | startScan | vdevStart | peerCreate | psOff | auth | assoc
  | saeCommit | saeConfirm | peerAssoc | vdevUp | vdevDown | peerDelete | vdevStop
  | wlan0Up | wlan0Down
deriving DecidableEq

structure Sta where
  mac : Bytes := Bytes.zeros 6
  bsses : List Bss := []
  scanning : Bool := false
  vdevUp : Bool := false
  jstate : JState := .idle
  jssid : Bytes := []
  jpass : Bytes := []
  jwhy : String := ""
  /-- The network being joined. -/
  jb : Bss := {}
  jakm : Nat := 0
  jmfp : Bool := false
  jsent : Nat := 0
  jtries : Nat := 0
  jauto : Bool := false
  reconnTries : Nat := 0
  reconnAt : Nat := 0
  keys : Keys := {}
  sae : Sae := {}
  out : List Out := []

def Sta.emit (s : Sta) (o : Out) : Sta := { s with out := s.out ++ [o] }

def joinFail (s : Sta) (why : String) : Sta :=
  { s.emit .wlan0Down with jwhy := why, jstate := .failed }

def eapKeyInfo : Nat := 5

def eapReplay : Nat := 9

def eapNonce : Nat := 17

def eapRsc : Nat := 65

def eapMic : Nat := 81

def eapKdl : Nat := 97

def eapKdata : Nat := 99

def pairwiseKey (C : Crypto) (s : Sta) (anonce snonce : Bytes) : Bytes :=
  let mc := Bytes.memLt s.jb.bssid s.mac
  let nc := Bytes.memLt anonce snonce
  let data := (if mc then s.jb.bssid else s.mac) ++ (if mc then s.mac else s.jb.bssid) ++
    (if nc then anonce else snonce) ++ (if nc then snonce else anonce)
  if s.jakm = 2 then C.prfSha1 s.keys.pmk "Pairwise key expansion" data 48
  else C.kdfSha256 s.keys.pmk "Pairwise key expansion" data 384

def derivePtk (C : Crypto) (s : Sta) : Sta :=
  { s with keys := { s.keys with ptk := pairwiseKey C s s.keys.anonce s.keys.snonce } }

def kdVersion (s : Sta) : BitVec 16 := if s.jakm = 2 then 2 else if s.jakm = 6 then 3 else 0

def eapolMic (C : Crypto) (jakm : Nat) (ptk buf : Bytes) : Bytes :=
  if jakm = 2 then (C.hmacSha1 (ptk.take 16) buf).take 16 else C.aesCmac (ptk.take 16) buf

def buildRsnIe (s : Sta) : Bytes :=
  let body : Bytes := [1, 0] ++ s.jb.group ++ [1, 0, 0x00, 0x0f, 0xac, 0x04, 1, 0, 0x00, 0x0f, 0xac] ++
    [BitVec.ofNat 8 s.jakm] ++ (if s.jmfp then [0x80, 0] else [0, 0]) ++
    (if s.jmfp then [0, 0, 0x00, 0x0f, 0xac, 0x06] else [])
  [48, BitVec.ofNat 8 body.length] ++ body

def put16 (n : Nat) : Bytes := [BitVec.ofNat 8 (n / 256), BitVec.ofNat 8 n]

def buildEapol (C : Crypto) (s : Sta) (flags : BitVec 16) (keylen : Nat) (nonce : Option Bytes)
    (kdata : Bytes) : Bytes :=
  let keyinfo := flags ||| kdVersion s
  let frame (mic : Bytes) : Bytes := [1, 3] ++ put16 (eapKdata + kdata.length - 4) ++ [2] ++
    put16 keyinfo.toNat ++ put16 keylen ++ s.keys.replay ++ nonce.getD (Bytes.zeros 32) ++ Bytes.zeros 32 ++
    mic ++ put16 kdata.length ++ kdata
  let blank := frame (Bytes.zeros 16)
  [0x08, 0x01, 0, 0] ++ s.jb.bssid ++ s.mac ++ s.jb.bssid ++ [0, 0, 0xaa, 0xaa, 3, 0, 0, 0, 0x88, 0x8e] ++
    (if keyinfo &&& 0x100 ≠ 0 then frame (eapolMic C s.jakm s.keys.ptk blank) else blank)

def parseKde (k : Keys) (id : U8) (v : Bytes) : Keys :=
  if id = 0xdd ∧ 6 ≤ v.length ∧ v.byte 0 = 0x00 ∧ v.byte 1 = 0x0f ∧ v.byte 2 = 0xac then
    if v.byte 3 = 0x01 ∧ 8 ≤ v.length then
      let len := min (v.length - 6) 32
      { k with gtkId := (v.byte 4 &&& 3).toNat, gtkLen := len, gtk := v.slice 6 len ++ k.gtk.drop len }
    else if v.byte 3 = 0x09 ∧ 4 + 2 + 6 + 16 ≤ v.length then
      { k with igtkId := v.le16 4, igtk := v.slice (4 + 2 + 6) 16 }
    else k
  else k

def parseKeys (k : Keys) : Bytes → Keys
  | id :: l :: rest =>
    if rest.length < l.toNat then k
    else parseKeys (parseKde k id (rest.take l.toNat)) (rest.drop l.toNat)
  | _ => k
termination_by p => p.length
decreasing_by
  simp only [List.length_cons, List.length_drop]
  omega

def installGroupKeys (s : Sta) : Sta :=
  let s := if s.keys.gtkLen ≠ 0 then
      s.emit (.installKey s.keys.gtkId .group .aesCcm (s.keys.gtk.take s.keys.gtkLen) (some s.keys.gtkRsc))
    else s
  if s.jmfp ∧ s.keys.igtkId ≠ 0 then s.emit (.installKey s.keys.igtkId .group .aesCmac s.keys.igtk none) else s

def keyInfo (e : Bytes) : BitVec 16 := e.byte eapKeyInfo ++ e.byte (eapKeyInfo + 1)

def isPairwise (e : Bytes) : Bool := keyInfo e &&& 0x08 ≠ 0

def hasMic (e : Bytes) : Bool := keyInfo e &&& 0x100 ≠ 0

def isInstall (e : Bytes) : Bool := keyInfo e &&& 0x40 ≠ 0

def micSpan (e : Bytes) : Bytes := e.take (min (4 + e.be16 2) e.length)

def MicOk (C : Crypto) (jakm : Nat) (ptk e : Bytes) : Prop :=
  eapolMic C jakm ptk ((micSpan e).clear eapMic 16) = e.slice eapMic 16

instance (C : Crypto) (jakm : Nat) (ptk e : Bytes) : Decidable (MicOk C jakm ptk e) :=
  inferInstanceAs (Decidable (_ = _))

def eapolMsg1 (C : Crypto) (s : Sta) (e rnd : Bytes) (now : Nat) : Sta :=
  if s.jstate ≠ .keys then s
  else
    let s := { s with keys := { s.keys with anonce := e.slice eapNonce 32, snonce := rnd } }
    let s := derivePtk C s
    let s := { s with keys := { s.keys with replay := e.slice eapReplay 8, rxReplay := e.slice eapReplay 8 } }
    let s := s.emit (.data (buildEapol C s 0x108 16 (some s.keys.snonce) (buildRsnIe s)) false)
    { s with keys := { s.keys with hs := 1 }, jsent := now }

def unwrapKeys (C : Crypto) (s : Sta) (e : Bytes) : Bytes :=
  let kdl := e.be16 eapKdl
  let nb := kdl / 8 - 1
  if keyInfo e &&& 0x1000 ≠ 0 ∧ 24 ≤ kdl ∧ kdl % 8 = 0 ∧ eapKdata + kdl ≤ e.length ∧ nb * 8 ≤ 512 then
    ((C.aesUnwrap (s.keys.ptk.slice 16 16) nb (e.slice eapKdata kdl)).map (List.take (nb * 8))).getD []
  else []

def firstGroupKeys (s : Sta) (plain : Bytes) : Sta :=
  if s.keys.hs ≠ 2 ∧ plain ≠ [] then
    { s with keys := parseKeys { s.keys with gtkLen := 0, igtkId := 0 } plain }
  else s

def eapolMsg3 (C : Crypto) (s : Sta) (e : Bytes) (plain : Bytes) : Sta :=
  let first := s.keys.hs ≠ 2
  let s := firstGroupKeys s plain
  let s := { s with keys := { s.keys with gtkRsc := e.slice eapRsc 8, replay := e.slice eapReplay 8 } }
  let s := s.emit (.data (buildEapol C s 0x308 0 none []) false)
  if first then
    let s := s.emit (.installKey 0 .pairwise .aesCcm (s.keys.ptk.slice 32 16) none)
    let s := installGroupKeys s
    let s := s.emit (.peerParam 3 1)
    { s with keys := { s.keys with hs := 2 }, jstate := .up, reconnTries := 0 }.emit .wlan0Up
  else s

def eapolGroup (C : Crypto) (s : Sta) (e : Bytes) (plain : Bytes) : Sta :=
  let s := if plain ≠ [] then installGroupKeys { s with keys := parseKeys s.keys plain } else s
  let s := { s with keys := { s.keys with gtkRsc := e.slice eapRsc 8, replay := e.slice eapReplay 8 } }
  s.emit (.data (buildEapol C s 0x300 0 none []) false)

def eapolVerified (C : Crypto) (s : Sta) (e : Bytes) : Sta :=
  let s := { s with keys := { s.keys with rxReplay := e.slice eapReplay 8 } }
  let plain := unwrapKeys C s e
  if isPairwise e ∧ isInstall e then eapolMsg3 C s e plain
  else if ¬ isPairwise e ∧ s.keys.hs = 2 then eapolGroup C s e plain
  else s

def eapolRx (C : Crypto) (s : Sta) (e rnd : Bytes) (now : Nat) : Sta :=
  if e.length < eapKdata ∨ e.byte 1 ≠ 3 then s
  else if s.jstate ≠ .keys ∧ s.jstate ≠ .up then s
  else if isPairwise e ∧ ¬ hasMic e then eapolMsg1 C s e rnd now
  else if ¬ hasMic e then s
  else if Bytes.memLt (e.slice eapReplay 8) s.keys.rxReplay then s
  else if 512 < (micSpan e).length then s
  else if ¬ MicOk C s.jakm s.keys.ptk e then
    if s.jstate = .keys then joinFail s "the handshake failed (wrong passphrase?)" else s
  else eapolVerified C s e

end Sic.Ath
