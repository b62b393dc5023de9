import Sic.Drivers.AthKeys

/-! Joining a network: the choice of an access point, SAE, authentication,
association, and the frames and timers that move the join along. The bytes of
the frames sent on the way are left out. -/

namespace Sic.Ath

def is2g (freq : Nat) : Bool := freq < 3000

def bssScore (b : Bss) : Int :=
  if ¬ is2g b.freq ∧ -80 ≤ b.rssi then b.rssi + 30 + (if b.hasVht then 10 else 0) else b.rssi

def usable (b : Bss) : Option String :=
  if b.secure = 1 then some "it is WPA (version 1) only"
  else if b.secure = 2 ∧ ¬ b.ccmp then some "it does not offer CCMP"
  else if b.secure = 2 ∧ ¬ (b.psk ∨ b.akmPsk256 ∨ b.akmSae) then some "it offers no personal AKM we support"
  else if b.nrates = 0 then some "it named no rates"
  else none

def consider (ssid : Bytes) (acc : Option Bss × Option String) (b : Bss) : Option Bss × Option String :=
  if b.ssid ≠ ssid then acc
  else
    match usable b with
    | some why => (acc.1, some why)
    | none =>
      match acc.1 with
      | none => (some b, acc.2)
      | some best => (some (if bssScore best < bssScore b then b else best), acc.2)

def chooseAkm (b : Bss) : Nat := if b.akmSae then 8 else if b.psk then 2 else 6

def joinPick (C : Crypto) (s : Sta) (now : Nat) : Sta × Bool :=
  match s.bsses.foldl (consider s.jssid) (none, none) with
  | (none, some why) => ({ s with jwhy := why, jstate := .failed }, false)
  | (none, none) => (s, false)
  | (some b, _) =>
    let s := { s with
      jb := b
      keys := { s.keys with hs := 0, gtkLen := 0, igtkId := 0, rxReplay := Bytes.zeros 8 } }
    if b.secure = 2 ∧ s.jpass = [] then (joinFail s "the network needs a passphrase", false)
    else
      let s := if b.secure = 2 then
          let akm := chooseAkm b
          { s with
            jakm := akm
            jmfp := akm = 8 ∨ b.mfpReq
            keys := { s.keys with
              pmk := if akm ≠ 8 then C.pbkdf2Sha1 s.jpass b.ssid 4096 32 else s.keys.pmk } }
        else { s with jakm := 0, jmfp := false }
      ({ s with jstate := .start, jsent := now }.emit .vdevStart, true)

/-! ### SAE -/

def sendSaeCommit (s : Sta) (now : Nat) : Sta := { s.emit .saeCommit with jsent := now }

def sendSaeConfirm (s : Sta) (now : Nat) : Sta := { s.emit .saeConfirm with jsent := now }

def sendAuth (s : Sta) (now : Nat) : Sta := { s.emit .auth with jsent := now }

def sendAssoc (s : Sta) (now : Nat) : Sta := { s.emit .assoc with jsent := now }

def saeStart (C : Crypto) (s : Sta) (rand mask : Option Bytes) (now : Nat) : Sta :=
  match C.saePwe s.jpass s.mac s.jb.bssid with
  | none => joinFail s "SAE: no password element"
  | some pwe =>
    match rand, mask with
    | some rand, some mask =>
      sendSaeCommit { s with
        sae := { s.sae with
          pwe := pwe
          rand := rand
          mask := mask
          scalar := C.scalarAdd rand mask
          element := C.negate (C.pointMul mask pwe)
          confirmed := false }
        jstate := .saeCommit
        jtries := 0 } now
    | _, _ => joinFail { s with sae := { s.sae with pwe := pwe } } "SAE: no randomness"

def saeSecret (C : Crypto) (a : Sae) : Bytes :=
  C.pointMul a.rand (C.pointAdd (C.pointMul a.peerScalar a.pwe) a.peerElement)

def saeKeys (C : Crypto) (a : Sae) : Bytes :=
  C.kdfSha256 (C.hmacSha256 (Bytes.zeros 32) ((saeSecret C a).take 32)) "SAE KCK and PMK"
    (C.scalarAdd a.scalar a.peerScalar) 512

def saeProcessCommit (C : Crypto) (s : Sta) (b : Bytes) (now : Nat) : Sta :=
  if b.length < 6 + 2 + 32 + 64 then s
  else if b.le16 6 ≠ 19 then joinFail s "SAE: the access point wants another group"
  else
    let s := { s with sae := { s.sae with peerScalar := b.slice 8 32, peerElement := b.slice 40 64 } }
    if ¬ C.pointValid s.sae.peerElement then joinFail s "SAE: a bad commit element"
    else if ¬ C.pointValid (saeSecret C s.sae) then joinFail s "SAE: the shared secret is degenerate"
    else
      let k := saeKeys C s.sae
      sendSaeConfirm { s with
        sae := { s.sae with kck := k.take 32 }
        keys := { s.keys with pmk := k.slice 32 32 }
        jstate := .saeConfirm
        jtries := 0 } now

def saeProcessConfirm (C : Crypto) (s : Sta) (b : Bytes) (now : Nat) : Sta :=
  if b.length < 6 + 2 + 32 then s
  else
    let cf := [b.byte 6, b.byte 7] ++ s.sae.peerScalar ++ s.sae.peerElement ++ s.sae.scalar ++ s.sae.element
    if C.hmacSha256 s.sae.kck cf ≠ b.slice 8 32 then
      joinFail s "SAE: the confirm did not verify (wrong passphrase?)"
    else sendAssoc { s with sae := { s.sae with confirmed := true }, jstate := .assoc, jtries := 0 } now

/-! ### The join -/

def joinLost (s : Sta) (why : String) (now : Nat) : Sta :=
  let s := (((s.emit .wlan0Down).emit .vdevDown).emit .peerDelete).emit .vdevStop
  let s := { s with jwhy := why, keys := { s.keys with hs := 0 } }
  if s.jauto ∧ s.reconnTries < 5 then
    { s with reconnTries := s.reconnTries + 1, reconnAt := now + 1500, jstate := .idle }
  else { s with jstate := .failed }

def joinGone (s : Sta) (why : String) (now : Nat) : Sta :=
  if s.jstate = .up then joinLost s why now
  else if s.jstate.started then joinFail s why
  else s

def joinAuth (C : Crypto) (s : Sta) (b : Bytes) (now : Nat) : Sta :=
  if b.le16 0 = 3 then
    let seq := b.le16 2
    let status := b.le16 4
    if seq = 1 then
      if status = 76 ∧ s.jstate = .saeCommit then sendSaeCommit s now
      else if status ≠ 0 then
        joinFail s ("SAE: the access point rejected the commit (status " ++ toString status ++ ")")
      else if s.jstate = .saeCommit then saeProcessCommit C s b now
      else s
    else if seq = 2 then
      if status ≠ 0 then
        joinFail s ("SAE: the access point rejected the confirm (status " ++ toString status ++ ")")
      else if s.jstate = .saeConfirm then saeProcessConfirm C s b now
      else s
    else s
  else if s.jstate ≠ .auth ∨ b.le16 2 ≠ 2 then s
  else if b.le16 4 ≠ 0 then
    joinFail s ("the access point refused authentication (status " ++ toString (b.le16 4) ++ ")")
  else sendAssoc { s with jstate := .assoc, jtries := 0 } now

def joinAssoc (s : Sta) (b : Bytes) (now : Nat) : Sta :=
  if s.jstate ≠ .assoc then s
  else if b.le16 2 ≠ 0 then
    joinFail s ("the access point refused the association (status " ++ toString (b.le16 2) ++ ")")
  else
    let s := (s.emit .peerAssoc).emit .vdevUp
    if s.jb.secure = 2 then { s with jstate := .keys, jsent := now }
    else { s.emit (.peerParam 3 1) with jstate := .up, reconnTries := 0 }.emit .wlan0Up

def joinMgmt (C : Crypto) (s : Sta) (f : Bytes) (now : Nat) : Sta :=
  if f.length < 24 ∨ f.slice 4 6 ≠ s.mac ∨ f.slice 16 6 ≠ s.jb.bssid then s
  else
    let b : Bytes := f.drop 24
    if f.byte 0 = 0xb0 then if f.length < 30 then s else joinAuth C s b now
    else if f.byte 0 = 0x10 then if f.length < 30 then s else joinAssoc s b now
    else if f.byte 0 = 0xc0 ∨ f.byte 0 = 0xa0 then
      joinGone s ("the access point sent us away (reason " ++
        toString (if 26 ≤ f.length then b.le16 0 else 0) ++ ")") now
    else s

def joinVdevStarted (C : Crypto) (s : Sta) (status : Nat) (rand mask : Option Bytes) (now : Nat) : Sta :=
  if s.jstate ≠ .start then s
  else if status ≠ 0 then
    joinFail s ("the radio did not tune to the channel (status " ++ toString status ++ ")")
  else
    let s := (s.emit .peerCreate).emit .psOff
    if s.jakm = 8 then saeStart C s rand mask now
    else sendAuth { s with jstate := .auth, jtries := 0 } now

def retry (s : Sta) (why : String) (send : Sta → Nat → Sta) (now : Nat) : Sta :=
  if now - s.jsent < 500 then s
  else
    let s := { s with jtries := s.jtries + 1 }
    if 5 ≤ s.jtries then joinFail s why else send s now

def joinPoll (C : Crypto) (s : Sta) (now : Nat) : Sta :=
  match s.jstate with
  | .idle =>
    if s.reconnAt ≠ 0 ∧ s.reconnAt ≤ now then
      let s := { s with reconnAt := 0, jstate := .find, jsent := now }
      if s.scanning then s else { s.emit .startScan with scanning := true }
    else s
  | .find =>
    if s.scanning then s
    else
      match joinPick C s now with
      | (s, true) => s
      | (s, false) => if s.jstate = .find then joinFail s "no network named that was found" else s
  | .start => if 3000 < now - s.jsent then joinFail s "no answer to the channel change" else s
  | .saeCommit => retry s "no answer to the SAE exchange" sendSaeCommit now
  | .saeConfirm => retry s "no answer to the SAE exchange" sendSaeConfirm now
  | .auth => retry s "no answer to authentication" sendAuth now
  | .assoc => retry s "no answer to the association request" sendAssoc now
  | .keys => if 10000 < now - s.jsent then joinFail s "no handshake from the access point" else s
  | .up | .failed => s

def connect (s : Sta) (ssid pass : Bytes) : Sta × Int :=
  if s.jstate ≠ .idle ∧ s.jstate ≠ .failed then (s, -2)
  else if ssid = [] ∨ 32 < ssid.length ∨ 63 < pass.length ∨ (pass ≠ [] ∧ pass.length < 8) then (s, -3)
  else
    let s := { s with
      jssid := ssid
      jpass := pass
      jwhy := ""
      jauto := true
      reconnTries := 0
      reconnAt := 0
      jstate := .find }
    let s := if s.vdevUp then s else { (s.emit .chanList).emit .vdevCreate with vdevUp := true }
    (if s.scanning then s else { s.emit .startScan with scanning := true }, 0)

/-! ### Received data frames -/

def eapolOf (p : Bytes) : Option Bytes :=
  if p.length < 8 ∨ ¬ (p.byte 0 = 0xaa ∧ p.byte 1 = 0xaa ∧ p.byte 2 = 0x03) then none
  else if p.be16 6 = 0x888e then some (p.drop 8)
  else none

def deliverLlc (C : Crypto) (s : Sta) (p rnd : Bytes) (now : Nat) : Sta :=
  match eapolOf p with
  | none => s
  | some e => eapolRx C s e rnd now

end Sic.Ath
