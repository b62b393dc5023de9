import Sic.Drivers.AthJoin
import Sic.Lib.Run

/-! Runs of the driver, which takes any frames at any time, and what it means for
the port of an RSN network to be opened rightly. -/

namespace Sic.Ath

def maxBss : Nat := 48

def sawFrame (s : Sta) (b : Bss) : Sta :=
  { s with bsses :=
      if s.bsses.any fun x => x.bssid = b.bssid then s.bsses.map fun x => if x.bssid = b.bssid then b else x
      else if s.bsses.length < maxBss then s.bsses ++ [b]
      else s.bsses }

inductive Event where
  | connect (ssid pass : Bytes)
  | beacon (b : Bss)
  | scanDone
  | poll (now : Nat)
  | vdevStarted (status : Nat) (rand mask : Option Bytes) (now : Nat)
  | mgmt (f : Bytes) (now : Nat)
  | msdu (p rnd : Bytes) (now : Nat)
  | kickout (now : Nat)

def handle (C : Crypto) (s : Sta) : Event → Sta
  | .connect ssid pass => (connect s ssid pass).1
  | .beacon b => sawFrame s b
  | .scanDone => { s with scanning := false }
  | .poll now => joinPoll C s now
  | .vdevStarted status rand mask now => joinVdevStarted C s status rand mask now
  | .mgmt f now => joinMgmt C s f now
  | .msdu p rnd now => deliverLlc C s p rnd now
  | .kickout now => joinGone s "the access point stopped answering" now

def isMsg1 (e : Bytes) : Bool := ¬ (e.length < eapKdata ∨ e.byte 1 ≠ 3) ∧ isPairwise e ∧ ¬ hasMic e

def isMsg3 (e : Bytes) : Bool := isPairwise e ∧ hasMic e ∧ isInstall e

structure Machine where
  sta : Sta := {}
  nonces : List (Bytes × Bytes) := []

def heardFrame (s : Sta) (e rnd : Bytes) : List (Bytes × Bytes) :=
  if isMsg1 e ∧ s.jstate = .keys then [(e.slice eapNonce 32, rnd)] else []

def heard (s : Sta) : Event → List (Bytes × Bytes)
  | .msdu p rnd _ => ((eapolOf p).map fun e => heardFrame s e rnd).getD []
  | _ => []

def step (C : Crypto) (m : Machine) (e : Event) : Machine :=
  let s := handle C m.sta e
  -- a new join attempt starts when an access point has been picked
  ⟨s, if m.sta.jstate = .find ∧ s.jstate = .start then [] else heard m.sta e ++ m.nonces⟩

def Out.authorizing : Out → Bool
  | .installKey _ .pairwise _ _ _ => true
  | .peerParam 3 1 => true
  | _ => false

def Grants (s s' : Sta) : Prop :=
  s'.jb.secure = 2 ∧
    ((∃ o ∈ s'.out.drop s.out.length, o.authorizing = true) ∨ (s.jstate ≠ .up ∧ s'.jstate = .up))

/-- The PMK is that of the passphrase, or of an SAE exchange the access point has
confirmed with the password element of the passphrase. -/
def PmkCurrent (C : Crypto) (s : Sta) : Prop :=
  (s.jakm ≠ 8 ∧ s.keys.pmk = C.pbkdf2Sha1 s.jpass s.jb.ssid 4096 32) ∨
    (s.jakm = 8 ∧ s.sae.confirmed = true ∧ C.saePwe s.jpass s.mac s.jb.bssid = some s.sae.pwe ∧
      s.keys.pmk = (saeKeys C s.sae).slice 32 32)

/-- The event is a message 3, right under the PTK of the current PMK and of nonces
of this attempt. -/
def Justified (C : Crypto) (m : Machine) (e : Event) : Prop :=
  ∃ p rnd now f, e = .msdu p rnd now ∧ eapolOf p = some f ∧ isMsg3 f = true ∧ PmkCurrent C m.sta ∧
    ∃ n ∈ m.nonces, m.sta.keys.ptk = pairwiseKey C m.sta n.1 n.2 ∧ MicOk C m.sta.jakm m.sta.keys.ptk f

/-- No message 3 comes before a message 1 has been answered. -/
def Timely (m : Machine) : Event → Prop
  | .msdu p _ _ => ∀ f ∈ eapolOf p, isMsg3 f = true → m.sta.jstate = .keys → m.sta.keys.hs ≠ 0
  | _ => True

instance (m : Machine) : (e : Event) → Decidable (Timely m e)
  | .msdu p _ _ =>
    inferInstanceAs (Decidable (∀ f ∈ eapolOf p, isMsg3 f = true → m.sta.jstate = .keys → m.sta.keys.hs ≠ 0))
  | .connect _ _ | .beacon _ | .scanDone | .poll _ | .vdevStarted _ _ _ _ | .mgmt _ _ | .kickout _ =>
    .isTrue trivial

end Sic.Ath
