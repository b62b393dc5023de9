import Sic.Drivers.AthHandshake

/-! The port of an RSN network is opened on a message 3 that is right under a PTK
of this very join, as long as none comes before message 1. -/

namespace Sic.Ath

variable {C : Crypto}

theorem step_spec {m : Machine} (h : Stage C m) (e : Event) :
    Stage C (step C m e) ∧ (Grants m.sta (handle C m.sta e) → ∃ p rnd now f, e = .msdu p rnd now ∧
      eapolOf p = some f ∧ isMsg3 f = true ∧ (m.sta.jstate = .keys ∨ m.sta.jstate = .up) ∧ m.sta.keys.hs ≠ 2 ∧
      MicOk C m.sta.jakm m.sta.keys.ptk f ∧ (handle C m.sta e).jb = m.sta.jb) := by
  -- a new attempt forgets the nonces, and its stage needs none
  have forget {s' : Sta} {n : List (Bytes × Bytes)} (hs : Stage C ⟨s', n⟩) :
      Stage C ⟨s', if m.sta.jstate = .find ∧ s'.jstate = .start then [] else n⟩ := by
    split
    · next hc => exact hs.nonces fun hk => absurd (hc.2.symm.trans hk) (by decide)
    · exact hs
  have safe {s' : Sta} (hs : Safe C m.nonces m.sta s') {P : Prop} :
      Stage C ⟨s', if m.sta.jstate = .find ∧ s'.jstate = .start then [] else m.nonces⟩ ∧ (Grants m.sta s' → P) :=
    ⟨forget hs.2, fun hg => absurd hg hs.1.not_grants⟩
  cases e with
  | connect ssid pass => exact safe (connect_safe h ssid pass)
  | beacon b =>
    have hm : Mild m.sta (sawFrame m.sta b) := ⟨plain_refl rfl id, rfl, rfl, rfl, rfl, rfl, rfl, rfl, rfl, rfl⟩
    exact safe (hm.safe h)
  | scanDone =>
    have hm : Mild m.sta { m.sta with scanning := false } :=
      ⟨plain_refl rfl id, rfl, rfl, rfl, rfl, rfl, rfl, rfl, rfl, rfl⟩
    exact safe (hm.safe h)
  | poll now => exact safe (joinPoll_safe h now)
  | vdevStarted status rand mask now => exact safe (joinVdevStarted_safe h status rand mask now)
  | mgmt f now => exact safe (joinMgmt_safe h f now)
  | kickout now => exact safe (joinGone_safe h _ now)
  | msdu p rnd now =>
    cases hp : eapolOf p with
    | none =>
      have hsame : handle C m.sta (.msdu p rnd now) = m.sta := by simp only [handle, deliverLlc, hp]
      simp only [step, hsame, heard, hp, Option.map_none, Option.getD_none, List.nil_append]
      exact safe h.safe
    | some f =>
      have hrx : handle C m.sta (.msdu p rnd now) = eapolRx C m.sta f rnd now := by
        simp only [handle, deliverLlc, hp]
      obtain ⟨hst, hg⟩ := eapolRx_spec h f rnd now
      simp only [step, hrx, heard, hp, Option.map_some, Option.getD_some]
      exact ⟨forget hst, fun hgr => ⟨p, rnd, now, f, rfl, hp, hg hgr⟩⟩

theorem justified_of_grants {m : Machine} (h : Stage C m) {e : Event} (ht : Timely m e)
    (hg : Grants m.sta (handle C m.sta e)) : Justified C m e := by
  obtain ⟨p, rnd, now, f, rfl, hp, h3, hj, hhs, hmic, hjb⟩ := (step_spec h e).2 hg
  have hst := h
  unfold Stage at hst
  rcases hj with hj | hj <;> simp only [hj] at hst
  · obtain ⟨-, hpmk, h0 | ⟨-, x, hx, hptk⟩⟩ := hst
    · exact absurd h0 (ht f hp h3 hj)
    · exact ⟨p, rnd, now, f, rfl, hp, h3, hpmk, x, hx, hptk, hmic⟩
  · exact absurd (hst (hjb ▸ hg.1)) hhs

/-- In every run, the port of an RSN network is opened only by a message 3 that is
right under a PTK of this join, and so never by a peer whose frames are right
under no key of the PMK. -/
theorem port_authenticated (C : Crypto) {s₀ : Sta} (h₀ : s₀.jstate = .idle) {es : List Event} {e : Event}
    (hes : Along Timely (step C) ⟨s₀, []⟩ (es ++ [e])) :
    (Grants (run (step C) ⟨s₀, []⟩ es).sta (handle C (run (step C) ⟨s₀, []⟩ es).sta e) →
      Justified C (run (step C) ⟨s₀, []⟩ es) e) ∧
    ((∀ p rnd now, e = .msdu p rnd now → ∀ f ∈ eapolOf p, ∀ a b,
        ¬ MicOk C (run (step C) ⟨s₀, []⟩ es).sta.jakm
          (pairwiseKey C (run (step C) ⟨s₀, []⟩ es).sta a b) f) →
      ¬ Grants (run (step C) ⟨s₀, []⟩ es).sta (handle C (run (step C) ⟨s₀, []⟩ es).sta e)) := by
  obtain ⟨hpre, hlast, -⟩ := hes.split
  have hinit : Stage C ⟨s₀, []⟩ := by
    unfold Stage
    simp only [h₀]
  have hst := invariant_run (P := Stage C) (fun m e hm _ => (step_spec hm e).1) hinit hpre
  refine ⟨justified_of_grants hst hlast, fun hforge hg => ?_⟩
  obtain ⟨p, rnd, now, f, he, hp, -, -, x, -, hptk, hmic⟩ := justified_of_grants hst hlast hg
  exact hforge p rnd now he f hp x.1 x.2 (hptk ▸ hmic)

/-! ### Two joins -/

def ap : Bss := { bssid := [2, 0, 0, 0, 0, 1], ssid := [110, 101, 116], secure := 2, nrates := 1, psk := true,
                  ccmp := true }

def fromAp (kind : U8) (body : Bytes) : Bytes :=
  [kind, 0, 0, 0] ++ Bytes.zeros 6 ++ ap.bssid ++ ap.bssid ++ [0, 0] ++ body

def joinAp : List Event :=
  [.connect [110, 101, 116] [112, 97, 115, 115, 119, 111, 114, 100], .beacon ap, .scanDone, .poll 1,
    .vdevStarted 0 none none 2, .mgmt (fromAp 0xb0 [0, 0, 2, 0, 0, 0]) 3,
      .mgmt (fromAp 0x10 [0, 0, 0, 0, 0, 0]) 4]

def eapolKey (info : Bytes) (mic : Bytes) : Bytes :=
  ([1, 3, 0, 95, 2] ++ info ++ Bytes.zeros 74) ++ mic ++ [0, 0]

def asMsdu (e : Bytes) : Bytes := [0xaa, 0xaa, 3, 0, 0, 0, 0x88, 0x8e] ++ e

def forgedMsg3 (C : Crypto) : Bytes :=
  eapolKey [0x01, 0x48] (eapolMic C 2 (Bytes.zeros 48) (eapolKey [0x01, 0x48] (Bytes.zeros 16)))

def nullCrypto : Crypto where
  hmacSha1 _ _ := Bytes.zeros 20
  hmacSha1_length _ _ := rfl
  aesCmac _ _ := Bytes.zeros 16
  aesCmac_length _ _ := rfl
  hmacSha256 _ _ := Bytes.zeros 32
  prfSha1 _ _ _ len := Bytes.zeros len
  kdfSha256 _ _ _ bits := Bytes.zeros (bits / 8)
  pbkdf2Sha1 _ _ _ len := Bytes.zeros len
  aesUnwrap _ _ _ := none
  saePwe _ _ _ := none
  scalarAdd _ _ := Bytes.zeros 32
  pointMul _ _ := Bytes.zeros 64
  pointAdd _ _ := Bytes.zeros 64
  negate _ := Bytes.zeros 64
  pointValid _ := false

def msg1 : Event := .msdu (asMsdu (eapolKey [0x00, 0x08] (Bytes.zeros 16))) (Bytes.zeros 32) 5

def msg3 : Event := .msdu (asMsdu (eapolKey [0x01, 0x48] (Bytes.zeros 16))) [] 6

theorem port_authenticated_joinAp :
    Grants (run (step nullCrypto) ⟨{}, []⟩ (joinAp ++ [msg1])).sta
      (handle nullCrypto (run (step nullCrypto) ⟨{}, []⟩ (joinAp ++ [msg1])).sta msg3) ∧
    Justified nullCrypto (run (step nullCrypto) ⟨{}, []⟩ (joinAp ++ [msg1])) msg3 := by
  have hgrants : Grants (run (step nullCrypto) ⟨{}, []⟩ (joinAp ++ [msg1])).sta
      (handle nullCrypto (run (step nullCrypto) ⟨{}, []⟩ (joinAp ++ [msg1])).sta msg3) :=
    ⟨by decide +kernel, .inr ⟨by decide +kernel, by decide +kernel⟩⟩
  exact ⟨hgrants, (port_authenticated nullCrypto rfl (by decide +kernel)).1 hgrants⟩

theorem run_joinAp (C : Crypto) : ∃ s, run (step C) {} joinAp = ⟨s, []⟩ ∧ s.jstate = .keys ∧ s.jb = ap ∧
    s.jakm = 2 ∧ s.keys.hs = 0 ∧ s.keys.ptk = Bytes.zeros 48 ∧ s.keys.rxReplay = Bytes.zeros 8 :=
  ⟨_, rfl, rfl, rfl, rfl, rfl, rfl, rfl⟩

theorem eapolMic_length (C : Crypto) (jakm : Nat) (ptk buf : Bytes) : (eapolMic C jakm ptk buf).length = 16 := by
  unfold eapolMic
  split
  · rw [List.length_take, C.hmacSha1_length]
    rfl
  · exact C.aesCmac_length ..

theorem eapolKey_length (info : Bytes) {mic : Bytes} (hi : info.length = 2) (hm : mic.length = 16) :
    (eapolKey info mic).length = 99 := by
  simp [eapolKey, Bytes.zeros, hi, hm]

theorem micOk_eapolKey {C : Crypto} {jakm : Nat} {ptk mic : Bytes}
    (hmic : mic = eapolMic C jakm ptk (eapolKey [0x01, 0x48] (Bytes.zeros 16))) :
    MicOk C jakm ptk (eapolKey [0x01, 0x48] mic) := by
  have hlen : mic.length = 16 := hmic ▸ eapolMic_length ..
  have hspan : micSpan (eapolKey [0x01, 0x48] mic) = eapolKey [0x01, 0x48] mic := by
    have hbe : (eapolKey [0x01, 0x48] mic).be16 2 = 95 := by simp [eapolKey, Bytes.be16, Bytes.byte]
    unfold micSpan
    rw [hbe, eapolKey_length [0x01, 0x48] rfl hlen]
    exact List.take_of_length_le (Nat.le_of_eq (eapolKey_length [0x01, 0x48] rfl hlen))
  have hclear := Bytes.clear_append ([1, 3, 0, 95, 2] ++ [0x01, 0x48] ++ Bytes.zeros 74) mic [0, 0]
  have hslice := Bytes.slice_append ([1, 3, 0, 95, 2] ++ [0x01, 0x48] ++ Bytes.zeros 74) mic [0, 0]
  rw [hlen] at hclear hslice
  unfold MicOk
  rw [hspan]
  exact (congrArg _ hclear).trans (hmic.symm.trans hslice.symm)

theorem isMsg3_eapolKey (mic : Bytes) : isMsg3 (eapolKey [0x01, 0x48] mic) = true := by
  have hinfo : keyInfo (eapolKey [0x01, 0x48] mic) = 0x148 := by
    simp [keyInfo, eapolKey, eapKeyInfo, Bytes.byte]
  unfold isMsg3 isPairwise hasMic isInstall
  rw [hinfo]
  decide

/-- Whatever the ciphers and hashes are, a message 3 that comes first opens the
port: the PTK it is checked against is none of this join. -/
theorem early_msg3_authorizes : ¬ ∃ C : Crypto, ∀ (es : List Event) (e : Event),
    Grants (run (step C) {} es).sta (handle C (run (step C) {} es).sta e) →
      Justified C (run (step C) {} es) e := by
  rintro ⟨C, h⟩
  have hlen : (forgedMsg3 C).length = 99 := eapolKey_length [0x01, 0x48] rfl (eapolMic_length ..)
  have hof : eapolOf (asMsdu (forgedMsg3 C)) = some (forgedMsg3 C) := by
    simp [eapolOf, asMsdu, Bytes.byte, Bytes.be16]
  have hfull : ¬ ((forgedMsg3 C).length < eapKdata ∨ (forgedMsg3 C).byte 1 ≠ 3) := by
    rw [hlen]
    exact fun hx => hx.elim (by decide) fun hx => hx rfl
  have hspan : (micSpan (forgedMsg3 C)).length ≤ 512 :=
    Nat.le_trans (List.length_take_le' ..) (by rw [hlen]; decide)
  obtain ⟨s, hrun, hj, hjb, hakm, hhs, hptk, hrx⟩ := run_joinAp C
  have hmic : MicOk C s.jakm s.keys.ptk (forgedMsg3 C) := by
    rw [hakm, hptk]
    exact micOk_eapolKey rfl
  have hreplay : Bytes.memLt ((forgedMsg3 C).slice eapReplay 8) s.keys.rxReplay = false := by
    rw [hrx]
    rfl
  obtain ⟨hup, hjb'⟩ := eapolRx_opens hj (by rw [hhs]; decide) hfull (isMsg3_eapolKey _) hreplay hspan hmic [] 5
  have hgrants : Grants s (handle C s (.msdu (asMsdu (forgedMsg3 C)) [] 5)) := by
    simp only [handle, deliverLlc, hof]
    refine ⟨by rw [hjb', hjb]; rfl, .inr ⟨?_, hup⟩⟩
    rw [hj]
    decide
  have hjust := h joinAp (.msdu (asMsdu (forgedMsg3 C)) [] 5)
  rw [hrun] at hjust
  obtain ⟨-, -, -, -, -, -, -, -, x, hx, -⟩ := hjust hgrants
  exact nomatch hx

end Sic.Ath
