import Sic.Drivers.AthRun

/-! What holds at each stage of a join, and that the calls up to the handshake
keep it and authorize nothing. -/

namespace Sic.Ath

def Stage (C : Crypto) (m : Machine) : Prop :=
  let s := m.sta
  match s.jstate with
  | .start => s.keys.hs = 0 ∧ (s.jb.secure = 2 → s.jakm ≠ 8 → PmkCurrent C s)
  | .saeCommit => s.keys.hs = 0 ∧ s.jakm = 8 ∧ C.saePwe s.jpass s.mac s.jb.bssid = some s.sae.pwe
  | .saeConfirm => s.keys.hs = 0 ∧ s.jakm = 8 ∧ C.saePwe s.jpass s.mac s.jb.bssid = some s.sae.pwe ∧
      s.keys.pmk = (saeKeys C s.sae).slice 32 32
  | .auth => s.keys.hs = 0 ∧ (s.jb.secure = 2 → PmkCurrent C s)
  | .assoc => s.keys.hs = 0 ∧ (s.jb.secure = 2 → PmkCurrent C s)
  | .keys => s.jb.secure = 2 ∧ PmkCurrent C s ∧
      (s.keys.hs = 0 ∨ s.keys.hs = 1 ∧ ∃ n ∈ m.nonces, s.keys.ptk = pairwiseKey C s n.1 n.2)
  | .up => s.jb.secure = 2 → s.keys.hs = 2
  | .idle | .find | .failed => True

variable {C : Crypto} {s s' : Sta} {n n' : List (Bytes × Bytes)}

theorem Stage.nonces (h : Stage C ⟨s, n⟩) (hn : s.jstate = .keys → n ⊆ n') : Stage C ⟨s, n'⟩ := by
  unfold Stage at *
  dsimp only at *
  cases hj : s.jstate <;> rw [hj] at h <;> try exact h
  obtain ⟨hs, hp, hk⟩ := h
  refine ⟨hs, hp, hk.imp_right ?_⟩
  rintro ⟨h₁, x, hx, he⟩
  exact ⟨h₁, x, hn hj hx, he⟩

structure Kept (s s' : Sta) : Prop where
  jstate : s'.jstate = s.jstate
  jb : s'.jb = s.jb
  jakm : s'.jakm = s.jakm
  jpass : s'.jpass = s.jpass
  mac : s'.mac = s.mac
  sae : s'.sae = s.sae
  hs : s'.keys.hs = s.keys.hs
  pmk : s'.keys.pmk = s.keys.pmk
  ptk : s'.keys.ptk = s.keys.ptk

theorem Kept.trans {s'' : Sta} (h : Kept s s') (h' : Kept s' s'') : Kept s s'' :=
  ⟨h'.jstate.trans h.jstate, h'.jb.trans h.jb, h'.jakm.trans h.jakm, h'.jpass.trans h.jpass,
    h'.mac.trans h.mac, h'.sae.trans h.sae, h'.hs.trans h.hs, h'.pmk.trans h.pmk, h'.ptk.trans h.ptk⟩

theorem Kept.pmkCurrent (h : Kept s s') : PmkCurrent C s' ↔ PmkCurrent C s := by
  unfold PmkCurrent
  rw [h.jakm, h.pmk, h.jpass, h.jb, h.sae, h.mac]

theorem Kept.pairwiseKey (h : Kept s s') (a b : Bytes) : pairwiseKey C s' a b = pairwiseKey C s a b := by
  unfold Ath.pairwiseKey
  rw [h.jb, h.mac, h.jakm, h.pmk]

theorem Stage.kept (hst : Stage C ⟨s, n⟩) (h : Kept s s') : Stage C ⟨s', n⟩ := by
  unfold Stage at *
  dsimp only at *
  rw [h.jstate]
  simp only [h.pmkCurrent, h.pairwiseKey, h.hs, h.jb, h.jakm, h.jpass, h.mac, h.sae, h.pmk, h.ptk]
  exact hst

structure Plain (s s' : Sta) : Prop where
  out : ∃ new, s'.out = s.out ++ new ∧ (s'.jb.secure = 2 → ∀ o ∈ new, o.authorizing = false)
  up : s'.jstate = .up → s.jstate = .up ∨ s'.jb.secure ≠ 2

theorem Plain.not_grants (h : Plain s s') : ¬ Grants s s' := by
  rintro ⟨hsec, ⟨o, ho, hauth⟩ | ⟨hnot, hup⟩⟩
  · obtain ⟨new, hout, hnone⟩ := h.out
    rw [hout, List.drop_left] at ho
    rw [hnone hsec o ho] at hauth
    exact nomatch hauth
  · exact (h.up hup).elim hnot fun hne => hne hsec

theorem plain_of_out {new : List Out} (hout : s'.out = s.out ++ new) (hnew : ∀ o ∈ new, o.authorizing = false)
    (hup : s'.jstate = .up → s.jstate = .up) : Plain s s' :=
  ⟨⟨new, hout, fun _ => hnew⟩, fun h => .inl (hup h)⟩

theorem plain_refl (hout : s'.out = s.out) (hup : s'.jstate = .up → s.jstate = .up) : Plain s s' :=
  plain_of_out (show s'.out = s.out ++ [] by rw [hout, List.append_nil]) (fun _ ho => nomatch ho) hup

theorem Plain.of_emit {o : Out} (ho : o.authorizing = false) (h : Plain (s.emit o) s') : Plain s s' := by
  obtain ⟨⟨new, hout, hnew⟩, hup⟩ := h
  refine ⟨⟨o :: new, by rw [hout, Sta.emit, List.append_assoc]; rfl, fun hs x hx => ?_⟩, hup⟩
  rcases List.mem_cons.mp hx with rfl | hx
  · exact ho
  · exact hnew hs x hx

theorem joinFail_plain (s : Sta) (why : String) : Plain s (joinFail s why) :=
  .of_emit (o := .wlan0Down) rfl (plain_refl rfl fun h => nomatch h)

def Safe (C : Crypto) (n : List (Bytes × Bytes)) (s s' : Sta) : Prop := Plain s s' ∧ Stage C ⟨s', n⟩

theorem joinFail_safe (s : Sta) (why : String) : Safe C n s (joinFail s why) :=
  ⟨joinFail_plain s why, trivial⟩

theorem Stage.safe (h : Stage C ⟨s, n⟩) : Safe C n s s := ⟨plain_refl rfl id, h⟩

/-! ### The join keeps the stages -/

theorem joinPick_safe (hj : s.jstate = .find) (now : Nat) : Safe C n s (joinPick C s now).1 := by
  have hfind : Stage C ⟨s, n⟩ := by
    unfold Stage
    simp only [hj]
  unfold joinPick
  split
  · exact ⟨plain_refl rfl (fun h => nomatch h), trivial⟩
  · exact hfind.safe
  next b _ _ =>
  dsimp only
  by_cases hpass : b.secure = 2 ∧ s.jpass = []
  · rw [if_pos hpass]
    exact ⟨.of_emit (o := .wlan0Down) rfl (plain_refl rfl (fun h => nomatch h)), trivial⟩
  rw [if_neg hpass]
  by_cases hsec : b.secure = 2
  · rw [if_pos hsec]
    exact ⟨.of_emit (o := .vdevStart) rfl (plain_refl rfl (fun h => nomatch h)),
      show _ ∧ _ from ⟨rfl, fun _ hakm => .inl ⟨hakm, if_pos hakm⟩⟩⟩
  · rw [if_neg hsec]
    exact ⟨.of_emit (o := .vdevStart) rfl (plain_refl rfl (fun h => nomatch h)),
      show _ ∧ _ from ⟨rfl, fun h => absurd h hsec⟩⟩

theorem saeStart_safe (hs : s.keys.hs = 0) (hakm : s.jakm = 8) (rand mask : Option Bytes) (now : Nat) :
    Safe C n s (saeStart C s rand mask now) := by
  unfold saeStart
  split
  · exact joinFail_safe s _
  next pwe hpwe =>
  split
  · exact ⟨.of_emit (o := .saeCommit) rfl (plain_refl rfl (fun h => nomatch h)),
      show _ ∧ _ ∧ _ from ⟨hs, hakm, hpwe⟩⟩
  · exact ⟨.of_emit (o := .wlan0Down) rfl (plain_refl rfl (fun h => nomatch h)), trivial⟩

theorem joinVdevStarted_safe (h : Stage C ⟨s, n⟩) (status : Nat) (rand mask : Option Bytes) (now : Nat) :
    Safe C n s (joinVdevStarted C s status rand mask now) := by
  unfold joinVdevStarted
  by_cases hj : s.jstate ≠ .start
  · rw [if_pos hj]
    exact h.safe
  rw [if_neg hj]
  have hst := h
  unfold Stage at hst
  simp only [not_not.mp hj] at hst
  split
  · exact joinFail_safe s _
  dsimp only
  by_cases hakm : s.jakm = 8
  · rw [if_pos (show ((s.emit .peerCreate).emit .psOff).jakm = 8 from hakm)]
    obtain ⟨hp, hs⟩ := saeStart_safe (C := C) (s := (s.emit .peerCreate).emit .psOff) (n := n) hst.1 hakm
      rand mask now
    exact ⟨.of_emit (o := .peerCreate) rfl (.of_emit (o := .psOff) rfl hp), hs⟩
  · rw [if_neg (show ¬ ((s.emit .peerCreate).emit .psOff).jakm = 8 from hakm)]
    exact ⟨.of_emit (o := .peerCreate) rfl (.of_emit (o := .psOff) rfl (.of_emit (o := .auth) rfl
      (plain_refl rfl (fun h => nomatch h)))), show _ ∧ _ from ⟨hst.1, fun hs => hst.2 hs hakm⟩⟩

theorem saeProcessCommit_safe (h : Stage C ⟨s, n⟩) (hj : s.jstate = .saeCommit) (b : Bytes) (now : Nat) :
    Safe C n s (saeProcessCommit C s b now) := by
  have hst := h
  unfold Stage at hst
  simp only [hj] at hst
  unfold saeProcessCommit
  split
  · exact h.safe
  split
  · exact joinFail_safe s _
  dsimp only
  split
  · exact ⟨.of_emit (o := .wlan0Down) rfl (plain_refl rfl (fun h => nomatch h)), trivial⟩
  split
  · exact ⟨.of_emit (o := .wlan0Down) rfl (plain_refl rfl (fun h => nomatch h)), trivial⟩
  · exact ⟨.of_emit (o := .saeConfirm) rfl (plain_refl rfl (fun h => nomatch h)),
      show _ ∧ _ ∧ _ ∧ _ from ⟨hst.1, hst.2.1, hst.2.2, rfl⟩⟩

theorem saeProcessConfirm_safe (h : Stage C ⟨s, n⟩) (hj : s.jstate = .saeConfirm) (b : Bytes) (now : Nat) :
    Safe C n s (saeProcessConfirm C s b now) := by
  have hst := h
  unfold Stage at hst
  simp only [hj] at hst
  unfold saeProcessConfirm
  split
  · exact h.safe
  dsimp only
  split
  · exact joinFail_safe s _
  · exact ⟨.of_emit (o := .assoc) rfl (plain_refl rfl (fun h => nomatch h)),
      show _ ∧ _ from ⟨hst.1, fun _ => .inr ⟨hst.2.1, rfl, hst.2.2.1, hst.2.2.2⟩⟩⟩

theorem joinAuth_safe (h : Stage C ⟨s, n⟩) (b : Bytes) (now : Nat) : Safe C n s (joinAuth C s b now) := by
  have resend : Safe C n s (sendSaeCommit s now) :=
    ⟨.of_emit (o := .saeCommit) rfl (plain_refl rfl id), h.kept ⟨rfl, rfl, rfl, rfl, rfl, rfl, rfl, rfl, rfl⟩⟩
  unfold joinAuth
  split
  · dsimp only
    split
    · split
      · exact resend
      split
      · exact joinFail_safe s _
      split
      · next hj => exact saeProcessCommit_safe h hj b now
      · exact h.safe
    split
    · split
      · exact joinFail_safe s _
      split
      · next hj => exact saeProcessConfirm_safe h hj b now
      · exact h.safe
    · exact h.safe
  split
  · exact h.safe
  next hcond =>
  split
  · exact joinFail_safe s _
  have hst := h
  unfold Stage at hst
  simp only [not_not.mp (not_or.mp hcond).1] at hst
  exact ⟨.of_emit (o := .assoc) rfl (plain_refl rfl (fun h => nomatch h)), show _ ∧ _ from hst⟩

theorem joinAssoc_safe (h : Stage C ⟨s, n⟩) (b : Bytes) (now : Nat) : Safe C n s (joinAssoc s b now) := by
  unfold joinAssoc
  split
  · exact h.safe
  next hj =>
  have hst := h
  unfold Stage at hst
  simp only [not_not.mp hj] at hst
  split
  · exact joinFail_safe s _
  dsimp only
  by_cases hsec : s.jb.secure = 2
  · rw [if_pos (show ((s.emit .peerAssoc).emit .vdevUp).jb.secure = 2 from hsec)]
    exact ⟨.of_emit (o := .peerAssoc) rfl (.of_emit (o := .vdevUp) rfl (plain_refl rfl (fun h => nomatch h))),
      show _ ∧ _ ∧ _ from ⟨hsec, hst.2 hsec, .inl hst.1⟩⟩
  · rw [if_neg (show ¬ ((s.emit .peerAssoc).emit .vdevUp).jb.secure = 2 from hsec)]
    refine ⟨⟨⟨[.peerAssoc, .vdevUp, .peerParam 3 1, .wlan0Up], ?_, fun h => absurd h hsec⟩,
      fun _ => .inr hsec⟩, show _ → _ from fun h => absurd h hsec⟩
    simp [Sta.emit]

theorem joinGone_safe (h : Stage C ⟨s, n⟩) (why : String) (now : Nat) : Safe C n s (joinGone s why now) := by
  unfold joinGone
  split
  · unfold joinLost
    dsimp only
    split
    all_goals
      exact ⟨.of_emit (o := .wlan0Down) rfl (.of_emit (o := .vdevDown) rfl (.of_emit (o := .peerDelete) rfl
        (.of_emit (o := .vdevStop) rfl (plain_refl rfl (fun h => nomatch h))))), trivial⟩
  split
  · exact joinFail_safe s _
  · exact h.safe

theorem joinMgmt_safe (h : Stage C ⟨s, n⟩) (f : Bytes) (now : Nat) : Safe C n s (joinMgmt C s f now) := by
  unfold joinMgmt
  split
  · exact h.safe
  dsimp only
  split
  · split
    · exact h.safe
    · exact joinAuth_safe h _ now
  split
  · split
    · exact h.safe
    · exact joinAssoc_safe h _ now
  split
  · exact joinGone_safe h _ now
  · exact h.safe

theorem retry_safe (h : Stage C ⟨s, n⟩) (why : String) {send : Sta → Nat → Sta} (now : Nat)
    (hsend : ∀ s, Plain s (send s now) ∧ Kept s (send s now)) : Safe C n s (retry s why send now) := by
  unfold retry
  split
  · exact h.safe
  dsimp only
  split
  · exact ⟨.of_emit (o := .wlan0Down) rfl (plain_refl rfl (fun h => nomatch h)), trivial⟩
  obtain ⟨hp, hk⟩ := hsend { s with jtries := s.jtries + 1 }
  have hcount : Kept s { s with jtries := s.jtries + 1 } := ⟨rfl, rfl, rfl, rfl, rfl, rfl, rfl, rfl, rfl⟩
  exact ⟨⟨hp.out, hp.up⟩, h.kept (hcount.trans hk)⟩

theorem joinPoll_safe (h : Stage C ⟨s, n⟩) (now : Nat) : Safe C n s (joinPoll C s now) := by
  have resend (o : Out) (ho : o.authorizing = false) (s : Sta) :
      Plain s { s.emit o with jsent := now } ∧ Kept s { s.emit o with jsent := now } :=
    ⟨.of_emit ho (plain_refl rfl id), rfl, rfl, rfl, rfl, rfl, rfl, rfl, rfl, rfl⟩
  unfold joinPoll
  split
  · split
    · dsimp only
      split
      · exact ⟨plain_refl rfl (fun h => nomatch h), trivial⟩
      · exact ⟨.of_emit (o := .startScan) rfl (plain_refl rfl (fun h => nomatch h)), trivial⟩
    · exact h.safe
  · next hj =>
    split
    · exact h.safe
    have hp := joinPick_safe (C := C) (n := n) hj now
    generalize joinPick C s now = x at hp
    obtain ⟨s', _ | _⟩ := x
    · dsimp only at hp ⊢
      split
      · next hf =>
        obtain ⟨new, hout, hnew⟩ := hp.1.out
        refine ⟨⟨⟨new ++ [.wlan0Down], ?_, fun hs o ho => ?_⟩, fun h => nomatch h⟩, trivial⟩
        · simp [joinFail, Sta.emit, hout]
        rcases List.mem_append.mp ho with ho | ho
        · exact hnew hs o ho
        · rw [List.mem_singleton.mp ho]
          rfl
      · exact hp
    · exact hp
  · split
    · exact joinFail_safe s _
    · exact h.safe
  · exact retry_safe h _ now (resend .saeCommit rfl)
  · exact retry_safe h _ now (resend .saeConfirm rfl)
  · exact retry_safe h _ now (resend .auth rfl)
  · exact retry_safe h _ now (resend .assoc rfl)
  · split
    · exact joinFail_safe s _
    · exact h.safe
  · exact h.safe
  · exact h.safe

theorem connect_safe (h : Stage C ⟨s, n⟩) (ssid pass : Bytes) : Safe C n s (connect s ssid pass).1 := by
  unfold connect
  split
  · exact h.safe
  split
  · exact h.safe
  dsimp only
  have scan {s₁ : Sta} (hp : ∀ s₂, Plain s₁ s₂ → Plain s s₂) (hj : s₁.jstate = .find) :
      Safe C n s (if s₁.scanning then s₁ else { s₁.emit .startScan with scanning := true }) := by
    have hst (s₂ : Sta) (hj : s₂.jstate = .find) : Stage C ⟨s₂, n⟩ := by
      unfold Stage
      simp only [hj]
    split
    · exact ⟨hp _ (plain_refl rfl id), hst _ hj⟩
    · exact ⟨hp _ (.of_emit (o := .startScan) rfl (plain_refl rfl id)), hst _ hj⟩
  split
  · exact scan (fun s₂ hp => ⟨hp.out, fun hu => (hp.up hu).imp (fun h => nomatch h) id⟩) rfl
  · refine scan (fun s₂ hp => .of_emit (o := .chanList) rfl (.of_emit (o := .vdevCreate) rfl ?_)) rfl
    exact ⟨hp.out, fun hu => (hp.up hu).imp (fun h => nomatch h) id⟩

end Sic.Ath
