import Sic.Drivers.AthHandshake

/-! What is not an EAPOL frame leaves the group keys and the replay counter alone, until a
network is picked. -/

namespace Sic.Ath

variable {C : Crypto} {s s' : Sta}

def JState.live : JState → Bool
  | .idle | .find | .failed => false
  | _ => true

def Out.isGroup : Out → Bool
  | .installKey _ .group _ _ _ => true
  | _ => false

structure Calm (s s' : Sta) : Prop where
  out : ∃ new, s'.out = s.out ++ new ∧ ∀ o ∈ new, o.isGroup = false
  live : s'.jstate.live = true → s'.keys.hs = s.keys.hs ∧ s.jstate.live = true ∧
    (s.jstate = .up → s'.jstate = .up)
  keys : ∃ pmk hs, s'.keys = { s.keys with pmk := pmk, hs := hs }

structure Picked (s s' : Sta) : Prop where
  find : s.jstate = .find
  out : ∃ new, s'.out = s.out ++ new ∧ ∀ o ∈ new, o.isGroup = false
  rx : s'.keys.rxReplay = Bytes.zeros 8
  blank : s'.keys.hs = 0 ∧ s'.keys.gtkLen = 0 ∧ s'.keys.igtkId = 0
  start : s'.jstate.live = true → s'.jstate = .start

theorem Calm.of_emit {o : Out} (ho : o.isGroup = false) (h : Calm (s.emit o) s') : Calm s s' := by
  obtain ⟨⟨new, hout, hnew⟩, hlive, hkeys⟩ := h
  refine ⟨⟨o :: new, by rw [hout, Sta.emit, List.append_assoc]; rfl, fun x hx => ?_⟩, hlive, hkeys⟩
  rcases List.mem_cons.mp hx with rfl | hx
  · exact ho
  · exact hnew x hx

theorem calm_of_eq (hout : s'.out = s.out)
    (hlive : s'.jstate.live = true → s'.keys.hs = s.keys.hs ∧ s.jstate.live = true ∧
      (s.jstate = .up → s'.jstate = .up))
    {pmk : Bytes} {hs : Nat} (hkeys : s'.keys = { s.keys with pmk := pmk, hs := hs }) : Calm s s' :=
  ⟨⟨[], by rw [hout, List.append_nil], nofun⟩, hlive, pmk, hs, hkeys⟩

theorem Calm.refl (s : Sta) : Calm s s := calm_of_eq rfl (fun h => ⟨rfl, h, id⟩) rfl

theorem calm_to (hout : s'.out = s.out)
    (hlive : s'.jstate.live = true → s.jstate.live = true ∧ (s.jstate = .up → s'.jstate = .up))
    (hkeys : s'.keys = { s.keys with pmk := s'.keys.pmk }) : Calm s s' :=
  calm_of_eq hout (fun h => ⟨by rw [hkeys], hlive h⟩) hkeys

def Joining (s : Sta) : Prop := s.jstate.live = true ∧ s.jstate ≠ .up

theorem calm_on (hj : Joining s) (hout : s'.out = s.out) (hkeys : s'.keys = { s.keys with pmk := s'.keys.pmk }) :
    Calm s s' :=
  calm_to hout (fun _ => ⟨hj.1, fun h => absurd h hj.2⟩) hkeys

theorem joinFail_calm (s : Sta) (why : String) : Calm s (joinFail s why) :=
  .of_emit (o := .wlan0Down) rfl (calm_to rfl nofun rfl)

theorem saeStart_calm (hj : Joining s) (rand mask : Option Bytes) (now : Nat) :
    Calm s (saeStart C s rand mask now) := by
  unfold saeStart
  split
  · exact joinFail_calm s _
  split
  · exact .of_emit (o := .saeCommit) rfl (calm_on hj rfl rfl)
  · exact .of_emit (o := .wlan0Down) rfl (calm_to rfl nofun rfl)

theorem joinVdevStarted_calm (status : Nat) (rand mask : Option Bytes) (now : Nat) :
    Calm s (joinVdevStarted C s status rand mask now) := by
  unfold joinVdevStarted
  split
  · exact .refl s
  next hj =>
  have hlive : Joining s := by rw [Joining, not_not.mp hj]; exact ⟨rfl, nofun⟩
  split
  · exact joinFail_calm s _
  dsimp only
  split
  · have hstart := saeStart_calm (C := C) (s := (s.emit .peerCreate).emit .psOff) hlive rand mask now
    exact .of_emit (o := .peerCreate) rfl (.of_emit (o := .psOff) rfl hstart)
  · exact .of_emit (o := .peerCreate) rfl (.of_emit (o := .psOff) rfl (.of_emit (o := .auth) rfl
      (calm_on hlive rfl rfl)))

theorem saeProcessCommit_calm (hj : Joining s) (b : Bytes) (now : Nat) : Calm s (saeProcessCommit C s b now) := by
  unfold saeProcessCommit
  split
  · exact .refl s
  split
  · exact joinFail_calm s _
  dsimp only
  split
  · exact .of_emit (o := .wlan0Down) rfl (calm_to rfl nofun rfl)
  split
  · exact .of_emit (o := .wlan0Down) rfl (calm_to rfl nofun rfl)
  · exact .of_emit (o := .saeConfirm) rfl (calm_on hj rfl rfl)

theorem saeProcessConfirm_calm (hj : Joining s) (b : Bytes) (now : Nat) :
    Calm s (saeProcessConfirm C s b now) := by
  unfold saeProcessConfirm
  split
  · exact .refl s
  dsimp only
  split
  · exact joinFail_calm s _
  · exact .of_emit (o := .assoc) rfl (calm_on hj rfl rfl)

theorem joinAuth_calm (b : Bytes) (now : Nat) : Calm s (joinAuth C s b now) := by
  unfold joinAuth
  split
  · dsimp only
    split
    · split
      · exact .of_emit (o := .saeCommit) rfl (calm_to rfl (fun h => ⟨h, id⟩) rfl)
      split
      · exact joinFail_calm s _
      split
      · next hj => exact saeProcessCommit_calm (by rw [Joining, hj]; exact ⟨rfl, nofun⟩) b now
      · exact .refl s
    split
    · split
      · exact joinFail_calm s _
      split
      · next hj => exact saeProcessConfirm_calm (by rw [Joining, hj]; exact ⟨rfl, nofun⟩) b now
      · exact .refl s
    · exact .refl s
  split
  · exact .refl s
  next hcond =>
  have hlive : Joining s := by rw [Joining, not_not.mp (not_or.mp hcond).1]; exact ⟨rfl, nofun⟩
  split
  · exact joinFail_calm s _
  · exact .of_emit (o := .assoc) rfl (calm_on hlive rfl rfl)

theorem joinAssoc_calm (b : Bytes) (now : Nat) : Calm s (joinAssoc s b now) := by
  unfold joinAssoc
  split
  · exact .refl s
  next hj =>
  have hlive : Joining s := by rw [Joining, not_not.mp hj]; exact ⟨rfl, nofun⟩
  split
  · exact joinFail_calm s _
  dsimp only
  split
  · exact .of_emit (o := .peerAssoc) rfl (.of_emit (o := .vdevUp) rfl (calm_on hlive rfl rfl))
  · exact .of_emit (o := .peerAssoc) rfl (.of_emit (o := .vdevUp) rfl (.of_emit (o := .peerParam 3 1) rfl
      (.of_emit (o := .wlan0Up) rfl (calm_on hlive rfl rfl))))

theorem joinGone_calm (why : String) (now : Nat) : Calm s (joinGone s why now) := by
  unfold joinGone
  split
  · unfold joinLost
    dsimp only
    split
    all_goals
      exact .of_emit (o := .wlan0Down) rfl (.of_emit (o := .vdevDown) rfl (.of_emit (o := .peerDelete) rfl
        (.of_emit (o := .vdevStop) rfl (calm_of_eq rfl nofun rfl))))
  split
  · exact joinFail_calm s _
  · exact .refl s

theorem joinMgmt_calm (f : Bytes) (now : Nat) : Calm s (joinMgmt C s f now) := by
  unfold joinMgmt
  split
  · exact .refl s
  dsimp only
  split
  · split
    · exact .refl s
    · exact joinAuth_calm _ now
  split
  · split
    · exact .refl s
    · exact joinAssoc_calm _ now
  split
  · exact joinGone_calm _ now
  · exact .refl s

theorem retry_calm (why : String) {o : Out} (ho : o.isGroup = false) (now : Nat) :
    Calm s (retry s why (fun s now => { s.emit o with jsent := now }) now) := by
  unfold retry
  split
  · exact .refl s
  dsimp only
  split
  · exact .of_emit (o := .wlan0Down) rfl (calm_to rfl nofun rfl)
  · exact .of_emit ho (calm_to rfl (fun h => ⟨h, id⟩) rfl)

theorem joinPick_cases (hj : s.jstate = .find) (now : Nat) :
    Calm s (joinPick C s now).1 ∨ Picked s (joinPick C s now).1 := by
  unfold joinPick
  split
  · exact .inl (calm_to rfl nofun rfl)
  · exact .inl (.refl s)
  next b _ _ =>
  right
  dsimp only
  split
  · exact ⟨hj, ⟨[.wlan0Down], rfl, by simp [Out.isGroup]⟩, rfl, ⟨rfl, rfl, rfl⟩, nofun⟩
  split
  · exact ⟨hj, ⟨[.vdevStart], rfl, by simp [Out.isGroup]⟩, rfl, ⟨rfl, rfl, rfl⟩, fun _ => rfl⟩
  · exact ⟨hj, ⟨[.vdevStart], rfl, by simp [Out.isGroup]⟩, rfl, ⟨rfl, rfl, rfl⟩, fun _ => rfl⟩

theorem joinPoll_cases (now : Nat) : Calm s (joinPoll C s now) ∨ Picked s (joinPoll C s now) := by
  unfold joinPoll
  split
  · left
    split
    · dsimp only
      split
      · exact calm_to rfl nofun rfl
      · exact .of_emit (o := .startScan) rfl (calm_to rfl nofun rfl)
    · exact .refl s
  · next hj =>
    split
    · exact .inl (.refl s)
    have hp := joinPick_cases (C := C) hj now
    generalize joinPick C s now = x at hp
    obtain ⟨s', _ | _⟩ := x
    · dsimp only at hp ⊢
      split
      · refine hp.imp (fun h => ?_) fun h => ?_
        · obtain ⟨⟨new, hout, hnew⟩, -, pmk, hs, hkeys⟩ := h
          refine ⟨⟨new ++ [.wlan0Down], by simp [joinFail, Sta.emit, hout], fun o ho => ?_⟩, nofun, pmk, hs,
            hkeys⟩
          rcases List.mem_append.mp ho with ho | ho
          · exact hnew o ho
          · rw [List.mem_singleton.mp ho]
            rfl
        · obtain ⟨hfind, ⟨new, hout, hnew⟩, hrx, hblank, -⟩ := h
          refine ⟨hfind, ⟨new ++ [.wlan0Down], by simp [joinFail, Sta.emit, hout], fun o ho => ?_⟩, hrx, hblank,
            nofun⟩
          rcases List.mem_append.mp ho with ho | ho
          · exact hnew o ho
          · rw [List.mem_singleton.mp ho]
            rfl
      · exact hp
    · exact hp
  · left
    split
    · exact joinFail_calm s _
    · exact .refl s
  · exact .inl (retry_calm _ rfl now)
  · exact .inl (retry_calm _ rfl now)
  · exact .inl (retry_calm _ rfl now)
  · exact .inl (retry_calm _ rfl now)
  · left
    split
    · exact joinFail_calm s _
    · exact .refl s
  · exact .inl (.refl s)
  · exact .inl (.refl s)

theorem connect_calm (ssid pass : Bytes) : Calm s (connect s ssid pass).1 := by
  unfold connect
  split
  · exact .refl s
  split
  · exact .refl s
  dsimp only
  split
  · split
    · exact calm_to rfl nofun rfl
    · exact .of_emit (o := .startScan) rfl (calm_to rfl nofun rfl)
  · split
    · exact .of_emit (o := .chanList) rfl (.of_emit (o := .vdevCreate) rfl (calm_to rfl nofun rfl))
    · exact .of_emit (o := .chanList) rfl (.of_emit (o := .vdevCreate) rfl (.of_emit (o := .startScan) rfl
        (calm_to rfl nofun rfl)))

def frameOf : Event → Option Bytes
  | .msdu p _ _ => eapolOf p
  | _ => none

theorem handle_cases {e : Event} (he : frameOf e = none) : Calm s (handle C s e) ∨ Picked s (handle C s e) := by
  cases e with
  | connect ssid pass => exact .inl (connect_calm ssid pass)
  | beacon b => exact .inl (calm_to rfl (fun h => ⟨h, id⟩) rfl)
  | scanDone => exact .inl (calm_to rfl (fun h => ⟨h, id⟩) rfl)
  | poll now => exact joinPoll_cases now
  | vdevStarted status rand mask now => exact .inl (joinVdevStarted_calm status rand mask now)
  | mgmt f now => exact .inl (joinMgmt_calm f now)
  | msdu p rnd now =>
    left
    rw [handle, deliverLlc, show eapolOf p = none from he]
    exact .refl s
  | kickout now => exact .inl (joinGone_calm _ now)

end Sic.Ath
