import Sic.Drivers.AthGroup

/-! SAE with a peer that does not know the passphrase, and so can only give back what the
driver has sent. -/

namespace Sic.Ath

variable {C : Crypto} {s s' : Sta} {e : Event}

def saeCommitBody (a : Sae) : Bytes := [3, 0, 1, 0, 0, 0, 19, 0] ++ a.scalar ++ a.element

def confirmInput (a : Sae) : Bytes := [1, 0] ++ a.scalar ++ a.element ++ a.peerScalar ++ a.peerElement

def saeConfirmBody (C : Crypto) (a : Sae) : Bytes :=
  [3, 0, 2, 0, 0, 0, 1, 0] ++ C.hmacSha256 a.kck (confirmInput a)

def checkInput (a : Sae) (b : Bytes) : Bytes :=
  [b.byte 6, b.byte 7] ++ a.peerScalar ++ a.peerElement ++ a.scalar ++ a.element

def mgmtBody (f : Bytes) : Bytes := f.drop 24

def IsSae (s : Sta) (seq : Nat) (f : Bytes) : Prop :=
  ¬ (f.length < 24 ∨ f.slice 4 6 ≠ s.mac ∨ f.slice 16 6 ≠ s.jb.bssid) ∧ f.byte 0 = 0xb0 ∧ ¬ f.length < 30 ∧
    (mgmtBody f).le16 0 = 3 ∧ (mgmtBody f).le16 2 = seq ∧ (mgmtBody f).le16 4 = 0

instance (s : Sta) (seq : Nat) (f : Bytes) : Decidable (IsSae s seq f) := inferInstanceAs (Decidable (_ ∧ _))

def JState.exchanging : JState → Bool
  | .saeCommit | .saeConfirm => true
  | _ => false

/-! ### What events do to the exchange -/

structure Still (s s' : Sta) : Prop where
  own : s'.jstate.exchanging = true → s'.jstate = s.jstate ∧ s'.sae = s.sae
  assoc : s'.jstate = .assoc → s.jstate ≠ .saeConfirm

structure Started (C : Crypto) (s s' : Sta) (e : Event) : Prop where
  draw : ∃ status rand mask now pwe, e = .vdevStarted status (some rand) (some mask) now ∧
    C.saePwe s.jpass s.mac s.jb.bssid = some pwe ∧ s'.sae.scalar = C.scalarAdd rand mask ∧
    s'.sae.element = C.negate (C.pointMul mask pwe)
  jstate : s'.jstate = .saeCommit

structure Committed (s s' : Sta) (e : Event) : Prop where
  frame : ∃ f now, e = .mgmt f now ∧ IsSae s 1 f ∧ 104 ≤ (mgmtBody f).length ∧
    s'.sae.peerScalar = (mgmtBody f).slice 8 32 ∧ s'.sae.peerElement = (mgmtBody f).slice 40 64
  before : s.jstate = .saeCommit
  own : s'.sae.scalar = s.sae.scalar ∧ s'.sae.element = s.sae.element
  jstate : s'.jstate = .saeConfirm

structure Confirmed (C : Crypto) (s s' : Sta) (e : Event) : Prop where
  frame : ∃ f now, e = .mgmt f now ∧ IsSae s 2 f ∧
    C.hmacSha256 s.sae.kck (checkInput s.sae (mgmtBody f)) = (mgmtBody f).slice 8 32
  before : s.jstate = .saeConfirm
  jstate : s'.jstate = .assoc

theorem Still.refl (s : Sta) : Still s s := ⟨fun _ => ⟨rfl, rfl⟩, fun h => by rw [h]; nofun⟩

theorem joinFail_still (s : Sta) (why : String) : Still s (joinFail s why) :=
  ⟨nofun, nofun⟩

theorem saeProcessCommit_cases {f : Bytes} (now : Nat) (hf : IsSae s 1 f) (hj : s.jstate = .saeCommit) :
    Still s (saeProcessCommit C s (mgmtBody f) now) ∨
      Committed s (saeProcessCommit C s (mgmtBody f) now) (.mgmt f now) := by
  unfold saeProcessCommit
  split
  · exact .inl (.refl s)
  next hlen =>
  split
  · exact .inl (joinFail_still s _)
  dsimp only
  split
  · exact .inl ⟨nofun, nofun⟩
  split
  · exact .inl ⟨nofun, nofun⟩
  · exact .inr ⟨⟨f, now, rfl, hf, by omega, rfl, rfl⟩, hj, ⟨rfl, rfl⟩, rfl⟩

theorem saeProcessConfirm_cases {f : Bytes} (now : Nat) (hf : IsSae s 2 f) (hj : s.jstate = .saeConfirm) :
    Still s (saeProcessConfirm C s (mgmtBody f) now) ∨
      Confirmed C s (saeProcessConfirm C s (mgmtBody f) now) (.mgmt f now) := by
  unfold saeProcessConfirm
  split
  · exact .inl (.refl s)
  dsimp only
  split
  · exact .inl (joinFail_still s _)
  · next hmac => exact .inr ⟨⟨f, now, rfl, hf, not_not.mp hmac⟩, hj, rfl⟩

abbrev Moves (C : Crypto) (s s' : Sta) (e : Event) : Prop :=
  Still s s' ∨ Started C s s' e ∨ Committed s s' e ∨ Confirmed C s s' e

theorem joinAuth_moves {f : Bytes} (now : Nat)
    (hguard : ¬ (f.length < 24 ∨ f.slice 4 6 ≠ s.mac ∨ f.slice 16 6 ≠ s.jb.bssid))
    (hkind : f.byte 0 = 0xb0) (hlen : ¬ f.length < 30) :
    Moves C s (joinAuth C s (mgmtBody f) now) (.mgmt f now) := by
  unfold joinAuth
  split
  · next halg =>
    dsimp only
    split
    · next hseq =>
      split
      · next hj =>
        have hne : s.jstate ≠ .saeConfirm := by rw [hj.2]; nofun
        exact .inl ⟨fun _ => ⟨rfl, rfl⟩, fun _ => hne⟩
      split
      · exact .inl (joinFail_still s _)
      next hstatus =>
      split
      · next hj =>
        have hcases := saeProcessCommit_cases (C := C) now
          ⟨hguard, hkind, hlen, halg, hseq, not_not.mp hstatus⟩ hj
        exact hcases.imp_right fun h => .inr (.inl h)
      · exact .inl (.refl s)
    split
    · next hseq =>
      split
      · exact .inl (joinFail_still s _)
      next hstatus =>
      split
      · next hj =>
        have hcases := saeProcessConfirm_cases (C := C) now
          ⟨hguard, hkind, hlen, halg, hseq, not_not.mp hstatus⟩ hj
        exact hcases.imp_right fun h => .inr (.inr h)
      · exact .inl (.refl s)
    · exact .inl (.refl s)
  left
  split
  · exact .refl s
  next hcond =>
  have hj : s.jstate ≠ .saeConfirm := by rw [not_not.mp (not_or.mp hcond).1]; nofun
  split
  · exact joinFail_still s _
  · exact ⟨nofun, fun _ => hj⟩

theorem joinAssoc_still (b : Bytes) (now : Nat) : Still s (joinAssoc s b now) := by
  unfold joinAssoc
  split
  · exact .refl s
  split
  · exact joinFail_still s _
  dsimp only
  split
  · exact ⟨nofun, nofun⟩
  · exact ⟨nofun, nofun⟩

theorem joinGone_still (why : String) (now : Nat) : Still s (joinGone s why now) := by
  unfold joinGone
  split
  · unfold joinLost
    dsimp only
    split
    all_goals
      exact ⟨nofun, nofun⟩
  split
  · exact joinFail_still s _
  · exact .refl s

theorem joinMgmt_moves (f : Bytes) (now : Nat) : Moves C s (joinMgmt C s f now) (.mgmt f now) := by
  unfold joinMgmt
  split
  · exact .inl (.refl s)
  next hguard =>
  dsimp only
  split
  · next hkind =>
    split
    · exact .inl (.refl s)
    · next hlen => exact joinAuth_moves now hguard hkind hlen
  left
  split
  · split
    · exact .refl s
    · exact joinAssoc_still _ now
  split
  · exact joinGone_still _ now
  · exact .refl s

theorem saeStart_moves {status now : Nat} {rand mask : Option Bytes} :
    Still s (saeStart C s rand mask now) ∨
      Started C s (saeStart C s rand mask now) (.vdevStarted status rand mask now) := by
  unfold saeStart
  split
  · exact .inl (joinFail_still s _)
  next pwe hpwe =>
  split
  · next rand mask =>
    exact .inr ⟨⟨status, rand, mask, now, pwe, rfl, hpwe, rfl, rfl⟩, rfl⟩
  · exact .inl ⟨nofun, nofun⟩

theorem joinVdevStarted_moves (status : Nat) (rand mask : Option Bytes) (now : Nat) :
    Moves C s (joinVdevStarted C s status rand mask now) (.vdevStarted status rand mask now) := by
  unfold joinVdevStarted
  split
  · exact .inl (.refl s)
  split
  · exact .inl (joinFail_still s _)
  dsimp only
  split
  · rcases saeStart_moves (C := C) (s := (s.emit .peerCreate).emit .psOff)
      with h | h
    · exact .inl ⟨h.own, h.assoc⟩
    · exact .inr (.inl ⟨h.draw, h.jstate⟩)
  · exact .inl ⟨nofun, nofun⟩

theorem retry_still (why : String) (o : Out) (now : Nat) :
    Still s (retry s why (fun s now => { s.emit o with jsent := now }) now) := by
  unfold retry
  split
  · exact .refl s
  dsimp only
  split
  · exact ⟨nofun, nofun⟩
  refine ⟨fun _ => ⟨rfl, rfl⟩, fun h => ?_⟩
  have h : s.jstate = .assoc := h
  rw [h]
  nofun

theorem joinPick_still (now : Nat) : Still s (joinPick C s now).1 := by
  unfold joinPick
  split
  · exact ⟨nofun, nofun⟩
  · exact .refl s
  dsimp only
  split
  · exact ⟨nofun, nofun⟩
  split
  · exact ⟨nofun, nofun⟩
  · exact ⟨nofun, nofun⟩

theorem joinPoll_still (now : Nat) : Still s (joinPoll C s now) := by
  unfold joinPoll
  split
  · split
    · dsimp only
      split
      · exact ⟨nofun, nofun⟩
      · exact ⟨nofun, nofun⟩
    · exact .refl s
  · split
    · exact .refl s
    have hp := joinPick_still (C := C) (s := s) now
    generalize joinPick C s now = x at hp
    obtain ⟨s', _ | _⟩ := x
    · dsimp only at hp ⊢
      split
      · exact ⟨nofun, nofun⟩
      · exact hp
    · exact hp
  · split
    · exact joinFail_still s _
    · exact .refl s
  · exact retry_still _ .saeCommit now
  · exact retry_still _ .saeConfirm now
  · exact retry_still _ .auth now
  · exact retry_still _ .assoc now
  · split
    · exact joinFail_still s _
    · exact .refl s
  · exact .refl s
  · exact .refl s

theorem connect_still (ssid pass : Bytes) : Still s (connect s ssid pass).1 := by
  unfold connect
  split
  · exact .refl s
  split
  · exact .refl s
  dsimp only
  split
  · split
    · exact ⟨nofun, nofun⟩
    · exact ⟨nofun, nofun⟩
  · split
    · exact ⟨nofun, nofun⟩
    · exact ⟨nofun, nofun⟩

theorem eapolVerified_jstate (C : Crypto) (s : Sta) (f : Bytes) :
    (eapolVerified C s f).jstate = .up ∨ (eapolVerified C s f).jstate = s.jstate := by
  unfold eapolVerified
  dsimp only
  split
  · by_cases hs : s.keys.hs = 2
    · exact .inr (eapolMsg3_again C
        (s := { s with keys := { s.keys with rxReplay := f.slice eapReplay 8 } }) hs f _).2.jstate
    · exact .inl (eapolMsg3_first C
        (s := { s with keys := { s.keys with rxReplay := f.slice eapReplay 8 } }) hs f _).1
  · split
    · exact .inr (eapolGroup_mild C
        { s with keys := { s.keys with rxReplay := f.slice eapReplay 8 } } f _).2.jstate
    · exact .inr rfl

theorem eapolRx_still (f rnd : Bytes) (now : Nat) : Still s (eapolRx C s f rnd now) := by
  have hdone {s' : Sta} (hj : s'.jstate = .keys ∨ s'.jstate = .up) : Still s s' := by
    rcases hj with hj | hj
    · exact ⟨by rw [hj]; nofun, by rw [hj]; nofun⟩
    · exact ⟨by rw [hj]; nofun, by rw [hj]; nofun⟩
  rcases eapolRx_cases C s f rnd now with ⟨ha, he⟩ | ⟨-, he | ⟨why, he⟩ | ⟨-, hj, he⟩⟩
  · rw [he]
    refine hdone ?_
    rcases eapolVerified_jstate C s f with hup | hsame
    · exact .inr hup
    · rw [hsame]
      exact ha.2.1
  · rw [he]
    exact .refl s
  · rw [he]
    exact joinFail_still s why
  · refine hdone (.inl ?_)
    rw [he, eapolMsg1, if_neg (not_not.mpr hj)]
    exact hj

theorem handle_moves (C : Crypto) (s : Sta) (e : Event) : Moves C s (handle C s e) e := by
  cases e with
  | connect ssid pass => exact .inl (connect_still ssid pass)
  | beacon b => exact .inl ⟨fun _ => ⟨rfl, rfl⟩, fun h => by rw [show s.jstate = .assoc from h]; nofun⟩
  | scanDone => exact .inl ⟨fun _ => ⟨rfl, rfl⟩, fun h => by rw [show s.jstate = .assoc from h]; nofun⟩
  | poll now => exact .inl (joinPoll_still now)
  | vdevStarted status rand mask now => exact joinVdevStarted_moves status rand mask now
  | mgmt f now => exact joinMgmt_moves f now
  | msdu p rnd now =>
    rw [handle, deliverLlc]
    split
    · exact .inl (.refl s)
    · exact .inl (eapolRx_still _ rnd now)
  | kickout now => exact .inl (joinGone_still _ now)

/-! ### Runs against a peer -/

structure Duel where
  sta : Sta := {}
  spoken : List Sae := []

def duel (C : Crypto) (d : Duel) (e : Event) : Duel :=
  let s := handle C d.sta e
  ⟨s, if s.jstate = .saeConfirm then s.sae :: d.spoken else d.spoken⟩

/-- The peer has no key: a confirm that is right for what the driver hashes to check it is one that the driver
has made, of the same key and input. -/
def Keyless (C : Crypto) (d : Duel) : Event → Prop
  | .mgmt f _ => d.sta.jstate = .saeConfirm → IsSae d.sta 2 f →
    C.hmacSha256 d.sta.sae.kck (checkInput d.sta.sae (mgmtBody f)) = (mgmtBody f).slice 8 32 →
    ∃ a ∈ d.spoken, a.kck = d.sta.sae.kck ∧ confirmInput a = checkInput d.sta.sae (mgmtBody f)
  | _ => True

/-- The driver's commit is none that has been sent to it. -/
def Unguessed (C : Crypto) (d : Duel) : Event → Prop
  | .vdevStarted _ (some rand) (some mask) _ =>
    ∀ a ∈ d.spoken, ∀ pwe ∈ C.saePwe d.sta.jpass d.sta.mac d.sta.jb.bssid,
    ¬ (a.peerScalar = C.scalarAdd rand mask ∧ a.peerElement = C.negate (C.pointMul mask pwe))
  | _ => True

/-- The peer does not send the driver's own commit. -/
def Original (d : Duel) : Event → Prop
  | .mgmt f _ => d.sta.jstate = .saeCommit → IsSae d.sta 1 f →
    ¬ ((mgmtBody f).slice 8 32 = d.sta.sae.scalar ∧ (mgmtBody f).slice 40 64 = d.sta.sae.element)
  | _ => True

structure Sae.Sized (a : Sae) : Prop where
  scalar : a.scalar.length = 32
  element : a.element.length = 64

structure Sae.PeerSized (a : Sae) : Prop where
  scalar : a.peerScalar.length = 32
  element : a.peerElement.length = 64

def Reflects (a b : Sae) : Prop := a.peerScalar = b.scalar ∧ a.peerElement = b.element

structure Apart (d : Duel) : Prop where
  sized : d.sta.jstate.exchanging = true → d.sta.sae.Sized
  peer : d.sta.jstate = .saeConfirm → d.sta.sae.PeerSized ∧ ¬ Reflects d.sta.sae d.sta.sae
  spoken : ∀ a ∈ d.spoken, a.Sized ∧ a.PeerSized
  other : d.sta.jstate.exchanging = true → ∀ a ∈ d.spoken, ¬ Reflects a d.sta.sae

variable {d : Duel}

theorem reflects_of_inputs {a b : Sae} {body : Bytes} (ha : a.Sized) (hap : a.PeerSized) (hb : b.Sized)
    (hbp : b.PeerSized)
    (heq : confirmInput a = checkInput b body) : Reflects a b := by
  have h₁ := List.append_inj heq (by simp [hap.scalar, ha.scalar, ha.element, hb.scalar, hbp.scalar, hbp.element])
  have h₂ := List.append_inj h₁.1 (by simp [ha.scalar, ha.element, hbp.scalar, hbp.element])
  exact ⟨h₂.2, h₁.2⟩

theorem spoken_mem {a : Sae} (ha : a ∈ (duel C d e).spoken) :
    a ∈ d.spoken ∨ ((handle C d.sta e).jstate = .saeConfirm ∧ a = (handle C d.sta e).sae) := by
  rw [duel] at ha
  dsimp only at ha
  split at ha
  · next hj =>
    rcases List.mem_cons.mp ha with rfl | ha
    · exact .inr ⟨hj, rfl⟩
    · exact .inl ha
  · exact .inl ha

theorem Apart.next (h : Apart d) {C : Crypto} {e : Event}
    (hown : (handle C d.sta e).jstate.exchanging = true → (handle C d.sta e).sae.Sized ∧ ∀ a ∈ d.spoken,
      ¬ Reflects a (handle C d.sta e).sae)
    (hpeer : (handle C d.sta e).jstate = .saeConfirm →
      (handle C d.sta e).sae.PeerSized ∧
        ¬ Reflects (handle C d.sta e).sae (handle C d.sta e).sae) : Apart (duel C d e) := by
  have hexch (hj : (handle C d.sta e).jstate = .saeConfirm) : (handle C d.sta e).jstate.exchanging = true := by
    rw [hj]; rfl
  refine ⟨fun hx => (hown hx).1, hpeer, fun a ha => ?_, fun hx a ha => ?_⟩
  · rcases spoken_mem ha with ha | ⟨hj, rfl⟩
    · exact h.spoken a ha
    · exact ⟨(hown (hexch hj)).1, (hpeer hj).1⟩
  · rcases spoken_mem ha with ha | ⟨hj, rfl⟩
    · exact (hown hx).2 a ha
    · exact (hpeer hj).2

def AcceptsConfirm (C : Crypto) (d : Duel) (e : Event) : Prop :=
  d.sta.jstate = .saeConfirm ∧ (handle C d.sta e).jstate = .assoc

/-- The peer does not know the passphrase, what the driver draws is its own, and the peer does not reflect it. -/
structure Fair (C : Crypto) (d : Duel) (e : Event) : Prop where
  keyless : Keyless C d e
  unguessed : Unguessed C d e
  original : Original d e

theorem duel_step (hscalar : ∀ a b, (C.scalarAdd a b).length = 32) (hneg : ∀ p, (C.negate p).length = 64)
    (h : Apart d)
    (hf : Fair C d e) : Apart (duel C d e) ∧ ¬ AcceptsConfirm C d e := by
  rcases handle_moves C d.sta e with hs | hs | hs | hs
  · refine ⟨h.next (fun hx => ?_) fun hj => ?_, fun ha => hs.assoc ha.2 ha.1⟩
    · obtain ⟨hj, hsae⟩ := hs.own hx
      rw [hj] at hx
      rw [hsae]
      exact ⟨h.sized hx, h.other hx⟩
    · obtain ⟨hj', hsae⟩ := hs.own (by rw [hj]; rfl)
      rw [hsae]
      exact h.peer (hj' ▸ hj)
  · obtain ⟨status, rand, mask, now, pwe, rfl, hpwe, hsc, hel⟩ := hs.draw
    refine ⟨h.next (fun _ => ⟨⟨?_, ?_⟩, fun a ha hr => ?_⟩) ?_, fun ha => ?_⟩
    · rw [hsc]
      exact hscalar _ _
    · rw [hel]
      exact hneg _
    · refine hf.unguessed a ha pwe hpwe ⟨?_, ?_⟩
      · rw [hr.1, hsc]
      · rw [hr.2, hel]
    · rw [hs.jstate]
      nofun
    · cases hs.jstate.symm.trans ha.2
  · obtain ⟨f, now, rfl, hsae, hlen, hsc, hel⟩ := hs.frame
    have hx : d.sta.jstate.exchanging = true := by rw [hs.before]; rfl
    refine ⟨h.next (fun _ => ⟨⟨?_, ?_⟩, fun a ha hr => ?_⟩) fun _ => ⟨⟨?_, ?_⟩, fun hr => ?_⟩, fun ha => ?_⟩
    · rw [hs.own.1]
      exact (h.sized hx).scalar
    · rw [hs.own.2]
      exact (h.sized hx).element
    · exact h.other hx a ha ⟨hr.1.trans hs.own.1, hr.2.trans hs.own.2⟩
    · rw [hsc]
      exact Bytes.length_slice (by omega)
    · rw [hel]
      exact Bytes.length_slice (by omega)
    · refine hf.original hs.before hsae ⟨?_, ?_⟩
      · rw [← hsc, ← hs.own.1]
        exact hr.1
      · rw [← hel, ← hs.own.2]
        exact hr.2
    · cases hs.jstate.symm.trans ha.2
  · exfalso
    obtain ⟨f, now, rfl, hsae, hmac⟩ := hs.frame
    have hx : d.sta.jstate.exchanging = true := by rw [hs.before]; rfl
    obtain ⟨a, ha, -, hinput⟩ := hf.keyless hs.before hsae hmac
    obtain ⟨hown, hpeer⟩ := h.spoken a ha
    exact h.other hx a ha (reflects_of_inputs hown hpeer (h.sized hx) (h.peer hs.before).1 hinput)

/-- A peer without the passphrase that does not send the driver's commit back has no confirm accepted. -/
theorem reflection_rejected (C : Crypto) (hscalar : ∀ a b, (C.scalarAdd a b).length = 32)
    (hneg : ∀ p, (C.negate p).length = 64)
    {s₀ : Sta} (h₀ : s₀.jstate = .idle) {es : List Event} {e : Event}
    (hes : Along (Fair C) (duel C) ⟨s₀, []⟩ (es ++ [e])) :
    ¬ AcceptsConfirm C (run (duel C) ⟨s₀, []⟩ es) e := by
  obtain ⟨hpre, hlast, -⟩ := hes.split
  have hinit : Apart ⟨s₀, []⟩ := by
    refine ⟨?_, ?_, nofun, fun _ => nofun⟩
    · rw [h₀]
      nofun
    · rw [h₀]
      nofun
  have hapart := invariant_run (P := Apart) (fun _ _ h he => (duel_step hscalar hneg h he).1) hinit hpre
  exact (duel_step hscalar hneg hapart hlast).2

/-! ### A network with SAE -/

instance (C : Crypto) (d : Duel) : ∀ e, Decidable (Keyless C d e)
  | .mgmt f _ =>
    inferInstanceAs (Decidable (d.sta.jstate = .saeConfirm → IsSae d.sta 2 f → _ → ∃ a ∈ d.spoken, _))
  | .connect .. | .beacon .. | .scanDone | .poll .. | .vdevStarted .. | .msdu .. | .kickout .. => .isTrue trivial

instance (C : Crypto) (d : Duel) : ∀ e, Decidable (Unguessed C d e)
  | .vdevStarted _ (some _) (some _) _ => inferInstanceAs (Decidable (∀ a ∈ d.spoken, ∀ pwe ∈ _, ¬ (_ ∧ _)))
  | .vdevStarted _ none _ _ | .vdevStarted _ (some _) none _ => .isTrue trivial
  | .connect .. | .beacon .. | .scanDone | .poll .. | .mgmt .. | .msdu .. | .kickout .. => .isTrue trivial

instance (d : Duel) : ∀ e, Decidable (Original d e)
  | .mgmt f _ => inferInstanceAs (Decidable (d.sta.jstate = .saeCommit → IsSae d.sta 1 f → ¬ (_ ∧ _)))
  | .connect .. | .beacon .. | .scanDone | .poll .. | .vdevStarted .. | .msdu .. | .kickout .. => .isTrue trivial

instance (C : Crypto) (d : Duel) (e : Event) : Decidable (AcceptsConfirm C d e) :=
  inferInstanceAs (Decidable (_ ∧ _))

instance (C : Crypto) (d : Duel) (e : Event) : Decidable (Fair C d e) :=
  decidable_of_iff (Keyless C d e ∧ Unguessed C d e ∧ Original d e)
    ⟨fun h => ⟨h.1, h.2.1, h.2.2⟩, fun h => ⟨h.1, h.2, h.3⟩⟩

def sumCrypto : Crypto := { nullCrypto with
  hmacSha256 := fun k m => List.replicate 32 ((k ++ m).foldl (fun h b => 3 * h + b) 7)
  saePwe := fun pass _ _ => some ((pass ++ Bytes.zeros 64).take 64)
  scalarAdd := fun a b => (List.zipWith (· + ·) a b ++ Bytes.zeros 32).take 32
  pointMul := fun a p => p.map (a.byte 0 * ·)
  pointAdd := fun p q => List.zipWith (· + ·) p q
  negate := fun p => (p.map (- ·) ++ Bytes.zeros 64).take 64
  pointValid := fun _ => true }

def saeAp : Bss := { ap with akmSae := true }

def joinSae : List Event :=
  [.connect [110, 101, 116] [112, 97, 115, 115, 119, 111, 114, 100], .beacon saeAp, .scanDone, .poll 1,
    .vdevStarted 0 (some (List.replicate 32 3)) (some (List.replicate 32 5)) 2]

def joined : Sae := (run (duel sumCrypto) {} joinSae).sta.sae

def commitOf (a : Sae) : Event := .mgmt (fromAp 0xb0 (saeCommitBody a)) 3

def confirmOf (C : Crypto) (a : Sae) : Event := .mgmt (fromAp 0xb0 (saeConfirmBody C a)) 4

def echoed (a : Sae) : Event := confirmOf sumCrypto (run (duel sumCrypto) {} (joinSae ++ [commitOf a])).sta.sae

def stranger : Sae := { scalar := List.replicate 32 2, element := List.replicate 64 4 }

theorem sumCrypto_sized (a b p : Bytes) :
    (sumCrypto.scalarAdd a b).length = 32 ∧ (sumCrypto.negate p).length = 64 := by
  simp [sumCrypto, Bytes.zeros]

theorem reflection_rejected_stranger :
    (run (duel sumCrypto) {} (joinSae ++ [commitOf stranger])).sta.jstate = .saeConfirm ∧
      ¬ AcceptsConfirm sumCrypto (run (duel sumCrypto) {} (joinSae ++ [commitOf stranger])) (echoed stranger) :=
  ⟨by decide +kernel, reflection_rejected sumCrypto (fun a b => (sumCrypto_sized a b []).1)
    (fun p => (sumCrypto_sized [] [] p).2) rfl
    (by decide +kernel)⟩

/-- The same peer with the driver's own commit: its confirm, the driver's, is accepted. -/
theorem reflection_accepted :
    Along (fun d e => Keyless sumCrypto d e ∧ Unguessed sumCrypto d e) (duel sumCrypto) {}
      (joinSae ++ [commitOf joined, echoed joined]) ∧
      AcceptsConfirm sumCrypto (run (duel sumCrypto) {} (joinSae ++ [commitOf joined])) (echoed joined) :=
  ⟨by decide +kernel, by decide +kernel⟩

end Sic.Ath
