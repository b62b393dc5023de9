import Sic.Net.TcpSend

/-! Which acknowledgements a connection takes. A retransmission moves `snd_nxt`
back, and the test is against `snd_nxt`. -/

namespace Sic.Tcp

structure Acks (s : Sock) (g : Seg) : Prop where
  closed : s.tcp.state ≠ .closed
  listen : s.tcp.state ≠ .listen
  synSent : s.tcp.state ≠ .synSent
  window : inWindow s.tcp g = true
  rst : g.flags.rst = false
  syn : g.flags.syn = false
  ack : g.flags.ack = true

def AckTaken (s : Sock) (g : Seg) (s' : Sock) : Prop :=
  s'.tcp.sndUna = g.ack ∧ s'.tcp.sndbuf = s.tcp.sndbuf.drop (g.ack - s.tcp.sndUna).toNat

def Transmitted (s : Sock) (ack : U32) : Prop :=
  ∃ g ∈ s.out, seqLeq ack (g.seq + len32 g.data + (if g.flags.syn then 1 else 0) +
    (if g.flags.fin then 1 else 0)) = true

instance (s : Sock) (ack : U32) : Decidable (Transmitted s ack) :=
  inferInstanceAs (Decidable (∃ g ∈ s.out, _))

def rxRest (env : Env) (s : Sock) (g : Seg) (wnd : Nat) : Sock :=
  match rxClosing env.now (s.setTcp fun t => windowUpdate t g) with
  | (s, false) => s
  | (s, true) =>
    let (s, kind) := rxData env s g wnd
    tcpOutput (rxFin env s g kind) env.now env.room'

variable {s s' : Sock} {g : Seg} {c : Conn}

theorem rxSegment_eq (env : Env) (h : Acks s g) :
    rxSegment env s g = if (rxAck env s g).2 then rxRest env (rxAck env s g).1 g s.tcp.rcvSpace
      else (rxAck env s g).1 := by
  rw [rxSegment, h.window, h.rst, h.syn, h.ack]
  rcases rxAck env s g with ⟨s₁, _ | _⟩ <;> rfl

structure Holds (s s' : Sock) : Prop where
  una : s'.tcp.sndUna = s.tcp.sndUna
  buf : s'.tcp.sndbuf = s.tcp.sndbuf
  syn : s'.tcp.state.Syn → s.tcp.state.Syn ∧ s'.tcp.hasFin = s.tcp.hasFin

theorem Holds.trans {s'' : Sock} (h : Holds s s') (h' : Holds s' s'') : Holds s s'' := by
  refine ⟨h'.una.trans h.una, h'.buf.trans h.buf, fun hs => ?_⟩
  obtain ⟨hs', hf'⟩ := h'.syn hs
  obtain ⟨hs, hf⟩ := h.syn hs'
  exact ⟨hs, hf'.trans hf⟩

theorem Holds.of_sends (h : Sends s s') : Holds s s' := by
  obtain ⟨_, _, _, _, _, _, _, _, _, _, _, rfl⟩ := h
  exact ⟨rfl, rfl, fun hs => ⟨hs, rfl⟩⟩

theorem QuietStep.holds (h : QuietStep s s') : Holds s s' := by
  refine ⟨h.tcp.una, h.tcp.buf, fun hs => ?_⟩
  rcases h.tcp.state with ⟨hst, hf⟩ | hc | ⟨-, -, hn⟩
  · exact ⟨hst ▸ hs, hf⟩
  · exact absurd (hc ▸ hs) not_syn_closed
  · exact absurd hs hn

theorem rxRest_holds (env : Env) (hn : ¬ s.tcp.state.Syn) (g : Seg) (wnd : Nat) :
    Holds s (rxRest env s g wnd) := by
  have hw : QuietStep s (s.setTcp fun t => windowUpdate t g) := .setTcp (windowUpdate_quiet _ g)
  have hcl := hw.trans (rxClosing_quiet env.now _)
  rw [rxRest]
  rcases hrc : rxClosing env.now (s.setTcp fun t => windowUpdate t g) with ⟨s₁, _ | _⟩
  · rw [hrc] at hcl
    exact hcl.holds
  rw [hrc] at hcl
  have hd := hcl.trans (rxData_quiet env s₁ g wnd)
  have hf := hd.trans (rxFin_quiet env g (rxData env s₁ g wnd).2 (hd.tcp.not_syn hn))
  exact hf.holds.trans (.of_sends (tcpOutput_sends _ _ _))

theorem ackDuplicate_holds (env : Env) (s : Sock) (g : Seg) : Holds s (ackDuplicate env s g) := by
  obtain ⟨l, hl⟩ := noteSacked_eq s.tcp g.opts
  have hnote : Holds s (s.setTcp fun t =>
    { noteSacked t g.opts with dupAcks := (noteSacked t g.opts).dupAcks + 1 }) := by
    simp only [Sock.setTcp, hl]
    exact ⟨rfl, rfl, fun hs => ⟨hs, rfl⟩⟩
  rw [ackDuplicate]
  dsimp only
  split
  · refine hnote.trans (Holds.trans ?_ (.of_sends (tcpOutput_sends _ _ _)))
    exact ⟨rfl, rfl, fun hs => ⟨hs, rfl⟩⟩
  split
  · exact hnote.trans (.of_sends (tcpOutput_sends _ _ _))
  · exact hnote

def SynIdle (t : Pcb) : Prop := t.state.Syn → t.sndbuf = [] ∧ t.hasFin = false

theorem Holds.synIdle (h : Holds s s') (hi : SynIdle s.tcp) : SynIdle s'.tcp := by
  intro hs
  obtain ⟨hs, hf⟩ := h.syn hs
  exact ⟨h.buf.trans (hi hs).1, hf.trans (hi hs).2⟩

theorem Holds.ackTaken_iff (h : Holds s s') (g : Seg) : AckTaken s g s' ↔ g.ack = s.tcp.sndUna := by
  rw [AckTaken, h.una, h.buf]
  refine ⟨fun hh => hh.1.symm, fun hh => ⟨hh.symm, ?_⟩⟩
  rw [hh, BitVec.sub_self]
  rfl

theorem seqLeq_eq_not_seqGt (a b : U32) : seqLeq a b = !seqGt a b := by
  rw [seqLeq, seqGt, ← decide_not]
  exact decide_eq_decide.mpr Int.not_lt.symm

theorem seqLt_of_ge {a b : U32} (h : a = b ∨ seqGt a b = true) : seqLt a b = false := by
  rcases h with rfl | h
  · simp [seqLt]
  · rw [seqGt, decide_eq_true_eq] at h
    exact decide_eq_false (by omega)

theorem ackAdvance_taken (s : Sock) (g : Seg) (now : Nat) :
    AckTaken s g (s.setTcp fun t => ackAdvance t g now) := by
  obtain ⟨hq, -⟩ := ackAdvance_quiet s.tcp g now
  refine ⟨hq.una, ?_⟩
  rw [Sock.setTcp, hq.buf, ackDrop, Pcb.sndLen]
  rcases Nat.le_total s.tcp.sndbuf.length (g.ack - s.tcp.sndUna).toNat with h | h
  · rw [Nat.min_eq_right h, List.drop_length, List.drop_eq_nil_of_le h]
  · rw [Nat.min_eq_left h]

theorem rxAck_syn (env : Env) (hsent : s.tcp.state ≠ .synSent) (g : Seg) :
    ((rxAck env s g).2 = false ∧ Holds s (rxAck env s g).1) ∨
      ((rxAck env s g).2 = true ∧ ¬ (rxAck env s g).1.tcp.state.Syn) := by
  rw [rxAck]
  split
  · split
    · exact .inl ⟨rfl, (tcpRstReply_quiet s g).holds⟩
    · exact .inr ⟨rfl, fun h => by rcases h with h | h <;> cases h⟩
  next hrcvd =>
  have hn : ¬ s.tcp.state.Syn := fun h => h.elim hsent hrcvd
  split
  · exact .inl ⟨rfl, (tcpSendAck_quiet s).holds⟩
  split
  · refine .inr ⟨rfl, fun h => hn ?_⟩
    simpa only [Sock.setTcp, (ackAdvance_quiet s.tcp g env.now).2] using h
  split
  · exact .inr ⟨rfl, fun h => hn ((ackDuplicate_holds env s g).syn h).1⟩
  · exact .inr ⟨rfl, hn⟩

theorem rxAck_taken (env : Env) (hi : SynIdle s.tcp)
    (hge : g.ack = s.tcp.sndUna ∨ seqGt g.ack s.tcp.sndUna = true) :
    AckTaken s g (rxAck env s g).1 ↔ g.ack = s.tcp.sndUna ∨ seqLeq g.ack s.tcp.sndNxt = true := by
  have hcompl := seqLeq_eq_not_seqGt g.ack s.tcp.sndNxt
  have refused {s' : Sock} (h : Holds s s') (hgt : seqGt g.ack s.tcp.sndNxt = true) :
      AckTaken s g s' ↔ g.ack = s.tcp.sndUna ∨ seqLeq g.ack s.tcp.sndNxt = true := by
    rw [h.ackTaken_iff, hcompl, hgt]
    simp
  rw [rxAck]
  split
  · next hrcvd =>
    rw [seqLt_of_ge hge, Bool.false_or]
    split
    · next hgt => exact refused (tcpRstReply_quiet s g).holds hgt
    next hle =>
    have hbuf := (hi (.inr hrcvd)).1
    refine ⟨fun _ => .inr (by simp [hcompl, hle]), fun _ => ⟨rfl, ?_⟩⟩
    rw [hbuf, List.drop_nil]
    exact hbuf
  split
  · next hgt => exact refused (tcpSendAck_quiet s).holds hgt
  next hle =>
  have hleq : seqLeq g.ack s.tcp.sndNxt = true := by simp [hcompl, hle]
  split
  · exact ⟨fun _ => .inr hleq, fun _ => ackAdvance_taken s g env.now⟩
  next hgt =>
  have heq : g.ack = s.tcp.sndUna := hge.resolve_right hgt
  have held {s' : Sock} (h : Holds s s') :
      AckTaken s g s' ↔ g.ack = s.tcp.sndUna ∨ seqLeq g.ack s.tcp.sndNxt = true :=
    ⟨fun _ => .inl heq, fun _ => (h.ackTaken_iff g).mpr heq⟩
  split
  · exact held (ackDuplicate_holds env s g)
  · exact held (QuietStep.refl s).holds

theorem rxSegment_taken (env : Env) (h : Acks s g) (hi : SynIdle s.tcp)
    (hge : g.ack = s.tcp.sndUna ∨ seqGt g.ack s.tcp.sndUna = true) :
    AckTaken s g (rxSegment env s g) ↔ g.ack = s.tcp.sndUna ∨ seqLeq g.ack s.tcp.sndNxt = true := by
  rw [rxSegment_eq env h, ← rxAck_taken env hi hge]
  rcases rxAck_syn env h.synSent g with ⟨hmore, -⟩ | ⟨hmore, hn⟩
  · rw [hmore]
    rfl
  · have hrest := rxRest_holds env hn g s.tcp.rcvSpace
    rw [hmore, if_pos rfl, AckTaken, AckTaken, hrest.una, hrest.buf]

theorem rxSegment_synIdle (env : Env) (hsent : s.tcp.state ≠ .synSent) (g : Seg)
    (hi : SynIdle s.tcp) : SynIdle (rxSegment env s g).tcp := by
  have hack := rxAck_syn env hsent g
  rw [rxSegment]
  split
  · split
    · exact hi
    · exact (tcpSendAck_quiet s).holds.synIdle hi
  split
  · exact (tcpSetClosed_quiet s _).holds.synIdle hi
  split
  · exact (tcpAbort_quiet s _).holds.synIdle hi
  split
  · exact hi
  rcases hrx : rxAck env s g with ⟨s₁, more⟩
  rw [hrx] at hack
  rcases hack with ⟨hmore, hh⟩ | ⟨hmore, hn⟩
  · cases (hmore : more = false)
    exact hh.synIdle hi
  · cases (hmore : more = true)
    exact fun hs => absurd ((rxRest_holds env hn g _).syn hs).1 hn

theorem rxSynSent_synIdle (env : Env) (hsent : s.tcp.state = .synSent) (g : Seg)
    (hi : SynIdle s.tcp) : SynIdle (rxSynSent env s g).tcp := by
  rw [rxSynSent]
  split
  · exact (tcpRstReply_quiet s g).holds.synIdle hi
  split
  · split
    · exact (tcpSetClosed_quiet s _).holds.synIdle hi
    · exact hi
  split
  · exact hi
  dsimp only
  split
  · intro hs
    rcases ((tcpSendAck_quiet _).holds.syn hs).1 with h | h <;> cases h
  · exact (Holds.of_sends (tcpOutput_sends _ _ _)).synIdle fun _ => hi (.inl hsent)

theorem tcpRx_synIdle (env : Env) (g : Seg) (hi : SynIdle s.tcp) : SynIdle (tcpRx env s g).tcp := by
  rw [tcpRx]
  split
  · exact hi
  · exact hi
  · next hst => exact rxSynSent_synIdle env hst g hi
  · next hst => exact rxSegment_synIdle env hst g hi

theorem rtoExpire_holds (s : Sock) (now room : Nat) : Holds s (rtoExpire s now room) := by
  have hretry : Holds s (s.setTcp fun t => { t with retries := t.retries + 1 }) :=
    ⟨rfl, rfl, fun hs => ⟨hs, rfl⟩⟩
  have hrewind (s : Sock) : Holds s (s.setTcp rtoRewind) := by
    rw [Sock.setTcp, rtoRewind]
    split <;> exact ⟨rfl, rfl, fun hs => ⟨hs, rfl⟩⟩
  rw [rtoExpire]
  split
  · exact hretry.trans (tcpAbort_quiet _ _).holds
  · refine ((hretry.trans (hrewind _)).trans (.of_sends (tcpOutput_sends _ now room))).trans ?_
    exact ⟨rfl, rfl, fun hs => ⟨hs, rfl⟩⟩

theorem tcpTimer_holds (env : Env) (s : Sock) : Holds s (tcpTimer env s) := by
  unfold tcpTimer
  dsimp only
  split
  · exact (tcpSetClosed_quiet s none).holds
  generalize hs₁ : (if s.tcp.ackPending ∧ s.tcp.delackAt ≠ 0 ∧ s.tcp.delackAt ≤ env.now then tcpSendAck s
    else s) = s₁
  have h₁ : Holds s s₁ := by
    rw [← hs₁]
    split
    · exact (tcpSendAck_quiet s).holds
    · exact (QuietStep.refl s).holds
  generalize hs₂ : (if s₁.tcp.retryAt ≠ 0 ∧ s₁.tcp.retryAt ≤ env.now then
    tcpOutput (s₁.setTcp fun t => { t with retryAt := 0 }) env.now env.room else s₁) = s₂
  have h₂ : Holds s s₂ := by
    rw [← hs₂]
    split
    · refine h₁.trans (Holds.trans ?_ (.of_sends (tcpOutput_sends _ _ _)))
      exact ⟨rfl, rfl, fun hs => ⟨hs, rfl⟩⟩
    · exact h₁
  split
  · exact h₂.trans (rtoExpire_holds s₂ env.now env.room')
  · exact h₂

theorem tcpSend_synIdle (env : Env) (buf : List U8) (hi : SynIdle s.tcp) :
    SynIdle (tcpSend env s buf).1.tcp := by
  rw [tcpSend]
  dsimp only
  split_ifs with h₁ h₂ h₃ h₄
  iterate 4 exact hi
  exact fun hs => absurd ((Holds.of_sends (tcpOutput_sends _ _ _)).syn hs).1 h₂

theorem tcpShutdownWr_synIdle (env : Env) (hi : SynIdle s.tcp) : SynIdle (tcpShutdownWr env s).tcp := by
  have fin (x : State) (hx : ¬ x.Syn) : SynIdle
      (tcpOutput (s.setTcp fun t => { t with state := x, finQueued := true }) env.now env.room).tcp :=
    fun hs => absurd ((Holds.of_sends (tcpOutput_sends _ _ _)).syn hs).1 hx
  rw [tcpShutdownWr]
  dsimp only
  split
  · exact hi
  split
  · exact fin .finWait1 (by decide)
  · exact fin .finWait1 (by decide)
  · exact fin .lastAck (by decide)
  · exact hi

theorem tcpClose_synIdle (env : Env) (hi : SynIdle s.tcp) : SynIdle (tcpClose env s).tcp := by
  have close : SynIdle (if s.tcp.rcvbuf.len ≠ 0 then tcpAbort s none else tcpShutdownWr env s).tcp := by
    split
    · exact (tcpAbort_quiet s none).holds.synIdle hi
    · exact tcpShutdownWr_synIdle env hi
  rw [tcpClose]
  split
  · exact (tcpSetClosed_quiet s none).holds.synIdle hi
  iterate 3 exact close
  exact hi

theorem step_synIdle (h : SynIdle c.sock.tcp) (e : Event) : SynIdle (step c e).sock.tcp := by
  cases e with
  | rx env g => exact tcpRx_synIdle env g h
  | timer env => exact (tcpTimer_holds env c.sock).synIdle h
  | send env buf =>
    have hs := tcpSend_synIdle env buf h
    rw [step]
    rcases heq : tcpSend env c.sock buf with ⟨s', err | n⟩ <;> rw [heq] at hs <;> exact hs
  | recv env len peek =>
    have hq := (tcpRecv_quiet env (fun hs => (h hs).2) len peek).holds.synIdle h
    rw [step]
    rcases heq : tcpRecv env c.sock len peek with ⟨s', err | bytes⟩ <;> rw [heq] at hq <;> exact hq
  | shutdown env rd wr =>
    change SynIdle (sysShutdown env c.sock rd wr).tcp
    rw [sysShutdown]
    cases rd <;> cases wr
    · exact h
    · exact tcpShutdownWr_synIdle env h
    · exact h
    · exact tcpShutdownWr_synIdle env h
  | close env => exact tcpClose_synIdle env h

theorem Opened.synIdle (h : Opened c) : SynIdle c.sock.tcp := by
  obtain ⟨-, ⟨env, iss, hs⟩ | ⟨env, iss, g, hs⟩⟩ := h
  · rw [hs, tcpConnect]
    exact (Holds.of_sends (tcpOutput_sends _ _ _)).synIdle fun _ => ⟨rfl, rfl⟩
  · rw [hs, tcpPassiveOpen]
    exact (Holds.of_sends (tcpOutput_sends _ _ _)).synIdle fun _ => ⟨rfl, rfl⟩

theorem run_synIdle (h : Opened c) (es : List Event) : SynIdle (run step c es).sock.tcp :=
  invariant_foldl (P := fun c : Conn => SynIdle c.sock.tcp) (fun _ e hi => step_synIdle hi e) es h.synIdle

theorem tcpRx_acks (env : Env) (h : Acks s g) : tcpRx env s g = rxSegment env s g := by
  rw [tcpRx]
  split
  · next hst => exact absurd hst h.closed
  · next hst => exact absurd hst h.listen
  · next hst => exact absurd hst h.synSent
  · rfl

/-- In every state a connection reaches, of the acknowledgements from `snd_una` on
exactly those up to `snd_nxt` are taken. -/
theorem tcp_takes_ack_iff {c : Conn} (h : Opened c) (es : List Event) (env : Env) (g : Seg)
    (hacks : Acks (run step c es).sock g)
    (hge : g.ack = (run step c es).sock.tcp.sndUna ∨ seqGt g.ack (run step c es).sock.tcp.sndUna = true) :
    AckTaken (run step c es).sock g (tcpRx env (run step c es).sock g) ↔
      g.ack = (run step c es).sock.tcp.sndUna ∨
        seqLeq g.ack (run step c es).sock.tcp.sndNxt = true := by
  rw [tcpRx_acks env hacks]
  exact rxSegment_taken env hacks (run_synIdle h es) hge

def peerAck (ack : U32) : Seg := ⟨5001, ack, { ack := true }, 4096, {}, []⟩

theorem tcp_takes_ack_iff_sendTwo :
    Acks (run step passive [handshakeAck 1001, sendTwo]).sock (peerAck 1003) ∧
      AckTaken (run step passive [handshakeAck 1001, sendTwo]).sock (peerAck 1003)
        (tcpRx ⟨4, 1, 1, true⟩ (run step passive [handshakeAck 1001, sendTwo]).sock (peerAck 1003)) := by
  have ha : Acks (run step passive [handshakeAck 1001, sendTwo]).sock (peerAck 1003) :=
    ⟨by decide, by decide, by decide, by decide, by decide, by decide, by decide⟩
  exact ⟨ha, (tcp_takes_ack_iff passive_opened [handshakeAck 1001, sendTwo] ⟨4, 1, 1, true⟩
    (peerAck 1003) ha (by decide)).mpr (by decide)⟩

def rolledBack : List Event := [handshakeAck 1001, sendTwo, .timer ⟨100000, 0, 0, true⟩]

/-- The peer then acknowledges the two bytes it has, and is refused. -/
theorem rolledBack_refuses_ack :
    ¬ ∀ (c : Conn) (es : List Event) (env : Env) (g : Seg), Opened c → Acks (run step c es).sock g →
      (g.ack = (run step c es).sock.tcp.sndUna ∨ seqGt g.ack (run step c es).sock.tcp.sndUna = true) →
      Transmitted (run step c es).sock g.ack →
      AckTaken (run step c es).sock g (tcpRx env (run step c es).sock g) := by
  intro h
  have hack : Acks (run step passive rolledBack).sock (peerAck 1003) :=
    ⟨by decide, by decide, by decide, by decide, by decide, by decide, by decide⟩
  obtain ⟨huna, -⟩ := h passive rolledBack ⟨100001, 1, 1, true⟩ (peerAck 1003) passive_opened hack
    (by decide) (by decide)
  exact absurd huna (by decide)

end Sic.Tcp
