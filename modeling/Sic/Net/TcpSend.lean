import Sic.Net.TcpAck

/-! The sending side over whole runs: every byte sent is the application's byte
for its sequence number, and bytes leave the buffer only when acknowledged. -/

namespace Sic.Tcp

variable {app : List U8} {freed : Nat}

variable {s : Sock} {c : Conn}

theorem rtoRewind_output (h : Phase app freed s.tcp) (now room : Nat) :
    Phase app freed (tcpOutput (s.setTcp rtoRewind) now room).tcp ∧
      Emits app freed s (tcpOutput (s.setTcp rtoRewind) now room) := by
  by_cases hsyn : s.tcp.state.Syn
  · have he : rtoRewind s.tcp =
        { s.tcp with rtoMs := min (s.tcp.rtoMs * 2) rtoMaxMs, rtoAt := 0, sndNxt := s.tcp.iss } := if_pos hsyn
    rw [Sock.setTcp, he]
    cases h with
    | syn _ happ hfreed hbuf huna _ hfin hq hs =>
      subst happ hfreed
      obtain ⟨hp, hem⟩ := outputSyn_phase (s := { s with tcp := { s.tcp with
        rtoMs := min (s.tcp.rtoMs * 2) rtoMaxMs, rtoAt := 0, sndNxt := s.tcp.iss } })
        hsyn hbuf huna rfl hfin hq hs now room
      exact ⟨hp, hem⟩
    | opened hstate => exact absurd hsyn hstate
    | done hstate => exact absurd hsyn hstate
  · have he : rtoRewind s.tcp = { s.tcp with
        rtoMs := min (s.tcp.rtoMs * 2) rtoMaxMs, rtoAt := 0
        sndNxt := s.tcp.sndUna, finSent := false, recover := 0 } := if_neg hsyn
    have hp : Phase app freed (rtoRewind s.tcp) := by
      rw [he]
      exact h.rewind hsyn rfl rfl rfl rfl rfl rfl rfl
    have hiss : (rtoRewind s.tcp).iss = s.tcp.iss := by rw [he]
    obtain ⟨hp, hem⟩ := tcpOutput_phase (s := s.setTcp rtoRewind) hp now room
    exact ⟨hp, ((Emits.refl _ _ s).setTcp hiss).trans hem⟩

theorem rtoExpire_phase (h : Phase app freed s.tcp) (now room : Nat) :
    Phase app freed (rtoExpire s now room).tcp ∧ Emits app freed s (rtoExpire s now room) := by
  unfold rtoExpire
  dsimp only
  have h₁ : QuietStep s (s.setTcp fun t => { t with retries := t.retries + 1 }) :=
    .setTcp ⟨rfl, rfl, rfl, rfl, rfl, rfl, .inl ⟨rfl, rfl⟩⟩
  split
  · have h₂ := h₁.trans (tcpAbort_quiet _ (some .etimedout))
    exact ⟨h₂.tcp.phase h, h₂.emits⟩
  obtain ⟨hp, he⟩ := rtoRewind_output (h₁.tcp.phase h) now room
  refine ⟨Quiet.phase ?_ hp, (h₁.emits.trans he).setTcp rfl⟩
  exact ⟨rfl, rfl, rfl, rfl, rfl, rfl, .inl ⟨rfl, rfl⟩⟩

theorem tcpTimer_phase (env : Env) (h : Phase app freed s.tcp) :
    Phase app freed (tcpTimer env s).tcp ∧ Emits app freed s (tcpTimer env s) := by
  unfold tcpTimer
  dsimp only
  split
  · exact ⟨(tcpSetClosed_quiet s none).tcp.phase h, (tcpSetClosed_quiet s none).emits⟩
  generalize hs₁ : (if s.tcp.ackPending ∧ s.tcp.delackAt ≠ 0 ∧ s.tcp.delackAt ≤ env.now then tcpSendAck s
    else s) = s₁
  have h₁ : QuietStep s s₁ := by
    rw [← hs₁]
    split
    · exact tcpSendAck_quiet s
    · exact .refl s
  generalize hs₂ : (if s₁.tcp.retryAt ≠ 0 ∧ s₁.tcp.retryAt ≤ env.now then
    tcpOutput (s₁.setTcp fun t => { t with retryAt := 0 }) env.now env.room else s₁) = s₂
  have h₂ : Phase app freed s₂.tcp ∧ Emits app freed s s₂ := by
    rw [← hs₂]
    split
    · have hq : QuietStep s₁ (s₁.setTcp fun t => { t with retryAt := 0 }) :=
        .setTcp ⟨rfl, rfl, rfl, rfl, rfl, rfl, .inl ⟨rfl, rfl⟩⟩
      obtain ⟨hp, he⟩ := tcpOutput_phase ((h₁.trans hq).tcp.phase h) env.now env.room
      exact ⟨hp, (h₁.trans hq).emits.trans he⟩
    · exact ⟨h₁.tcp.phase h, h₁.emits⟩
  split
  · obtain ⟨hp, he⟩ := rtoExpire_phase h₂.1 env.now env.room'
    exact ⟨hp, h₂.2.trans he⟩
  · exact h₂

theorem tcpShutdownWr_phase (env : Env) (h : Phase app freed s.tcp) :
    Phase app freed (tcpShutdownWr env s).tcp ∧ Emits app freed s (tcpShutdownWr env s) := by
  have fin (x : State) (hx : ¬ x.Syn) : Phase app freed
      (tcpOutput (s.setTcp fun t => { t with state := x, finQueued := true }) env.now env.room).tcp ∧
      Emits app freed s
        (tcpOutput (s.setTcp fun t => { t with state := x, finQueued := true }) env.now env.room) := by
    have hp : Phase app freed (s.setTcp fun t => { t with state := x, finQueued := true }).tcp := by
      cases h with
      | syn _ happ hfreed hbuf => exact .done hx hbuf (by simp [happ, hfreed]) (.inl rfl)
      | opened _ hwin hle _ =>
        exact .opened hx (Window.congr hwin rfl rfl rfl hwin.flight) hle fun _ => rfl
      | done _ hbuf hfreed _ => exact .done hx hbuf hfreed (.inl rfl)
    obtain ⟨hp', he⟩ := tcpOutput_phase hp env.now env.room
    exact ⟨hp', ((Emits.refl _ _ s).setTcp rfl).trans he⟩
  unfold tcpShutdownWr
  dsimp only
  split
  · exact ⟨h, .refl _ _ s⟩
  split
  · exact fin .finWait1 (by decide)
  · exact fin .finWait1 (by decide)
  · exact fin .lastAck (by decide)
  · exact ⟨h, .refl _ _ s⟩

theorem tcpClose_phase (env : Env) (h : Phase app freed s.tcp) :
    Phase app freed (tcpClose env s).tcp ∧ Emits app freed s (tcpClose env s) := by
  have close : Phase app freed (if s.tcp.rcvbuf.len ≠ 0 then tcpAbort s none else tcpShutdownWr env s).tcp ∧
      Emits app freed s (if s.tcp.rcvbuf.len ≠ 0 then tcpAbort s none else tcpShutdownWr env s) := by
    split
    · exact ⟨(tcpAbort_quiet s none).tcp.phase h, (tcpAbort_quiet s none).emits⟩
    · exact tcpShutdownWr_phase env h
  unfold tcpClose
  split
  · exact ⟨(tcpSetClosed_quiet s none).tcp.phase h, (tcpSetClosed_quiet s none).emits⟩
  · exact close
  · exact close
  · exact close
  · exact ⟨h, .refl _ _ s⟩

theorem Phase.noFin {t : Pcb} (h : Phase app freed t) : t.state.Syn → t.hasFin = false := by
  intro hs
  cases h with
  | syn _ _ _ _ _ _ hfin => exact hfin
  | opened hstate => exact absurd hs hstate
  | done hstate => exact absurd hs hstate

theorem tcpSend_phase (env : Env) (h : Phase app freed s.tcp) (buf : List U8) : match tcpSend env s buf with
    | (s', .ok n) => Phase (app ++ buf.take n) freed s'.tcp ∧ Emits (app ++ buf.take n) freed s s'
    | (s', .error _) => s' = s := by
  unfold tcpSend
  dsimp only
  split_ifs with h₁ h₂ h₃ h₄
  · rfl
  · rfl
  · rfl
  · rfl
  dsimp only
  have hp : Phase (app ++ buf.take (min buf.length (tcpBufSize - s.tcp.sndLen))) freed
      (s.setTcp fun t =>
        { t with sndbuf := t.sndbuf ++ buf.take (min buf.length (tcpBufSize - s.tcp.sndLen)) }).tcp := by
    cases h with
    | syn hstate => exact absurd hstate h₂
    | opened hstate hwin hle hs =>
      have hfl := hwin.flight
      refine .opened hstate ⟨?_, hwin.una, ?_, ?_⟩ ?_ hs
      · simp only [Sock.setTcp, hwin.buf]
        exact (List.drop_append_of_le_length hle).symm
      · simp only [Sock.setTcp, Pcb.inflight, Pcb.sndLen, List.length_append] at hfl ⊢
        omega
      · have hl := hwin.len
        simp only [Sock.setTcp, Pcb.sndLen, List.length_append, List.length_take] at hl ⊢
        omega
      · rw [List.length_append]
        omega
    | done hstate hbuf hfreed hq =>
      rcases hq with hq | hq
      · exact absurd (.inr hq) h₁
      · simp [hq] at h₃
  obtain ⟨hp', he⟩ := tcpOutput_phase hp env.now env.room
  exact ⟨hp', ((Emits.refl _ _ s).setTcp rfl).trans he⟩

theorem Phase.freed_eq {t : Pcb} (h : Phase app freed t) : freed = app.length - t.sndLen := by
  cases h with
  | syn _ happ hfreed hbuf => simp [happ, hfreed]
  | opened _ hwin hle _ =>
    rw [Pcb.sndLen, hwin.buf, List.length_drop]
    omega
  | done _ hbuf hfreed _ => simp [hfreed, Pcb.sndLen, hbuf]

theorem Opened.phase (h : Opened c) : Phase c.app c.freed c.sock.tcp := by
  obtain ⟨happ, h⟩ := h
  have hz : c.freed = 0 := by simp [Conn.freed, happ]
  rw [happ, hz]
  rcases h with ⟨env, iss, hs⟩ | ⟨env, iss, g, hs⟩ <;> rw [hs]
  · exact (outputSyn_phase (.inl rfl) rfl rfl rfl rfl rfl rfl env.now env.room).1
  · exact (outputSyn_phase (.inr rfl) rfl rfl rfl rfl rfl rfl env.now env.room).1

structure StepOk (c : Conn) (e : Event) (c' : Conn) : Prop where
  emits : Emits c'.app c.freed c.sock c'.sock
  frees : ∀ k, c.freed ≤ k → k < c'.freed →
    ∃ env g, e = .rx env g ∧ g.flags.ack = true ∧
      seqLt (seqAt (c.sock.tcp.iss + 1) k) g.ack = true

theorem stepOk_of_phase {c' : Conn} {e : Event} (hp : Phase c'.app c.freed c'.sock.tcp)
    (he : Emits c'.app c.freed c.sock c'.sock) :
    StepOk c e c' ∧ Phase c'.app c'.freed c'.sock.tcp := by
  have hf : c'.freed = c.freed := hp.freed_eq.symm
  refine ⟨⟨he, fun k h₁ h₂ => ?_⟩, hf ▸ hp⟩
  omega

theorem step_ok (h : Phase c.app c.freed c.sock.tcp) (e : Event) (hok : AckAboveIss c e) :
    StepOk c e (step c e) ∧ Phase (step c e).app (step c e).freed (step c e).sock.tcp := by
  cases e with
  | rx env g =>
    have advance {freed' : Nat} {s' : Sock} (ha : Advance c.app c.freed freed' g.ack c.sock s')
        (hack : freed' ≠ c.freed → g.flags.ack = true) :
        StepOk c (.rx env g) { c with sock := s' } ∧
          Phase c.app (Conn.freed { c with sock := s' }) s'.tcp := by
      have hf : Conn.freed { c with sock := s' } = freed' := ha.phase.freed_eq.symm
      refine ⟨⟨ha.emits, fun k h₁ h₂ => ?_⟩, hf ▸ ha.phase⟩
      rw [hf] at h₂
      exact ⟨env, g, rfl, hack (by omega), ha.acked k h₁ h₂⟩
    obtain ⟨freed', ha, hack⟩ := tcpRx_advance env h g hok
    exact advance ha hack
  | timer env =>
    obtain ⟨hp, he⟩ := tcpTimer_phase env h
    exact stepOk_of_phase hp he
  | send env buf =>
    have hs := tcpSend_phase env h buf
    rcases heq : tcpSend env c.sock buf with ⟨s', result⟩
    rw [heq] at hs
    cases result with
    | ok n =>
      simp only [step, heq]
      exact stepOk_of_phase hs.1 hs.2
    | error err =>
      simp only [step, heq]
      dsimp only at hs
      subst hs
      exact stepOk_of_phase h (.refl _ _ _)
  | recv env len peek =>
    have hq := tcpRecv_quiet env h.noFin len peek
    rcases heq : tcpRecv env c.sock len peek with ⟨s', result⟩
    rw [heq] at hq
    cases result with
    | ok bytes =>
      simp only [step, heq]
      exact stepOk_of_phase (hq.tcp.phase h) hq.emits
    | error err =>
      simp only [step, heq]
      exact stepOk_of_phase (hq.tcp.phase h) hq.emits
  | shutdown env rd wr =>
    have hs : Phase c.app c.freed (sysShutdown env c.sock rd wr).tcp ∧
        Emits c.app c.freed c.sock (sysShutdown env c.sock rd wr) := by
      unfold sysShutdown
      cases rd <;> cases wr
      · exact ⟨h, .refl _ _ _⟩
      · exact tcpShutdownWr_phase env (s := { c.sock with shutWr := true }) h
      · exact ⟨h, .refl _ _ _⟩
      · exact tcpShutdownWr_phase env (s := { c.sock with shutRd := true, shutWr := true }) h
    exact stepOk_of_phase hs.1 hs.2
  | close env =>
    obtain ⟨hp, he⟩ := tcpClose_phase env h
    exact stepOk_of_phase hp he

theorem run_phase (h : Opened c) {es : List Event} (hok : Along AckAboveIss step c es) :
    Phase (run step c es).app (run step c es).freed (run step c es).sock.tcp :=
  invariant_run (P := fun c => Phase c.app c.freed c.sock.tcp) (fun _ e hp ho => (step_ok hp e ho).2)
    h.phase hok

/-- Every step of every run of a connection in which no segment acknowledges
the SYN's own number in `SYN_RCVD`. -/
theorem tcp_sends_stream {c : Conn} (h : Opened c) (es : List Event) (e : Event)
    (hok : Along AckAboveIss step c es) (he : AckAboveIss (run step c es) e) :
    StepOk (run step c es) e (step (run step c es) e) ∧
      (step (run step c es) e).sock.tcp.sndLen ≤ tcpBufSize := by
  obtain ⟨hstep, hp⟩ := step_ok (run_phase h hok) e he
  refine ⟨hstep, ?_⟩
  cases hp with
  | syn _ _ _ hbuf => simp [Pcb.sndLen, hbuf]
  | opened _ hwin => exact hwin.len
  | done _ hbuf => simp [Pcb.sndLen, hbuf]

def sendTwo : Event := .send ⟨3, 1, 1, true⟩ [65, 66]

theorem tcp_sends_stream_passive :
    Along AckAboveIss step passive [handshakeAck 1001] ∧
      StepOk (run step passive [handshakeAck 1001]) sendTwo
        (step (run step passive [handshakeAck 1001]) sendTwo) := by
  have h : Along AckAboveIss step passive [handshakeAck 1001] :=
    ⟨fun _ _ _ _ _ => by decide, trivial⟩
  exact ⟨h, (tcp_sends_stream passive_opened [handshakeAck 1001] sendTwo h trivial).1⟩

/-- An acknowledgement of the SYN's own number completes the handshake, and the
first segment carries the second byte at the first byte's place. -/
theorem synRcvd_ack_of_iss_shifts_stream :
    ¬ ∀ (c : Conn) (es : List Event) (e : Event), Opened c →
      StepOk (run step c es) e (step (run step c es) e) := by
  intro h
  obtain ⟨-, new, hout, hnew⟩ := (h passive [handshakeAck 1000] sendTwo passive_opened).emits
  have hseg : (step (run step passive [handshakeAck 1000]) sendTwo).sock.out =
      [⟨1001, 5001, { ack := true, psh := true }, 65535, {}, [66]⟩] ++
        (run step passive [handshakeAck 1000]).sock.out := by decide
  rw [hseg] at hout
  have he := List.append_cancel_right hout
  obtain ⟨k, -, hk, hseq⟩ := hnew _ (he ▸ List.mem_singleton_self _) 0 66 rfl
  have happ : (step (run step passive [handshakeAck 1000]) sendTwo).app = [65, 66] := by decide
  rw [happ] at hk
  match k with
  | 0 => exact absurd hk (by decide)
  | 1 => exact absurd hseq (by decide)
  | k + 2 => simp at hk

end Sic.Tcp
