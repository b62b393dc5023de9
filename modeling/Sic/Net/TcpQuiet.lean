import Sic.Net.TcpOutput

/-! Steps that leave the sender alone: all of the receive side, and the parts of
the acknowledgement path that touch timers only. -/

namespace Sic.Tcp

variable {app : List U8} {freed : Nat}

structure Quiet (t t' : Pcb) : Prop where
  iss : t'.iss = t.iss
  una : t'.sndUna = t.sndUna
  nxt : t'.sndNxt = t.sndNxt
  buf : t'.sndbuf = t.sndbuf
  queued : t'.finQueued = t.finQueued
  sent : t'.finSent = t.finSent
  state : (t'.state = t.state ∧ t'.hasFin = t.hasFin) ∨ t'.state = .closed ∨
    (¬ t.state.Syn ∧ t.state ≠ .closed ∧ ¬ t'.state.Syn)

theorem Quiet.refl (t : Pcb) : Quiet t t := ⟨rfl, rfl, rfl, rfl, rfl, rfl, .inl ⟨rfl, rfl⟩⟩

theorem not_syn_closed : ¬ State.closed.Syn := by decide

variable {t t' : Pcb} {s s' : Sock}

theorem Quiet.trans {t'' : Pcb} (h : Quiet t t') (h' : Quiet t' t'') : Quiet t t'' := by
  refine ⟨h'.iss.trans h.iss, h'.una.trans h.una, h'.nxt.trans h.nxt, h'.buf.trans h.buf,
    h'.queued.trans h.queued, h'.sent.trans h.sent, ?_⟩
  rcases h'.state with ⟨hs', hf'⟩ | hc' | ⟨hn', hne', hn''⟩
  · rcases h.state with ⟨hs, hf⟩ | hc | ⟨hn, hne, hn'⟩
    · exact .inl ⟨hs'.trans hs, hf'.trans hf⟩
    · exact .inr (.inl (hs'.trans hc))
    · exact .inr (.inr ⟨hn, hne, hs' ▸ hn'⟩)
  · exact .inr (.inl hc')
  · rcases h.state with ⟨hs, -⟩ | hc | ⟨hn, hne, -⟩
    · exact .inr (.inr ⟨hs ▸ hn', hs ▸ hne', hn''⟩)
    · exact absurd hc hne'
    · exact .inr (.inr ⟨hn, hne, hn''⟩)

theorem Quiet.phase (h : Quiet t t') (hp : Phase app freed t) : Phase app freed t' := by
  have hfl : t'.inflight = t.inflight := by rw [Pcb.inflight, Pcb.inflight, h.nxt, h.una]
  have hlen : t'.sndLen = t.sndLen := by rw [Pcb.sndLen, Pcb.sndLen, h.buf]
  cases hp with
  | syn hstate happ hfreed hbuf huna hnxt hfin hq hs =>
    rcases h.state with ⟨hst, hf⟩ | hc | ⟨hn, -⟩
    · exact .syn (hst ▸ hstate) happ hfreed (h.buf.trans hbuf) (by rw [h.una, h.iss, huna])
        (by rw [h.nxt, h.iss, hnxt]) (hf.trans hfin) (h.queued.trans hq) (h.sent.trans hs)
    · exact .done (hc ▸ not_syn_closed) (h.buf.trans hbuf) (by simp [hfreed, happ]) (.inr hc)
    · exact absurd hstate hn
  | opened hstate hwin hle hs =>
    have hst : ¬ t'.state.Syn := by
      rcases h.state with ⟨hst, -⟩ | hc | ⟨-, -, hn⟩
      · exact hst ▸ hstate
      · exact hc ▸ not_syn_closed
      · exact hn
    refine .opened hst (Window.congr hwin h.buf h.una h.iss ?_) hle (by rw [h.sent, h.queued]; exact hs)
    rw [hfl, hlen, h.sent]
    exact hwin.flight
  | done hstate hbuf hfreed hq =>
    have hst : ¬ t'.state.Syn ∧ (t'.finQueued = true ∨ t'.state = .closed) := by
      rcases h.state with ⟨hst, -⟩ | hc | ⟨-, hne, hn⟩
      · exact ⟨hst ▸ hstate, by rw [h.queued, hst]; exact hq⟩
      · exact ⟨hc ▸ not_syn_closed, .inr hc⟩
      · exact ⟨hn, .inl (h.queued.trans (hq.resolve_right hne))⟩
    exact .done hst.1 (h.buf.trans hbuf) hfreed hst.2

theorem Quiet.of_sends (h : Sends s s') (hn : s'.tcp.sndNxt = s.tcp.sndNxt)
    (hf : s'.tcp.finSent = s.tcp.finSent) : Quiet s.tcp s'.tcp := by
  obtain ⟨_, _, _, _, _, _, _, _, _, _, _, rfl⟩ := h
  exact ⟨rfl, rfl, hn, rfl, rfl, hf, .inl ⟨rfl, rfl⟩⟩

structure QuietStep (s s' : Sock) : Prop where
  tcp : Quiet s.tcp s'.tcp
  out : ∃ new, s'.out = new ++ s.out ∧ ∀ g ∈ new, g.data = []

theorem QuietStep.of_tcp (h : Quiet s.tcp s'.tcp) (ho : s'.out = s.out) : QuietStep s s' :=
  ⟨h, [], by simp [ho], by simp⟩

theorem QuietStep.setTcp {f : Pcb → Pcb} (h : Quiet s.tcp (f s.tcp)) : QuietStep s (s.setTcp f) := .of_tcp h rfl

theorem QuietStep.refl (s : Sock) : QuietStep s s := .of_tcp (.refl _) rfl

theorem QuietStep.trans {s'' : Sock} (h : QuietStep s s') (h' : QuietStep s' s'') : QuietStep s s'' := by
  obtain ⟨new, ho, hn⟩ := h.out
  obtain ⟨new', ho', hn'⟩ := h'.out
  refine ⟨h.tcp.trans h'.tcp, new' ++ new, by rw [ho', ho, List.append_assoc], ?_⟩
  intro g hg
  rcases List.mem_append.mp hg with hg | hg
  · exact hn' g hg
  · exact hn g hg

theorem QuietStep.emits (h : QuietStep s s') : Emits app freed s s' := by
  obtain ⟨new, ho, hn⟩ := h.out
  exact ⟨h.tcp.iss, new, ho, fun g hg => segOk_nil (hn g hg)⟩

theorem tcpSendSeg_quiet (s : Sock) (seq : U32) (flags : Flags) (w : Bool) :
    QuietStep s (tcpSendSeg s seq flags [] w) := by
  obtain ⟨g, ho, -, hd⟩ := tcpSendSeg_out s seq flags [] w
  obtain ⟨hn, hf⟩ := tcpSendSeg_tcp s seq flags [] w
  exact ⟨.of_sends (tcpSendSeg_sends s seq flags [] w) hn hf, [g], by simpa using ho, by simpa using hd⟩

theorem tcpSendAck_quiet (s : Sock) : QuietStep s (tcpSendAck s) := tcpSendSeg_quiet s _ _ _

theorem tcpAckLater_quiet (s : Sock) (now datalen : Nat) : QuietStep s (tcpAckLater s now datalen) := by
  unfold tcpAckLater
  dsimp only
  split
  · exact (QuietStep.setTcp ⟨rfl, rfl, rfl, rfl, rfl, rfl, .inl ⟨rfl, rfl⟩⟩).trans (tcpSendAck_quiet _)
  · exact (QuietStep.setTcp ⟨rfl, rfl, rfl, rfl, rfl, rfl, .inl ⟨rfl, rfl⟩⟩).trans
      (.setTcp ⟨rfl, rfl, rfl, rfl, rfl, rfl, .inl ⟨rfl, rfl⟩⟩)

theorem tcpSetClosed_quiet (s : Sock) (err : Option Errno) : QuietStep s (tcpSetClosed s err) := by
  unfold tcpSetClosed
  split
  · exact .refl s
  · exact .of_tcp ⟨rfl, rfl, rfl, rfl, rfl, rfl, .inr (.inl rfl)⟩ rfl

theorem tcpAbort_quiet (s : Sock) (err : Option Errno) : QuietStep s (tcpAbort s err) := by
  unfold tcpAbort
  dsimp only
  split
  · exact (tcpSendSeg_quiet s _ _ _).trans (tcpSetClosed_quiet _ _)
  · exact tcpSetClosed_quiet _ _

theorem tcpRstReply_quiet (s : Sock) (g : Seg) : QuietStep s (tcpRstReply s g) := by
  unfold tcpRstReply
  split
  · exact .refl s
  split
  · exact ⟨.refl _, [_], rfl, by simp⟩
  · exact ⟨.refl _, [_], rfl, by simp⟩

theorem rcvAppend_quiet (t : Pcb) (data : List U8) : Quiet t (rcvAppend t data).1 :=
  ⟨rfl, rfl, rfl, rfl, rfl, rfl, .inl ⟨rfl, rfl⟩⟩

theorem oooInsert_quiet (t : Pcb) (seq : U32) (data : List U8) (alloc : Bool) :
    Quiet t (oooInsert t seq data alloc) := by
  unfold oooInsert
  dsimp only
  split
  · exact .refl t
  · exact ⟨rfl, rfl, rfl, rfl, rfl, rfl, .inl ⟨rfl, rfl⟩⟩

theorem tcpCheckFin_quiet (h : t.state.Syn → t.hasFin = false) (now : Nat) : Quiet t (tcpCheckFin t now).1 := by
  unfold tcpCheckFin
  split
  · rename_i hc
    have hn : ¬ t.state.Syn := by
      intro hs
      simp [h hs] at hc
    have moves (x : State) (hx : ¬ x.Syn) (hne : t.state ≠ .closed) (w : Nat) : Quiet t
        { t with finRcvd := true, rcvNxt := t.rcvNxt + 1, state := x, timewaitAt := w } :=
      ⟨rfl, rfl, rfl, rfl, rfl, rfl, .inr (.inr ⟨hn, hne, hx⟩)⟩
    dsimp only
    split
    · exact absurd (.inr ‹_›) hn
    · exact moves .closeWait (by decide) (by simp_all) _
    · split
      · exact moves .timeWait (by decide) (by simp_all) _
      · exact moves .closing (by decide) (by simp_all) _
    · exact moves .timeWait (by decide) (by simp_all) _
    · exact ⟨rfl, rfl, rfl, rfl, rfl, rfl, .inl ⟨rfl, rfl⟩⟩
  · exact .refl t

theorem drainLoop_quiet (q : List Ooo) (t : Pcb) :
    Quiet t (drainLoop q t) ∧ (drainLoop q t).state = t.state ∧ (drainLoop q t).hasFin = t.hasFin := by
  induction q generalizing t with
  | nil => exact ⟨⟨rfl, rfl, rfl, rfl, rfl, rfl, .inl ⟨rfl, rfl⟩⟩, rfl, rfl⟩
  | cons o rest ih =>
    unfold drainLoop
    split
    · dsimp only
      split
      · split
        · exact ⟨⟨rfl, rfl, rfl, rfl, rfl, rfl, .inl ⟨rfl, rfl⟩⟩, rfl, rfl⟩
        · refine ⟨Quiet.trans ?_ (ih _).1, (ih _).2⟩
          exact ⟨rfl, rfl, rfl, rfl, rfl, rfl, .inl ⟨rfl, rfl⟩⟩
      · refine ⟨Quiet.trans ?_ (ih _).1, (ih _).2⟩
        exact ⟨rfl, rfl, rfl, rfl, rfl, rfl, .inl ⟨rfl, rfl⟩⟩
    · exact ⟨⟨rfl, rfl, rfl, rfl, rfl, rfl, .inl ⟨rfl, rfl⟩⟩, rfl, rfl⟩

theorem oooDrain_quiet (h : t.state.Syn → t.hasFin = false) (now : Nat) : Quiet t (oooDrain t now) := by
  obtain ⟨hq, hst, hf⟩ := drainLoop_quiet t.ooo t
  exact hq.trans (tcpCheckFin_quiet (by rw [hst, hf]; exact h) now)

theorem Quiet.noFin (h : Quiet t t') (hf : t.state.Syn → t.hasFin = false) :
    t'.state.Syn → t'.hasFin = false := by
  intro hs
  rcases h.state with ⟨hst, hfin⟩ | hc | ⟨-, -, hn⟩
  · exact hfin.trans (hf (hst ▸ hs))
  · exact absurd (hc ▸ hs) not_syn_closed
  · exact absurd hs hn

theorem rxInOrder_quiet (env : Env) (hn : t.state.Syn → t.hasFin = false) (data : List U8)
    (old : Bool) : Quiet t (rxInOrder env t data old).1 := by
  unfold rxInOrder
  dsimp only
  split
  · have h (seq : U32) (rest : List U8) :=
      (rcvAppend_quiet t data).trans (oooInsert_quiet _ seq rest env.alloc)
    exact (h _ _).trans (oooDrain_quiet ((h _ _).noFin hn) env.now)
  · have h := rcvAppend_quiet t data
    exact h.trans (oooDrain_quiet (h.noFin hn) env.now)

theorem rxHole_quiet (env : Env) (t : Pcb) (seq : U32) (data : List U8) (wnd : Nat) :
    Quiet t (rxHole env t seq data wnd) := by
  unfold rxHole
  dsimp only
  split
  · exact (oooInsert_quiet t _ _ env.alloc).trans ⟨rfl, rfl, rfl, rfl, rfl, rfl, .inl ⟨rfl, rfl⟩⟩
  · exact .refl t

theorem rxPayload_quiet (env : Env) (hn : s.tcp.state.Syn → s.tcp.hasFin = false)
    (seq : U32) (data : List U8) (old : Bool) (wnd : Nat) :
    QuietStep s (rxPayload env s seq data old wnd).1 := by
  unfold rxPayload
  split
  · split
    · exact .of_tcp ⟨rfl, rfl, rfl, rfl, rfl, rfl, .inl ⟨rfl, rfl⟩⟩ rfl
    · exact .of_tcp (rxInOrder_quiet env hn data old) rfl
  · split
    · exact .refl s
    · exact .of_tcp (rxHole_quiet env _ _ _ _) rfl

theorem rxData_quiet (env : Env) (s : Sock) (g : Seg) (wnd : Nat) :
    QuietStep s (rxData env s g wnd).1 := by
  unfold rxData
  dsimp only
  split
  · exact .refl s
  split
  · rename_i hst
    have hn : s.tcp.state.Syn → s.tcp.hasFin = false := by
      rintro (hh | hh) <;> simp [hh] at hst
    split
    · exact rxPayload_quiet env hn _ _ _ _
    · exact rxPayload_quiet env hn _ _ _ _
  · exact .refl s

theorem rxFin_quiet (env : Env) (g : Seg) (kind : AckKind) (hn : ¬ s.tcp.state.Syn) :
    QuietStep s (rxFin env s g kind) := by
  unfold rxFin
  dsimp only
  generalize hs₁ : (if g.flags.fin then s.setTcp fun t =>
    { t with hasFin := true, finSeq := g.seq + len32 g.data } else s) = s₁
  have h₁ : QuietStep s s₁ := by
    rw [← hs₁]
    split
    · by_cases hc : s.tcp.state = .closed
      · exact .setTcp ⟨rfl, rfl, rfl, rfl, rfl, rfl, .inr (.inl hc)⟩
      · exact .setTcp ⟨rfl, rfl, rfl, rfl, rfl, rfl, .inr (.inr ⟨hn, hc, hn⟩)⟩
    · exact .refl s
  have h₂ : QuietStep s₁ { s₁ with tcp := (tcpCheckFin s₁.tcp env.now).1 } :=
    .of_tcp (tcpCheckFin_quiet (h₁.tcp.noFin fun hh => absurd hh hn) env.now) rfl
  split
  · exact (h₁.trans h₂).trans (tcpSendAck_quiet _)
  · exact (h₁.trans h₂).trans (tcpAckLater_quiet _ _ _)
  · exact h₁.trans h₂

theorem windowUpdate_quiet (t : Pcb) (g : Seg) : Quiet t (windowUpdate t g) := by
  unfold windowUpdate
  split
  · exact ⟨rfl, rfl, rfl, rfl, rfl, rfl, .inl ⟨rfl, rfl⟩⟩
  · exact .refl t

theorem rxClosing_quiet (now : Nat) (s : Sock) : QuietStep s (rxClosing now s).1 := by
  unfold rxClosing
  split
  · split
    · refine .of_tcp ⟨rfl, rfl, rfl, rfl, rfl, rfl, .inr (.inr ⟨?_, by simp_all, ?_⟩)⟩ rfl
      · simp_all [State.Syn]
      · simp [State.Syn, Sock.setTcp]
    · exact .refl s
  · split
    · refine .of_tcp ⟨rfl, rfl, rfl, rfl, rfl, rfl, .inr (.inr ⟨?_, by simp_all, ?_⟩)⟩ rfl
      · simp_all [State.Syn]
      · simp [State.Syn, Sock.setTcp]
    · exact .refl s
  · split
    · exact tcpSetClosed_quiet s none
    · exact .refl s
  · exact .of_tcp ⟨rfl, rfl, rfl, rfl, rfl, rfl, .inl ⟨rfl, rfl⟩⟩ rfl
  · exact .refl s

theorem recvEmpty_quiet (s : Sock) (peek : Bool) : QuietStep s (recvEmpty s peek).1 := by
  unfold recvEmpty
  dsimp only
  split
  · exact .refl s
  split
  · split
    · split
      · exact .refl s
      · exact .of_tcp (.refl _) rfl
    · split <;> exact .refl s
  · split <;> exact .refl s

theorem tcpRecv_quiet (env : Env) (hf : s.tcp.state.Syn → s.tcp.hasFin = false) (len : Nat)
    (peek : Bool) : QuietStep s (tcpRecv env s len peek).1 := by
  unfold tcpRecv
  dsimp only
  generalize ht : (if s.tcp.rcvbuf.len = 0 ∧ (∃ o ∈ s.tcp.ooo.head?, seqLeq o.seq s.tcp.rcvNxt = true) then
    (tcpCheckFin (oooDrain s.tcp env.now) env.now).1 else s.tcp) = t
  have h₁ : Quiet s.tcp t := by
    rw [← ht]
    split
    · have hd := oooDrain_quiet hf env.now
      exact hd.trans (tcpCheckFin_quiet (hd.noFin hf) env.now)
    · exact .refl _
  have h₁' : QuietStep s { s with tcp := t } := .of_tcp h₁ rfl
  split
  · exact h₁'.trans (recvEmpty_quiet _ peek)
  split
  · exact h₁'
  generalize ht₂ : ({ t with rcvbuf := t.rcvbuf.pop tcpBufSize (min len t.rcvbuf.len) } : Pcb) = t₂
  have h₂ : Quiet t t₂ := by
    rw [← ht₂]
    exact ⟨rfl, rfl, rfl, rfl, rfl, rfl, .inl ⟨rfl, rfl⟩⟩
  have h₃ := (h₁.trans h₂).trans (oooDrain_quiet ((h₁.trans h₂).noFin hf) env.now)
  have h₄ := h₃.trans (tcpCheckFin_quiet (h₃.noFin hf) env.now)
  have h₄' : QuietStep s { s with tcp := (tcpCheckFin (oooDrain t₂ env.now) env.now).1 } := .of_tcp h₄ rfl
  split
  · exact h₄'.trans (tcpSendAck_quiet _)
  · exact h₄'

end Sic.Tcp
