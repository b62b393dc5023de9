import Sic.Net.TcpQuiet

/-! Acknowledgements: how far a received segment lets the send buffer move. -/

namespace Sic.Tcp

variable {app : List U8} {freed : Nat}

/-- A step of the connection under a stream that stays the same: from `freed`
to `freed'` bytes gone, each of them below the acknowledgement `ack`. -/
structure Advance (app : List U8) (freed freed' : Nat) (ack : U32) (s s' : Sock) : Prop where
  phase : Phase app freed' s'.tcp
  le : freed ≤ freed'
  emits : Emits app freed s s'
  acked : ∀ k, freed ≤ k → k < freed' → seqLt (seqAt (s.tcp.iss + 1) k) ack = true

variable {s s' : Sock} {ack : U32} {t : Pcb}

theorem Advance.of_emits (hp : Phase app freed s'.tcp)
    (he : Emits app freed s s') : Advance app freed freed ack s s' :=
  ⟨hp, Nat.le_refl _, he, fun _ h₁ h₂ => absurd h₂ (Nat.not_lt.mpr h₁)⟩

theorem QuietStep.advance (h : QuietStep s s') (hp : Phase app freed s.tcp) :
    Advance app freed freed ack s s' := .of_emits (h.tcp.phase hp) h.emits

theorem Advance.then_emits {s'' : Sock} {freed' : Nat}
    (h : Advance app freed freed' ack s s') (hp : Phase app freed' s''.tcp)
    (he : Emits app freed' s' s'') : Advance app freed freed' ack s s'' :=
  ⟨hp, h.le, h.emits.trans (he.mono h.le), h.acked⟩

theorem Advance.then_quiet {s'' : Sock} {freed' : Nat}
    (h : Advance app freed freed' ack s s') (hq : QuietStep s' s'') :
    Advance app freed freed' ack s s'' := h.then_emits (hq.tcp.phase h.phase) hq.emits

theorem noteSacked_eq (t : Pcb) (o : Opts) : ∃ l, noteSacked t o = { t with sacked := l } := by
  refine invariant_foldl (P := fun u : Pcb => ∃ l, u = { t with sacked := l }) ?_ (o.sack.take 4)
    ⟨t.sacked, rfl⟩
  rintro u b ⟨l, rfl⟩
  unfold noteBlock
  split
  · exact ⟨l, rfl⟩
  · exact ⟨_, rfl⟩

theorem Quiet.not_syn {t' : Pcb} (h : Quiet t t') (hn : ¬ t.state.Syn) : ¬ t'.state.Syn := by
  rcases h.state with ⟨hst, -⟩ | hc | ⟨-, -, hn'⟩
  · exact hst ▸ hn
  · exact hc ▸ not_syn_closed
  · exact hn'

theorem Phase.rewind {t' : Pcb} (h : Phase app freed t) (hn : ¬ t.state.Syn)
    (hst : t'.state = t.state) (hi : t'.iss = t.iss) (hu : t'.sndUna = t.sndUna)
    (hnx : t'.sndNxt = t.sndUna) (hb : t'.sndbuf = t.sndbuf) (hq : t'.finQueued = t.finQueued)
    (hs : t'.finSent = false) : Phase app freed t' := by
  cases h with
  | syn hstate => exact absurd hstate hn
  | opened hstate hwin hle _ =>
    refine .opened (hst ▸ hstate) (Window.congr hwin hb hu hi ?_) hle (by simp [hs])
    unfold Pcb.inflight
    rw [hnx, hu]
    simp
  | done hstate hbuf hfreed hqc =>
    exact .done (hst ▸ hstate) (hb.trans hbuf) hfreed (by rw [hq, hst]; exact hqc)

theorem ackDuplicate_advance (env : Env) (h : Phase app freed s.tcp) (hn : ¬ s.tcp.state.Syn) (g : Seg) :
    Advance app freed freed ack s (ackDuplicate env s g) ∧
      (ackDuplicate env s g).tcp.state = s.tcp.state := by
  obtain ⟨l, hl⟩ := noteSacked_eq s.tcp g.opts
  unfold ackDuplicate
  dsimp only
  generalize hs₁ : (s.setTcp fun t => { noteSacked t g.opts with dupAcks := (noteSacked t g.opts).dupAcks + 1 })
    = s₁
  have hst₁ : s₁.tcp.state = s.tcp.state := by
    rw [← hs₁, Sock.setTcp, hl]
  have h₁ : QuietStep s s₁ := by
    rw [← hs₁]
    apply QuietStep.setTcp
    rw [hl]
    exact ⟨rfl, rfl, rfl, rfl, rfl, rfl, .inl ⟨rfl, rfl⟩⟩
  have hp₁ := h₁.tcp.phase h
  split
  · have hrew : Phase app freed (s₁.setTcp fun t =>
        { t with recover := t.sndNxt, sndNxt := t.sndUna, finSent := false }).tcp :=
      hp₁.rewind (h₁.tcp.not_syn hn) rfl rfl rfl rfl rfl rfl rfl
    obtain ⟨hp₂, he₂⟩ := tcpOutput_phase hrew env.now env.room
    refine ⟨.of_emits hp₂ ((h₁.emits.setTcp rfl).trans he₂), ?_⟩
    obtain ⟨_, _, _, _, _, _, _, _, _, _, _, he⟩ := tcpOutput_sends (s₁.setTcp fun t =>
      { t with recover := t.sndNxt, sndNxt := t.sndUna, finSent := false }) env.now env.room
    rw [he]
    exact hst₁
  · split
    · obtain ⟨hp₂, he₂⟩ := tcpOutput_phase hp₁ env.now env.room
      refine ⟨.of_emits hp₂ (h₁.emits.trans he₂), ?_⟩
      obtain ⟨_, _, _, _, _, _, _, _, _, _, _, he⟩ := tcpOutput_sends s₁ env.now env.room
      rw [he]
      exact hst₁
    · exact ⟨h₁.advance h, hst₁⟩

theorem ackAdvance_quiet (t : Pcb) (g : Seg) (now : Nat) :
    Quiet (ackDrop t g) (ackAdvance t g now) ∧ (ackAdvance t g now).state = t.state := by
  obtain ⟨l, hl⟩ := noteSacked_eq (trimSacked (ackDrop t g)) g.opts
  unfold ackAdvance
  rw [hl]
  exact ⟨⟨rfl, rfl, rfl, rfl, rfl, rfl, .inl ⟨rfl, rfl⟩⟩, rfl⟩

theorem ack_le_inflight (hw : Window app freed t)
    (hgt : seqGt ack t.sndUna = true) (hle : ¬ seqGt ack t.sndNxt = true) :
    0 < (ack - t.sndUna).toNat ∧ (ack - t.sndUna).toNat ≤ t.inflight := by
  have hf := hw.flight
  have hl := hw.len
  have hb := Bool.toNat_le t.finSent
  unfold tcpBufSize at hl
  unfold Pcb.inflight at hf ⊢
  rw [seqGt_iff] at hgt hle
  bv_omega

theorem ackDrop_phase (h : Phase app freed t) (hn : ¬ t.state.Syn) (g : Seg)
    (hgt : seqGt g.ack t.sndUna = true) (hle : ¬ seqGt g.ack t.sndNxt = true) :
    ∃ freed', freed ≤ freed' ∧ Phase app freed' (ackDrop t g) ∧
      ∀ k, freed ≤ k → k < freed' → seqLt (seqAt (t.iss + 1) k) g.ack = true := by
  cases h with
  | syn hstate => exact absurd hstate hn
  | done hstate hbuf hfreed hq =>
    refine ⟨freed, Nat.le_refl _, .done hstate (by simp [ackDrop, hbuf]) hfreed hq, ?_⟩
    intro k h₁ h₂
    omega
  | opened hstate hwin hlen hs =>
    obtain ⟨hpos, hd⟩ := ack_le_inflight hwin hgt hle
    have hfl := hwin.flight
    have hl := hwin.len
    have hb := Bool.toNat_le t.finSent
    have happ : t.sndLen = app.length - freed := by rw [Pcb.sndLen, hwin.buf, List.length_drop]
    unfold tcpBufSize at hl
    generalize hdd : (g.ack - t.sndUna).toNat = d at hpos hd
    have hack : g.ack = seqAt (t.iss + 1) (freed + d) := by
      rw [← seqAt_add, ← hwin.una, ← hdd]
      bv_omega
    have hacked (k : Nat) (h₁ : freed ≤ k) (h₂ : k < freed + d) :
        seqLt (seqAt (t.iss + 1) k) g.ack = true := by
      rw [hack]
      exact (seqLt_seqAt ⟨by omega, by omega⟩).mpr h₂
    have hnxt : ¬ seqLt t.sndNxt g.ack = true := by
      rw [seqLt_iff]
      unfold Pcb.inflight at hd hfl
      bv_omega
    by_cases hcov : d ≤ t.sndLen
    · refine ⟨freed + d, by omega, .opened hstate ⟨?_, hack, ?_, ?_⟩ (by omega) hs, hacked⟩
      · simp only [ackDrop, hdd, Nat.min_eq_left hcov, hwin.buf, List.drop_drop]
      · simp only [ackDrop, if_neg hnxt, Pcb.inflight, Pcb.sndLen, hdd, List.length_drop]
        unfold Pcb.inflight Pcb.sndLen at *
        bv_omega
      · simp only [ackDrop, Pcb.sndLen, List.length_drop]
        unfold Pcb.sndLen at hl
        unfold tcpBufSize
        omega
    · -- the FIN is acknowledged with the last byte
      have hfin : t.finSent = true := by
        cases hh : t.finSent with
        | true => rfl
        | false =>
          simp only [hh, Bool.toNat_false] at hfl
          omega
      refine ⟨app.length, hlen, .done hstate ?_ rfl (.inl (hs hfin)), ?_⟩
      · simp only [ackDrop, hdd]
        exact List.drop_eq_nil_of_le (by unfold Pcb.sndLen at *; omega)
      · intro k h₁ h₂
        exact hacked k h₁ (by omega)

theorem Phase.established {u : Pcb} (h : Phase app freed t) (hsyn : t.state.Syn)
    (hst : u.state = .established) (hi : u.iss = t.iss) (hu : u.sndUna = t.iss + 1)
    (hnx : u.sndNxt = t.sndNxt) (hb : u.sndbuf = t.sndbuf) (hs : u.finSent = t.finSent) :
    Phase app freed u := by
  cases h with
  | syn _ happ hfreed hbuf _ hnxt _ _ hfs =>
    have hb' : u.sndbuf = [] := hb.trans hbuf
    subst happ hfreed
    refine .opened (by simp [hst, State.Syn]) ⟨by simp [hb'], by simp [hu, hi, seqAt], ?_, ?_⟩
      (Nat.le_refl _) (by simp [hs, hfs])
    · simp [Pcb.inflight, hu, hnx, hnxt]
    · simp [Pcb.sndLen, hb']
  | opened hstate => exact absurd hsyn hstate
  | done hstate => exact absurd hsyn hstate

/-- No segment acknowledging the SYN's own number is taken in `SYN_RCVD`. -/
def AckAboveIss (c : Conn) : Event → Prop
  | .rx _ g => c.sock.tcp.state = .synRcvd → inWindow c.sock.tcp g = true → g.flags.rst = false →
      g.flags.syn = false → g.flags.ack = true → g.ack ≠ c.sock.tcp.iss
  | _ => True

theorem rxAck_advance (env : Env) (h : Phase app freed s.tcp) (hss : s.tcp.state ≠ .synSent) (g : Seg)
    (hok : s.tcp.state = .synRcvd → g.ack ≠ s.tcp.iss) :
    ∃ freed', Advance app freed freed' g.ack s (rxAck env s g).1 ∧
      ((rxAck env s g).2 = true → ¬ (rxAck env s g).1.tcp.state.Syn) := by
  unfold rxAck
  dsimp only
  split
  · rename_i hst
    split
    · exact ⟨freed, (tcpRstReply_quiet s g).advance h, by simp⟩
    rename_i hrange
    have hack : g.ack = s.tcp.iss + 1 := by
      have hne := hok hst
      cases h with
      | syn _ _ _ _ huna hnxt =>
        simp only [Bool.or_eq_true, not_or, seqLt_iff, seqGt_iff, huna, hnxt] at hrange
        bv_omega
      | opened hstate => exact absurd (.inr hst) hstate
      | done hstate => exact absurd (.inr hst) hstate
    refine ⟨freed, .of_emits ?_ ((Emits.refl _ _ s).setTcp rfl), fun _ => ?_⟩
    · exact h.established (.inr hst) rfl rfl hack rfl rfl rfl
    · simp [Sock.setTcp, State.Syn]
  · rename_i hst
    have hn : ¬ s.tcp.state.Syn := by
      rintro (hh | hh)
      · exact hss hh
      · exact hst hh
    split
    · exact ⟨freed, (tcpSendAck_quiet s).advance h, by simp⟩
    rename_i hle
    split
    · rename_i hgt
      obtain ⟨freed', hle', hp, hacked⟩ := ackDrop_phase h hn g hgt hle
      obtain ⟨hq, hst'⟩ := ackAdvance_quiet s.tcp g env.now
      refine ⟨freed', ⟨hq.phase hp, hle', (Emits.refl _ _ s).setTcp hq.iss, hacked⟩, fun _ => ?_⟩
      simpa only [Sock.setTcp, hst'] using hn
    · split
      · obtain ⟨ha, hst'⟩ := ackDuplicate_advance env h hn g
        exact ⟨freed, ha, fun _ => hst' ▸ hn⟩
      · exact ⟨freed, (QuietStep.refl s).advance h, fun _ => hn⟩

theorem rxSegment_advance (env : Env) (h : Phase app freed s.tcp) (hss : s.tcp.state ≠ .synSent) (g : Seg)
    (hok : s.tcp.state = .synRcvd → inWindow s.tcp g = true → g.flags.rst = false →
      g.flags.syn = false → g.flags.ack = true → g.ack ≠ s.tcp.iss) :
    ∃ freed', Advance app freed freed' g.ack s (rxSegment env s g) ∧
      (freed' ≠ freed → g.flags.ack = true) := by
  have quiet {s' : Sock} (hq : QuietStep s s') : ∃ freed', Advance app freed freed' g.ack s s' ∧
      (freed' ≠ freed → g.flags.ack = true) := ⟨freed, hq.advance h, fun hne => absurd rfl hne⟩
  unfold rxSegment
  split
  · split
    · exact quiet (.refl s)
    · exact quiet (tcpSendAck_quiet s)
  rename_i hwin
  split
  · exact quiet (tcpSetClosed_quiet s _)
  rename_i hrst
  split
  · exact quiet (tcpAbort_quiet s _)
  rename_i hsyn
  split
  · exact quiet (.refl s)
  rename_i hack
  simp only [Bool.not_eq_true, Bool.not_eq_false, Bool.not_eq_true'] at hwin hrst hsyn hack
  obtain ⟨freed', ha, hn⟩ := rxAck_advance env h hss g fun hst => hok hst hwin hrst hsyn hack
  refine ⟨freed', ?_, fun _ => hack⟩
  dsimp only
  rcases hra : rxAck env s g with ⟨s₁, more⟩
  rw [hra] at ha hn
  cases more with
  | false => exact ha
  | true =>
    dsimp only
    have hw : QuietStep s₁ (s₁.setTcp fun t => windowUpdate t g) := .setTcp (windowUpdate_quiet _ g)
    have hcl := hw.trans (rxClosing_quiet env.now (s₁.setTcp fun t => windowUpdate t g))
    rcases hrc : rxClosing env.now (s₁.setTcp fun t => windowUpdate t g) with ⟨s₂, more⟩
    rw [hrc] at hcl
    cases more with
    | false => exact ha.then_quiet hcl
    | true =>
      dsimp only
      have hd := hcl.trans (rxData_quiet env s₂ g s.tcp.rcvSpace)
      have hf := hd.trans (rxFin_quiet env g (rxData env s₂ g s.tcp.rcvSpace).2
        (hd.tcp.not_syn (hn rfl)))
      have hq := ha.then_quiet hf
      obtain ⟨hp, he⟩ := tcpOutput_phase hq.phase env.now env.room'
      exact hq.then_emits hp he

theorem outputSyn_phase (hst : s.tcp.state.Syn) (hb : s.tcp.sndbuf = [])
    (hu : s.tcp.sndUna = s.tcp.iss) (hn : s.tcp.sndNxt = s.tcp.iss) (hf : s.tcp.hasFin = false)
    (hq : s.tcp.finQueued = false) (hs : s.tcp.finSent = false) (now room : Nat) :
    Phase [] 0 (tcpOutput s now room).tcp ∧ Emits [] 0 s (tcpOutput s now room) := by
  have key (flags : Flags) : Phase [] 0 (outputSyn s now flags).tcp ∧ Emits [] 0 s (outputSyn s now flags) := by
    refine ⟨?_, outputSyn_emits s now flags⟩
    unfold outputSyn
    rw [if_pos hn]
    obtain ⟨_, hfs⟩ := tcpSendSeg_tcp s s.tcp.iss flags [] false
    obtain ⟨_, _, _, _, _, _, _, _, _, _, _, he⟩ := tcpSendSeg_sends s s.tcp.iss flags [] false
    rw [he] at hfs ⊢
    exact .syn hst rfl rfl hb hu rfl hf hq (hfs.trans hs)
  rcases hst with hst | hst <;> simpa only [tcpOutput, hst] using key _

theorem rxSynSent_advance (env : Env) (h : Phase app freed s.tcp) (hst : s.tcp.state = .synSent) (g : Seg) :
    Advance app freed freed g.ack s (rxSynSent env s g) := by
  unfold rxSynSent
  dsimp only
  split
  · exact (tcpRstReply_quiet s g).advance h
  rename_i hrange
  split
  · split
    · exact (tcpSetClosed_quiet s _).advance h
    · exact (QuietStep.refl s).advance h
  split
  · exact (QuietStep.refl s).advance h
  split
  · rename_i hack
    have ha : g.ack = s.tcp.iss + 1 := by
      cases h with
      | syn _ _ _ _ _ hnxt =>
        simp only [hack, Bool.true_and, Bool.or_eq_true, not_or, seqLeq_iff, seqGt_iff, hnxt] at hrange
        bv_omega
      | opened hstate => exact absurd (.inl hst) hstate
      | done hstate => exact absurd (.inl hst) hstate
    have hp := h.established (u := (s.setTcp fun t => { t with
      irs := g.seq, rcvNxt := g.seq + 1, sackOk := g.opts.sackOk
      mss := if g.opts.mss ≠ 0 ∧ g.opts.mss < t.mss then g.opts.mss else t.mss
      sndUna := g.ack, sndWnd := g.wnd, sndWl1 := g.seq, sndWl2 := g.ack, rtoAt := 0
      rtoMs := rtoMinMs, retries := 0, state := .established }).tcp) (.inl hst) rfl rfl ha rfl rfl rfl
    exact (Advance.of_emits hp ((Emits.refl _ _ s).setTcp rfl)).then_quiet (tcpSendAck_quiet _)
  · cases h with
    | syn _ happ hfreed hbuf huna _ hfin hq hs =>
      subst happ hfreed
      obtain ⟨hp, he⟩ := outputSyn_phase (s := (s.setTcp fun t => { t with
        irs := g.seq, rcvNxt := g.seq + 1, sackOk := g.opts.sackOk
        mss := if g.opts.mss ≠ 0 ∧ g.opts.mss < t.mss then g.opts.mss else t.mss
        state := .synRcvd, sndNxt := t.iss })) (.inr rfl) hbuf huna rfl hfin hq hs env.now env.room
      exact .of_emits hp (((Emits.refl _ _ s).setTcp rfl).trans he)
    | opened hstate => exact absurd (.inl hst) hstate
    | done hstate => exact absurd (.inl hst) hstate

theorem tcpRx_advance (env : Env) (h : Phase app freed s.tcp) (g : Seg)
    (hok : s.tcp.state = .synRcvd → inWindow s.tcp g = true → g.flags.rst = false →
      g.flags.syn = false → g.flags.ack = true → g.ack ≠ s.tcp.iss) :
    ∃ freed', Advance app freed freed' g.ack s (tcpRx env s g) ∧
      (freed' ≠ freed → g.flags.ack = true) := by
  unfold tcpRx
  split
  · exact ⟨freed, (QuietStep.refl s).advance h, fun hne => absurd rfl hne⟩
  · exact ⟨freed, (QuietStep.refl s).advance h, fun hne => absurd rfl hne⟩
  · rename_i hst
    exact ⟨freed, rxSynSent_advance env h hst g, fun hne => absurd rfl hne⟩
  · rename_i hss
    exact rxSegment_advance env h hss g hok

end Sic.Tcp
