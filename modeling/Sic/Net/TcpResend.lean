import Sic.Net.TcpEdgeRun

/-! What an expired retransmission timer sends. The ranges the peer has reported outlive the
timeout, and the sender jumps over them. -/

namespace Sic.Tcp

def State.sending (x : State) : Bool :=
  x == .established || x == .closeWait || x == .finWait1 || x == .closing || x == .lastAck

def Resent (una : U32) (s s' : Sock) : Prop :=
  ∃ new, s'.out = new ++ s.out ∧ ∃ g ∈ new, g.seq = una ∧ g.data ≠ []

variable {s s' s'' : Sock} {una : U32}

theorem not_resent (h : ∃ new, s'.out = new ++ s.out ∧ ∀ g ∈ new, g.seq = una → g.data = []) :
    ¬ Resent una s s' := by
  rintro ⟨new, ho, g, hg, hseq, hdata⟩
  obtain ⟨new', ho', hnew⟩ := h
  obtain rfl := List.append_cancel_right (ho.symm.trans ho')
  exact hdata (hnew g hg hseq)

theorem resent_trans_iff (una : U32) (h : ∃ new, s'.out = new ++ s.out) (h' : ∃ new, s''.out = new ++ s'.out) :
    Resent una s s'' ↔ Resent una s s' ∨ Resent una s' s'' := by
  obtain ⟨new, ho⟩ := h
  obtain ⟨new', ho'⟩ := h'
  have hall : s''.out = (new' ++ new) ++ s.out := by rw [ho', ho, List.append_assoc]
  constructor
  · rintro ⟨l, hl, g, hg, hseq⟩
    obtain rfl := List.append_cancel_right (hl.symm.trans hall)
    rcases List.mem_append.mp hg with hg | hg
    · exact .inr ⟨new', ho', g, hg, hseq⟩
    · exact .inl ⟨new, ho, g, hg, hseq⟩
  · rintro (⟨l, hl, g, hg, hseq⟩ | ⟨l, hl, g, hg, hseq⟩)
    · obtain rfl := List.append_cancel_right (hl.symm.trans ho)
      exact ⟨_, hall, g, List.mem_append_right _ hg, hseq⟩
    · obtain rfl := List.append_cancel_right (hl.symm.trans ho')
      exact ⟨_, hall, g, List.mem_append_left _ hg, hseq⟩

theorem Piece.at_una {t : Pcb} {wnd : Nat} {g : Seg} (h : Piece t wnd g) (hs : Sized t)
    (hseq : g.seq = t.sndUna) :
    t.inflight = 0 := by
  obtain ⟨off, hle, hoff, hlen, -⟩ := h.bytes
  have hb := hs.buf
  unfold tcpBufSize at hb
  rw [hseq] at hoff
  bv_omega

theorem outputLoop_resent_iff {wnd : Nat} (now room : Nat) {fuel : Nat} (hs : Sized s.tcp)
    (hlen : 0 < s.tcp.sndLen)
    (hwnd : 0 < wnd) (hfuel : s.tcp.sndLen - s.tcp.inflight < fuel) :
    Resent s.tcp.sndUna s (outputLoop wnd now fuel room s) ↔
      s.tcp.sndNxt = s.tcp.sndUna ∧ sackedThrough s.tcp s.tcp.sndUna = none ∧ recovering s.tcp = false := by
  by_cases hnxt : s.tcp.sndNxt = s.tcp.sndUna
  swap
  · -- the loop never goes back to `snd_una`
    refine iff_of_false (not_resent ?_) fun h => hnxt h.1
    obtain ⟨-, new, ho, hnew⟩ := outputLoop_spec wnd now room fuel hs hfuel
    refine ⟨new, ho, fun g hg hseq => absurd ((hnew g hg).at_una hs hseq) ?_⟩
    unfold Pcb.inflight
    bv_omega
  have hzero : s.tcp.inflight = 0 := by simp [Pcb.inflight, hnxt]
  have hstop : ¬ (s.tcp.sndLen ≤ s.tcp.inflight ∨ wnd ≤ s.tcp.inflight) := by omega
  obtain ⟨fuel, rfl⟩ : ∃ n, fuel = n + 1 := ⟨fuel - 1, by omega⟩
  simp only [hnxt, true_and]
  unfold outputLoop
  dsimp only
  rw [if_neg hstop]
  rw [hnxt]
  cases hsack : sackedThrough s.tcp s.tcp.sndUna with
  | some stop =>
    refine iff_of_false (not_resent ?_) (by simp)
    have hgt : s.tcp.inflight < (s.setTcp fun t => { t with sndNxt := skipTo t stop }).tcp.inflight :=
      inflight_lt_skipTo hs.buf (by omega) (sackedThrough_gt (hnxt ▸ hsack))
    have hrest : (s.setTcp fun t => { t with sndNxt := skipTo t stop }).tcp.sndLen = s.tcp.sndLen := rfl
    obtain ⟨-, new, ho, hnew⟩ := outputLoop_spec wnd now room fuel
      (s := s.setTcp fun t => { t with sndNxt := skipTo t stop }) ⟨hs.mss, hs.buf⟩ (by omega)
    refine ⟨new, ho, fun g hg hseq => absurd ((hnew g hg).at_una ⟨hs.mss, hs.buf⟩ hseq) (by omega)⟩
  | none =>
    cases hrec : recovering s.tcp with
    | true =>
      rw [if_pos rfl]
      exact iff_of_false (not_resent ⟨[], rfl, by simp⟩) (by simp)
    | false =>
      rw [if_neg (by simp)]
      refine iff_of_true ?_ ⟨rfl, rfl⟩
      obtain ⟨g, ho, -, hseq, hdata⟩ := sendData_piece hs hstop
      rw [hnxt] at hseq
      cases room with
      | zero => exact ⟨[g], ho, g, List.mem_singleton_self g, hseq, hdata⟩
      | succ room =>
        have hle := segLen_le hs.buf wnd s.tcp.inflight
        have hpos := segLen_pos hs.mss hstop
        have hfl := inflight_sentOn hs now (n := segLen s.tcp wnd s.tcp.inflight) (by omega)
        have hsends := sentOn_sends s now (segLen s.tcp wnd s.tcp.inflight)
        have hsame : (sentOn s now (segLen s.tcp wnd s.tcp.inflight)).tcp.sndLen = s.tcp.sndLen :=
          congrArg List.length hsends.fields.2.1
        obtain ⟨-, new, ho', -⟩ := outputLoop_spec wnd now room fuel (hs.sends hsends) (by omega)
        refine ⟨new ++ [g], ?_, g, by simp, hseq, hdata⟩
        rw [List.append_assoc, List.singleton_append, ← ho]
        exact ho'

theorem outputWnd_pos {t : Pcb} (hs : Sized t) (hw : t.sndWnd ≠ 0) : 0 < outputWnd t := by
  have hm := hs.mss
  have hc : 0 < min t.sndWnd (cwndSegs * t.mss) := by
    unfold cwndSegs
    omega
  unfold outputWnd
  dsimp only
  split <;> omega

theorem outputFin_not_resent (s : Sock) (now : Nat) : ¬ Resent una s (outputFin s now) := by
  refine not_resent ?_
  unfold outputFin
  dsimp only
  split
  · obtain ⟨opts, ho⟩ := tcpSendSeg_seg s s.tcp.sndNxt { fin := true, ack := true } [] false
    exact ⟨[_], ho, by simp⟩
  · exact ⟨[], rfl, by simp⟩

theorem outputFin_out (s : Sock) (now : Nat) : ∃ new, (outputFin s now).out = new ++ s.out := by
  unfold outputFin
  dsimp only
  split
  · obtain ⟨opts, ho⟩ := tcpSendSeg_seg s s.tcp.sndNxt { fin := true, ack := true } [] false
    exact ⟨[_], ho⟩
  · exact ⟨[], rfl⟩

theorem tcpOutput_resent_iff (now room : Nat) (hs : Sized s.tcp) (hlen : 0 < s.tcp.sndLen)
    (hw : s.tcp.sndWnd ≠ 0) :
    Resent s.tcp.sndUna s (tcpOutput s now room) ↔ s.tcp.state.sending = true ∧ s.tcp.sndNxt = s.tcp.sndUna ∧
      sackedThrough s.tcp s.tcp.sndUna = none ∧ recovering s.tcp = false := by
  have hloop := outputLoop_resent_iff now room hs hlen (outputWnd_pos hs hw)
    (Nat.lt_succ_of_le (Nat.sub_le s.tcp.sndLen s.tcp.inflight))
  obtain ⟨-, new, ho, -⟩ := outputLoop_spec (outputWnd s.tcp) now room _ hs
    (Nat.lt_succ_of_le (Nat.sub_le s.tcp.sndLen s.tcp.inflight))
  have hdata : Resent s.tcp.sndUna s (
      let s := outputLoop (outputWnd s.tcp) now (s.tcp.sndLen + 1) room s
      let s := outputFin s now
      if recovering s.tcp then s.setTcp fun t => { t with recover := 0 } else s) ↔
        s.tcp.sndNxt = s.tcp.sndUna ∧ sackedThrough s.tcp s.tcp.sndUna = none ∧ recovering s.tcp = false := by
    rw [← hloop]
    dsimp only
    generalize outputLoop (outputWnd s.tcp) now (s.tcp.sndLen + 1) room s = s₁ at ho ⊢
    have hfin := resent_trans_iff s.tcp.sndUna ⟨new, ho⟩ (outputFin_out s₁ now)
    rw [or_iff_left (outputFin_not_resent s₁ now)] at hfin
    rw [← hfin]
    split <;> rfl
  have hsyn (flags : Flags) : ¬ Resent s.tcp.sndUna s (outputSyn s now flags) := by
    refine not_resent ?_
    unfold outputSyn
    split
    · obtain ⟨opts, ho⟩ := tcpSendSeg_seg s s.tcp.iss flags [] false
      exact ⟨[_], ho, by simp⟩
    · exact ⟨[], rfl, by simp⟩
  have hsame : ¬ Resent s.tcp.sndUna s s := not_resent ⟨[], rfl, by simp⟩
  unfold tcpOutput
  split
  iterate 2
    next hst => exact iff_of_false (hsyn _) (by simp [hst, State.sending])
  iterate 5
    next hst => exact hdata.trans (by simp [hst, State.sending])
  · exact iff_of_false hsame (by simp_all [State.sending])

/-! ### The timer -/

theorem outputLoop_rtoAt (wnd now fuel room : Nat) (h : s.tcp.rtoAt ≠ 0) :
    (outputLoop wnd now fuel room s).tcp.rtoAt = s.tcp.rtoAt := by
  induction fuel generalizing room s with
  | zero => rfl
  | succ fuel ih =>
    unfold outputLoop
    dsimp only
    split
    · rfl
    split
    · exact ih room h
    split
    · rfl
    split
    · rfl
    · have harm : (sentOn s now (segLen s.tcp wnd s.tcp.inflight)).tcp.rtoAt = s.tcp.rtoAt := if_neg h
      exact (ih _ (harm ▸ h)).trans harm

theorem tcpOutput_rtoAt (now room : Nat) (h : s.tcp.rtoAt ≠ 0) :
    (tcpOutput s now room).tcp.rtoAt = s.tcp.rtoAt := by
  have hsyn (flags : Flags) : (outputSyn s now flags).tcp.rtoAt = s.tcp.rtoAt := by
    unfold outputSyn tcpSendSeg
    split
    · cases flags.ack <;> exact if_neg h
    · rfl
  have hfin (s : Sock) (h : s.tcp.rtoAt ≠ 0) : (outputFin s now).tcp.rtoAt = s.tcp.rtoAt := by
    unfold outputFin
    dsimp only
    split
    · exact if_neg h
    · rfl
  by_cases hst : s.tcp.state.Syn
  · rcases hst with hst | hst <;> rw [tcpOutput, hst] <;> exact hsyn _
  rcases outputData_eq s now room hst with he | ⟨s₁, hs₁, he⟩
  · rw [he]
  have hloop := outputLoop_rtoAt (outputWnd s.tcp) now (s.tcp.sndLen + 1) room h
  have h₁ : s₁.tcp.rtoAt = s.tcp.rtoAt := by
    rw [hs₁, hfin _ (hloop ▸ h), hloop]
  rw [he]
  split
  · exact h₁
  · exact h₁

theorem sending_not_syn {x : State} (h : x.sending = true) : ¬ x.Syn := by
  rintro (rfl | rfl) <;> cases h

theorem tcpAbort_not_resent (s : Sock) (err : Option Errno) : ¬ Resent una s (tcpAbort s err) := by
  have hclosed (s : Sock) : (tcpSetClosed s err).out = s.out := by
    unfold tcpSetClosed
    split <;> rfl
  refine not_resent ?_
  rw [tcpAbort, hclosed]
  split
  · obtain ⟨opts, ho⟩ := tcpSendSeg_seg s s.tcp.sndNxt { rst := true, ack := true } [] false
    exact ⟨[_], ho, by simp⟩
  · exact ⟨[], rfl, by simp⟩

theorem rtoExpire_resent_iff (now room : Nat) (hs : Sized s.tcp) (hlen : 0 < s.tcp.sndLen)
    (hw : s.tcp.sndWnd ≠ 0) :
    Resent s.tcp.sndUna s (rtoExpire s now room) ↔ s.tcp.state.sending = true ∧
      sackedThrough s.tcp s.tcp.sndUna = none ∧ s.tcp.retries < maxRetries := by
  unfold rtoExpire
  dsimp only
  split
  · next hmax =>
    change maxRetries < s.tcp.retries + 1 at hmax
    refine iff_of_false (tcpAbort_not_resent _ _) fun h => ?_
    omega
  · next hmax =>
    change ¬ maxRetries < s.tcp.retries + 1 at hmax
    have hretry : s.tcp.retries < maxRetries := by omega
    by_cases hsyn : s.tcp.state.Syn
    · have hrw : ((s.setTcp fun t => { t with retries := t.retries + 1 }).setTcp rtoRewind).tcp =
          { s.tcp with retries := s.tcp.retries + 1, rtoMs := min (s.tcp.rtoMs * 2) rtoMaxMs, rtoAt := 0
                       sndNxt := s.tcp.iss } := if_pos hsyn
      have hiff := tcpOutput_resent_iff now room
        (s := (s.setTcp fun t => { t with retries := t.retries + 1 }).setTcp rtoRewind)
        (by rw [hrw]; exact ⟨hs.mss, hs.buf⟩) (by rw [hrw]; exact hlen) (by rw [hrw]; exact hw)
      rw [hrw] at hiff
      refine iff_of_false (fun h => ?_) fun h => sending_not_syn h.1 hsyn
      exact sending_not_syn (hiff.mp h).1 hsyn
    · have hrw : ((s.setTcp fun t => { t with retries := t.retries + 1 }).setTcp rtoRewind).tcp =
          { s.tcp with retries := s.tcp.retries + 1, rtoMs := min (s.tcp.rtoMs * 2) rtoMaxMs, rtoAt := 0
                       sndNxt := s.tcp.sndUna, finSent := false, recover := 0 } := if_neg hsyn
      have hiff := tcpOutput_resent_iff now room
        (s := (s.setTcp fun t => { t with retries := t.retries + 1 }).setTcp rtoRewind)
        (by rw [hrw]; exact ⟨hs.mss, hs.buf⟩) (by rw [hrw]; exact hlen) (by rw [hrw]; exact hw)
      rw [hrw] at hiff
      refine hiff.trans ⟨fun h => ⟨h.1, h.2.2.1, hretry⟩, fun h => ⟨h.1, rfl, h.2.1, ?_⟩⟩
      simp [recovering]

/-- What an expired timer may rely on: data that is not acknowledged, a window, and a device that takes
the first segment of a call. -/
structure Expired (env : Env) (t : Pcb) : Prop where
  data : 0 < t.sndLen
  armed : t.rtoAt ≠ 0
  due : t.rtoAt ≤ env.now
  window : t.sndWnd ≠ 0
  room : 0 < env.room
  room' : 0 < env.room'

instance (env : Env) (t : Pcb) : Decidable (Expired env t) :=
  decidable_of_iff (0 < t.sndLen ∧ t.rtoAt ≠ 0 ∧ t.rtoAt ≤ env.now ∧ t.sndWnd ≠ 0 ∧ 0 < env.room ∧ 0 < env.room')
    ⟨fun h => ⟨h.1, h.2.1, h.2.2.1, h.2.2.2.1, h.2.2.2.2.1, h.2.2.2.2.2⟩, fun h => ⟨h.1, h.2, h.3, h.4, h.5, h.6⟩⟩

def retryDue (env : Env) (t : Pcb) : Prop := t.retryAt ≠ 0 ∧ t.retryAt ≤ env.now

instance (env : Env) (t : Pcb) : Decidable (retryDue env t) :=
  inferInstanceAs (Decidable (t.retryAt ≠ 0 ∧ t.retryAt ≤ env.now))

theorem tcpSendAck_not_resent (s : Sock) : ¬ Resent una s (tcpSendAck s) := by
  obtain ⟨opts, ho⟩ := tcpSendSeg_seg s s.tcp.sndNxt { ack := true } [] true
  exact not_resent ⟨[_], ho, by simp⟩

theorem Sends.rest (h : Sends s s') : s'.tcp.sndWnd = s.tcp.sndWnd ∧ s'.tcp.sacked = s.tcp.sacked ∧
    s'.tcp.retries = s.tcp.retries := by
  obtain ⟨_, _, _, _, _, _, _, _, _, _, _, rfl⟩ := h
  exact ⟨rfl, rfl, rfl⟩

theorem sackedThrough_congr {t t' : Pcb} (h : t'.sacked = t.sacked) (seq : U32) :
    sackedThrough t' seq = sackedThrough t seq := by
  rw [sackedThrough, h]
  rfl

theorem timerRetry_resent_iff (env : Env) (hs : Sized s.tcp) (h : Expired env s.tcp) {s₂ : Sock}
    (hs₂ : (if s.tcp.retryAt ≠ 0 ∧ s.tcp.retryAt ≤ env.now then
      tcpOutput (s.setTcp fun t => { t with retryAt := 0 }) env.now env.room else s) = s₂) :
    Sends s s₂ ∧ s₂.tcp.rtoAt = s.tcp.rtoAt ∧ (∃ new, s₂.out = new ++ s.out) ∧
      (Resent s.tcp.sndUna s s₂ ↔ retryDue env s.tcp ∧ s.tcp.state.sending = true ∧ s.tcp.sndNxt = s.tcp.sndUna ∧
        sackedThrough s.tcp s.tcp.sndUna = none ∧ recovering s.tcp = false) := by
  by_cases hdue : s.tcp.retryAt ≠ 0 ∧ s.tcp.retryAt ≤ env.now
  · rw [if_pos hdue] at hs₂
    have hs' : Sized (s.setTcp fun t => { t with retryAt := 0 }).tcp := ⟨hs.mss, hs.buf⟩
    obtain ⟨new, ho, -⟩ := tcpOutput_outgoing hs' env.now env.room
    have hiff := tcpOutput_resent_iff env.now env.room hs' h.data h.window
    rw [← hs₂]
    refine ⟨Sends.trans ⟨_, _, _, _, _, _, _, _, _, _, _, rfl⟩ (tcpOutput_sends _ _ _),
      tcpOutput_rtoAt _ _ h.armed, ⟨new, ho⟩, ?_⟩
    exact hiff.trans (and_iff_right hdue).symm
  · rw [if_neg hdue] at hs₂
    rw [← hs₂]
    exact ⟨.refl s, rfl, ⟨[], rfl⟩, iff_of_false (not_resent ⟨[], rfl, by simp⟩) fun hc => hdue hc.1⟩

theorem tcpTimer_resent_iff (env : Env) (hs : Sized s.tcp) (h : Expired env s.tcp) :
    Resent s.tcp.sndUna s (tcpTimer env s) ↔ s.tcp.state.sending = true ∧
      sackedThrough s.tcp s.tcp.sndUna = none ∧
      (s.tcp.retries < maxRetries ∨
        (retryDue env s.tcp ∧ s.tcp.sndNxt = s.tcp.sndUna ∧ recovering s.tcp = false)) := by
  unfold tcpTimer
  dsimp only
  split
  · next htw =>
    refine iff_of_false (not_resent ⟨[], ?_, by simp⟩) fun hc => ?_
    · unfold tcpSetClosed
      split <;> rfl
    · rw [htw.1] at hc
      cases hc.1
  generalize hs₁ : (if s.tcp.ackPending ∧ s.tcp.delackAt ≠ 0 ∧ s.tcp.delackAt ≤ env.now then tcpSendAck s
    else s) = s₁
  have h₁ : (∃ new, s₁.out = new ++ s.out) ∧ ¬ Resent s.tcp.sndUna s s₁ ∧ ∃ adv pending segs delack newest,
      s₁.tcp = { s.tcp with rcvWndAdv := adv, ackPending := pending, ackSegs := segs, delackAt := delack
                            oooNewest := newest } := by
    rw [← hs₁]
    split
    · obtain ⟨opts, ho⟩ := tcpSendSeg_seg s s.tcp.sndNxt { ack := true } [] true
      exact ⟨⟨[_], ho⟩, tcpSendAck_not_resent s, _, _, _, _, _, rfl⟩
    · exact ⟨⟨[], rfl⟩, not_resent ⟨[], rfl, by simp⟩, _, _, _, _, _, rfl⟩
  obtain ⟨hout₁, hnot₁, _, _, _, _, _, htcp⟩ := h₁
  have hs₁ : Sized s₁.tcp := by
    rw [htcp]
    exact ⟨hs.mss, hs.buf⟩
  have he₁ : Expired env s₁.tcp := by
    rw [htcp]
    exact ⟨h.data, h.armed, h.due, h.window, h.room, h.room'⟩
  generalize hs₂ : (if s₁.tcp.retryAt ≠ 0 ∧ s₁.tcp.retryAt ≤ env.now then
    tcpOutput (s₁.setTcp fun t => { t with retryAt := 0 }) env.now env.room else s₁) = s₂
  obtain ⟨hsends, hrto, hout₂, hretry⟩ := timerRetry_resent_iff env hs₁ he₁ hs₂
  obtain ⟨-, hbuf, huna, -, -⟩ := hsends.fields
  obtain ⟨hwnd, hsacked, hretries⟩ := hsends.rest
  have hs₂' : Sized s₂.tcp := hs₁.sends hsends
  rw [if_pos (by rw [hrto]; exact ⟨he₁.armed, he₁.due⟩)]
  have hexpire := rtoExpire_resent_iff env.now env.room' hs₂' (by rw [Pcb.sndLen, hbuf]; exact he₁.data)
    (hwnd ▸ he₁.window)
  obtain ⟨-, -, -, new, -, -, hout₃, -⟩ := rtoExpire_fwd s₂ env.now env.room' hs₂'
  rw [resent_trans_iff _ hout₁ (hout₂.elim fun l hl => ⟨new ++ l, by rw [hout₃, hl, List.append_assoc]⟩),
    or_iff_right hnot₁, resent_trans_iff _ hout₂ ⟨new, hout₃⟩]
  rw [huna, hsends.state, hretries, sackedThrough_congr hsacked] at hexpire
  rw [htcp] at hretry hexpire
  rw [show Resent s.tcp.sndUna s₁ s₂ ↔ _ from hretry, show Resent s.tcp.sndUna s₂ _ ↔ _ from hexpire]
  change (retryDue env s.tcp ∧ _ ∧ _ ∧ _ ∧ recovering s.tcp = false ∨ _) ↔ _
  constructor
  · rintro (⟨hdue, hsend, hnxt, hnone, hrec⟩ | ⟨hsend, hnone, hlt⟩)
    · exact ⟨hsend, hnone, .inr ⟨hdue, hnxt, hrec⟩⟩
    · exact ⟨hsend, hnone, .inl hlt⟩
  · rintro ⟨hsend, hnone, hlt | ⟨hdue, hnxt, hrec⟩⟩
    · exact .inr ⟨hsend, hnone, hlt⟩
    · exact .inl ⟨hdue, hsend, hnxt, hnone, hrec⟩

/-- In every state a connection reaches, an expired timer sends a segment that starts at `snd_una` exactly if
no recorded range covers `snd_una`, the state is one that sends, and the connection is not given up
(unless an attempt that was due starts there). -/
theorem timer_resends_una_iff {c : Conn} (h : Opened c) (es : List Event) (env : Env)
    (hex : Expired env (run step c es).sock.tcp) :
    let s := (run step c es).sock
    Resent s.tcp.sndUna s (tcpTimer env s) ↔ s.tcp.state.sending = true ∧
      sackedThrough s.tcp s.tcp.sndUna = none ∧
      (s.tcp.retries < maxRetries ∨
        (retryDue env s.tcp ∧ s.tcp.sndNxt = s.tcp.sndUna ∧ recovering s.tcp = false)) :=
  tcpTimer_resent_iff env (run_sized h.ordered.sized es) hex

theorem timer_resends_una_iff_sendTwo :
    let s := (run step passive [handshakeAck 1001, sendTwo]).sock
    Expired ⟨1000, 1, 1, true⟩ s.tcp ∧ Resent s.tcp.sndUna s (tcpTimer ⟨1000, 1, 1, true⟩ s) := by
  have hex : Expired ⟨1000, 1, 1, true⟩ (run step passive [handshakeAck 1001, sendTwo]).sock.tcp := by
    decide +kernel
  exact ⟨hex, (timer_resends_una_iff passive_opened _ _ hex).mpr (by decide +kernel)⟩

def bothReported : List Event :=
  [handshakeAck 1001, sendTwo, .rx ⟨4, 1, 1, true⟩ ⟨5001, 1001, { ack := true }, 4096, { sack := [(1001, 1003)] },
    []⟩]

/-- The timer expires, and nothing is sent. -/
theorem reported_bytes_not_resent :
    let s := (run step passive bothReported).sock
    Expired ⟨1000, 1, 1, true⟩ s.tcp ∧ s.tcp.state = .established ∧ s.tcp.retries = 0 ∧
      (tcpTimer ⟨1000, 1, 1, true⟩ s).out = s.out := by
  decide +kernel

end Sic.Tcp
