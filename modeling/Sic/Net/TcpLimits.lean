import Sic.Net.TcpOutput

/-! What one call of `tcp_output` sends. Its loop ends, and the bytes it sends are those of the
buffer below the smaller of the peer's window and the congestion limit. -/

namespace Sic.Tcp

def Pcb.rcvWnd (t : Pcb) : Nat := min t.rcvSpace 65535

structure Sized (t : Pcb) : Prop where
  mss : 0 < t.mss
  buf : t.sndLen ≤ tcpBufSize

def sendLimit (t : Pcb) : Nat := max 1 (min t.sndWnd (cwndSegs * t.mss))

/-- The loop of `tcp_output` ends: one constructor for each way through its body. -/
inductive Returns (wnd now : Nat) : Nat → Sock → Sock → Prop where
  | done {room : Nat} {s : Sock} (h : s.tcp.sndLen ≤ s.tcp.inflight ∨ wnd ≤ s.tcp.inflight) :
    Returns wnd now room s s
  | skip {room : Nat} {s s' : Sock} {stop : U32} (h : ¬ (s.tcp.sndLen ≤ s.tcp.inflight ∨ wnd ≤ s.tcp.inflight))
      (hsack : sackedThrough s.tcp s.tcp.sndNxt = some stop)
      (hrest : Returns wnd now room (s.setTcp fun t => { t with sndNxt := skipTo t stop }) s') :
    Returns wnd now room s s'
  | hold {room : Nat} {s : Sock} (h : ¬ (s.tcp.sndLen ≤ s.tcp.inflight ∨ wnd ≤ s.tcp.inflight))
      (hsack : sackedThrough s.tcp s.tcp.sndNxt = none) (hrec : recovering s.tcp = true) :
        Returns wnd now room s s
  | refused {s : Sock} (h : ¬ (s.tcp.sndLen ≤ s.tcp.inflight ∨ wnd ≤ s.tcp.inflight))
      (hsack : sackedThrough s.tcp s.tcp.sndNxt = none) (hrec : recovering s.tcp = false) :
      Returns wnd now 0 s ((sendData s (segLen s.tcp wnd s.tcp.inflight)).setTcp fun t =>
        { t with retryAt := if t.retryAt = 0 then now + 10 else t.retryAt })
  | sent {room : Nat} {s s' : Sock} (h : ¬ (s.tcp.sndLen ≤ s.tcp.inflight ∨ wnd ≤ s.tcp.inflight))
      (hsack : sackedThrough s.tcp s.tcp.sndNxt = none) (hrec : recovering s.tcp = false)
      (hrest : Returns wnd now room ((sendData s (segLen s.tcp wnd s.tcp.inflight)).setTcp fun t =>
        armRto now { t with sndNxt := t.sndNxt + BitVec.ofNat 32 (segLen s.tcp wnd s.tcp.inflight) }) s') :
      Returns wnd now (room + 1) s s'

structure Piece (t : Pcb) (wnd : Nat) (g : Seg) : Prop where
  ack : g.ack = t.rcvNxt
  win : g.wnd = t.rcvWnd
  rst : g.flags.rst = false
  bytes : ∃ off, t.inflight ≤ off ∧ g.seq = t.sndUna + BitVec.ofNat 32 off ∧
    off + g.data.length ≤ min t.sndLen wnd ∧
    g.data = (t.sndbuf.drop off).take g.data.length

variable {s s' : Sock} {t t' : Pcb} {wnd now room : Nat}

theorem tcpSendSeg_seg (s : Sock) (seq : U32) (flags : Flags) (data : List U8) (w : Bool) :
    ∃ opts, (tcpSendSeg s seq flags data w).out =
      ⟨seq, s.tcp.rcvNxt, flags, s.tcp.rcvWnd, opts, data⟩ :: s.out := by
  unfold tcpSendSeg
  cases flags.ack <;> exact ⟨_, rfl⟩

theorem segLen_pos (hm : 0 < t.mss) {fl : Nat} (h : ¬ (t.sndLen ≤ fl ∨ wnd ≤ fl)) : 0 < segLen t wnd fl := by
  unfold segLen
  dsimp only
  split
  · omega
  next hole hh =>
  have hgt := (nextSackStart_mem hh).1
  rw [seqGt_iff] at hgt
  exact hgt.1

theorem segLen_le_wnd (hlen : t.sndLen ≤ tcpBufSize) (wnd fl : Nat) : segLen t wnd fl ≤ wnd - fl := by
  unfold segLen
  dsimp only
  split
  · omega
  next hole hh =>
  obtain ⟨hgt, hlt⟩ := nextSackStart_mem hh
  rw [seqGt_iff] at hgt
  rw [seqLt_iff] at hlt
  unfold tcpBufSize at hlen
  bv_omega

theorem inflight_lt_skipTo (hlen : t.sndLen ≤ tcpBufSize) (hlt : t.inflight < t.sndLen) {stop : U32}
    (h : seqLt t.sndNxt stop = true) : t.inflight < (skipTo t stop - t.sndUna).toNat := by
  unfold tcpBufSize at hlen
  unfold Pcb.inflight at hlt ⊢
  unfold Pcb.sndLen at hlen hlt
  rw [seqLt_iff] at h
  unfold skipTo
  dsimp only
  split
  · next hl =>
    rw [seqLt_iff] at hl
    unfold len32 at hl
    bv_omega
  · unfold len32
    bv_omega

theorem Piece.congr {g : Seg} (h : Piece t' wnd g) (hack : t'.rcvNxt = t.rcvNxt) (hwin : t'.rcvWnd = t.rcvWnd)
    (huna : t'.sndUna = t.sndUna) (hbuf : t'.sndbuf = t.sndbuf) (hfl : t.inflight ≤ t'.inflight) :
    Piece t wnd g := by
  obtain ⟨off, hle, hseq, hlt, hdata⟩ := h.bytes
  refine ⟨h.ack.trans hack, h.win.trans hwin, h.rst, off, hfl.trans hle, huna ▸ hseq, ?_, hbuf ▸ hdata⟩
  rw [Pcb.sndLen, hbuf] at hlt
  exact hlt

theorem sendData_piece (hs : Sized s.tcp) (h : ¬ (s.tcp.sndLen ≤ s.tcp.inflight ∨ wnd ≤ s.tcp.inflight)) :
    ∃ g, (sendData s (segLen s.tcp wnd s.tcp.inflight)).out = g :: s.out ∧ Piece s.tcp wnd g ∧
      g.seq = s.tcp.sndNxt ∧ g.data ≠ [] := by
  have hlen := segLen_le hs.buf wnd s.tcp.inflight
  have hwnd := segLen_le_wnd hs.buf wnd s.tcp.inflight
  have hpos := segLen_pos hs.mss h
  generalize segLen s.tcp wnd s.tcp.inflight = n at *
  obtain ⟨opts, ho⟩ := tcpSendSeg_seg s s.tcp.sndNxt { ack := true, psh := s.tcp.inflight + n == s.tcp.sndLen }
    ((s.tcp.sndbuf.drop s.tcp.inflight).take n) false
  have hbytes : ((s.tcp.sndbuf.drop s.tcp.inflight).take n).length = n := by
    rw [List.length_take, List.length_drop]
    exact Nat.min_eq_left hlen
  refine ⟨_, ho, ⟨rfl, rfl, rfl, s.tcp.inflight, Nat.le_refl _, ?_, ?_, ?_⟩, rfl, ?_⟩
  · change s.tcp.sndNxt = _
    unfold Pcb.inflight
    bv_omega
  · dsimp only
    rw [hbytes]
    omega
  · dsimp only
    rw [hbytes]
  · intro hnil
    dsimp only at hnil
    rw [hnil] at hbytes
    exact absurd hbytes.symm (Nat.ne_of_gt hpos)

theorem Sends.fields (h : Sends s s') : s'.tcp.mss = s.tcp.mss ∧ s'.tcp.sndbuf = s.tcp.sndbuf ∧
    s'.tcp.sndUna = s.tcp.sndUna ∧ s'.tcp.rcvNxt = s.tcp.rcvNxt ∧ s'.tcp.rcvbuf = s.tcp.rcvbuf := by
  obtain ⟨_, _, _, _, _, _, _, _, _, _, _, rfl⟩ := h
  exact ⟨rfl, rfl, rfl, rfl, rfl⟩

theorem Sized.sends (hs : Sized s.tcp) (h : Sends s s') : Sized s'.tcp := by
  obtain ⟨hm, hb, -⟩ := h.fields
  exact ⟨hm ▸ hs.mss, by rw [Pcb.sndLen, hb]; exact hs.buf⟩

def sentOn (s : Sock) (now n : Nat) : Sock :=
  (sendData s n).setTcp fun t => armRto now { t with sndNxt := t.sndNxt + BitVec.ofNat 32 n }

theorem sentOn_sends (s : Sock) (now n : Nat) : Sends s (sentOn s now n) :=
  (tcpSendSeg_sends ..).trans ⟨_, _, _, _, _, _, _, _, _, _, _, rfl⟩

theorem inflight_sentOn (hs : Sized s.tcp) (now : Nat) {n : Nat} (hn : s.tcp.inflight + n ≤ s.tcp.sndLen) :
    (sentOn s now n).tcp.inflight = s.tcp.inflight + n := by
  have hnxt : (sentOn s now n).tcp.sndNxt = s.tcp.sndNxt + BitVec.ofNat 32 n :=
    congrArg (· + BitVec.ofNat 32 n) (tcpSendSeg_tcp ..).1
  have hb := hs.buf
  unfold tcpBufSize at hb
  rw [Pcb.inflight, hnxt, (sentOn_sends s now n).fields.2.2.1]
  unfold Pcb.inflight at hn ⊢
  bv_omega

theorem outputLoop_spec (wnd now room fuel : Nat) (hs : Sized s.tcp)
    (hfuel : s.tcp.sndLen - s.tcp.inflight < fuel) :
    Returns wnd now room s (outputLoop wnd now fuel room s) ∧
      ∃ new, (outputLoop wnd now fuel room s).out = new ++ s.out ∧ ∀ g ∈ new, Piece s.tcp wnd g := by
  induction fuel generalizing room s with
  | zero => omega
  | succ fuel ih =>
    unfold outputLoop
    dsimp only
    by_cases hstop : s.tcp.sndLen ≤ s.tcp.inflight ∨ wnd ≤ s.tcp.inflight
    · rw [if_pos hstop]
      exact ⟨.done hstop, [], rfl, by simp⟩
    rw [if_neg hstop]
    have hlt : s.tcp.inflight < s.tcp.sndLen := by omega
    split
    · next stop hsack =>
      have hgt : s.tcp.inflight < (s.setTcp fun t => { t with sndNxt := skipTo t stop }).tcp.inflight :=
        inflight_lt_skipTo hs.buf hlt (sackedThrough_gt hsack)
      have hrest : (s.setTcp fun t => { t with sndNxt := skipTo t stop }).tcp.sndLen = s.tcp.sndLen := rfl
      obtain ⟨hret, new, ho, hnew⟩ := ih room (s := s.setTcp fun t => { t with sndNxt := skipTo t stop })
        ⟨hs.mss, hs.buf⟩ (by omega)
      exact ⟨.skip hstop hsack hret, new, ho, fun g hg => (hnew g hg).congr rfl rfl rfl rfl (Nat.le_of_lt hgt)⟩
    · next hsack =>
      by_cases hrec : recovering s.tcp = true
      · rw [if_pos hrec]
        exact ⟨.hold hstop hsack hrec, [], rfl, by simp⟩
      rw [if_neg hrec]
      rw [Bool.not_eq_true] at hrec
      have hle := segLen_le hs.buf wnd s.tcp.inflight
      have hpos := segLen_pos hs.mss hstop
      obtain ⟨g, ho, hpiece, -, -⟩ := sendData_piece hs hstop
      cases room with
      | zero => exact ⟨.refused hstop hsack hrec, [g], ho, by simpa using hpiece⟩
      | succ room =>
        have hsends := sentOn_sends s now (segLen s.tcp wnd s.tcp.inflight)
        obtain ⟨-, hbuf, huna, hnxt, hring⟩ := hsends.fields
        have hfl := inflight_sentOn hs now (n := segLen s.tcp wnd s.tcp.inflight) (by omega)
        have hlen : (sentOn s now (segLen s.tcp wnd s.tcp.inflight)).tcp.sndLen = s.tcp.sndLen :=
          congrArg List.length hbuf
        obtain ⟨hret, new, ho', hnew⟩ := ih room (hs.sends hsends) (by omega)
        refine ⟨.sent hstop hsack hrec hret, new ++ [g], ?_, fun g' hg' => ?_⟩
        · rw [List.append_assoc, List.singleton_append, ← ho]
          exact ho'
        rcases List.mem_append.mp hg' with hg' | hg'
        · refine (hnew g' hg').congr hnxt ?_ huna hbuf (by omega)
          rw [Pcb.rcvWnd, Pcb.rcvSpace, hring]
          rfl
        · rw [List.mem_singleton.mp hg']
          exact hpiece

structure Outgoing (t : Pcb) (g : Seg) : Prop where
  ack : g.ack = t.rcvNxt
  win : g.wnd = t.rcvWnd
  rst : g.flags.rst = false
  syn : t.state = .synSent → g.flags.ack = false
  data : g.data ≠ [] → Piece t (outputWnd t) g

theorem outputSyn_outgoing (s : Sock) (now : Nat) {flags : Flags} (hrst : flags.rst = false)
    (hsyn : s.tcp.state = .synSent → flags.ack = false) :
    ∃ new, (outputSyn s now flags).out = new ++ s.out ∧ ∀ g ∈ new, Outgoing s.tcp g := by
  unfold outputSyn
  split
  · obtain ⟨opts, ho⟩ := tcpSendSeg_seg s s.tcp.iss flags [] false
    refine ⟨[_], ho, fun g hg => ?_⟩
    rw [List.mem_singleton.mp hg]
    exact ⟨rfl, rfl, hrst, hsyn, by simp⟩
  · exact ⟨[], rfl, by simp⟩

theorem outputFin_outgoing (s : Sock) (now : Nat) (hn : s.tcp.state ≠ .synSent) :
    ∃ new, (outputFin s now).out = new ++ s.out ∧ ∀ g ∈ new, Outgoing s.tcp g ∧ g.data = [] := by
  unfold outputFin
  dsimp only
  split
  · obtain ⟨opts, ho⟩ := tcpSendSeg_seg s s.tcp.sndNxt { fin := true, ack := true } [] false
    refine ⟨[_], ho, fun g hg => ?_⟩
    rw [List.mem_singleton.mp hg]
    exact ⟨⟨rfl, rfl, rfl, fun h => absurd h hn, by simp⟩, rfl⟩
  · exact ⟨[], rfl, by simp⟩

theorem outputData_outgoing (hs : Sized s.tcp) (now room : Nat) (hn : s.tcp.state ≠ .synSent) :
    ∃ new, (outputFin (outputLoop (outputWnd s.tcp) now (s.tcp.sndLen + 1) room s) now).out = new ++ s.out ∧
      ∀ g ∈ new, Outgoing s.tcp g := by
  obtain ⟨-, sent, ho, hsent⟩ := outputLoop_spec (outputWnd s.tcp) now room _ hs
    (Nat.lt_succ_of_le (Nat.sub_le s.tcp.sndLen s.tcp.inflight))
  have hl := outputLoop_sends (outputWnd s.tcp) now (s.tcp.sndLen + 1) room s
  obtain ⟨-, -, -, hnxt, hring⟩ := hl.fields
  have hst : (outputLoop (outputWnd s.tcp) now (s.tcp.sndLen + 1) room s).tcp.state = s.tcp.state := by
    obtain ⟨_, _, _, _, _, _, _, _, _, _, _, he⟩ := hl
    rw [he]
  obtain ⟨fin, ho', hfin⟩ := outputFin_outgoing _ now (hst ▸ hn)
  refine ⟨fin ++ sent, by rw [ho', ho, List.append_assoc], fun g hg => ?_⟩
  rcases List.mem_append.mp hg with hg | hg
  · obtain ⟨hg, hnil⟩ := hfin g hg
    refine ⟨hg.ack.trans hnxt, hg.win.trans ?_, hg.rst, fun h => absurd h hn, fun h => absurd hnil h⟩
    rw [Pcb.rcvWnd, Pcb.rcvSpace, hring]
    rfl
  · have hp := hsent g hg
    exact ⟨hp.ack, hp.win, hp.rst, fun h => absurd h hn, fun _ => hp⟩

theorem tcpOutput_outgoing (hs : Sized s.tcp) (now room : Nat) :
    ∃ new, (tcpOutput s now room).out = new ++ s.out ∧ ∀ g ∈ new, Outgoing s.tcp g := by
  by_cases hsyn : s.tcp.state.Syn
  · rcases hsyn with hst | hst <;> rw [tcpOutput, hst]
    · exact outputSyn_outgoing s now rfl fun _ => rfl
    · exact outputSyn_outgoing s now rfl (by simp [hst])
  · rcases outputData_eq s now room hsyn with he | ⟨s₁, hs₁, he⟩
    · exact ⟨[], by rw [he]; rfl, by simp⟩
    · obtain ⟨new, ho, hnew⟩ := outputData_outgoing hs now room fun h => hsyn (.inl h)
      refine ⟨new, ?_, hnew⟩
      rw [he, ← ho, hs₁]
      split <;> rfl

theorem outputWnd_le (t : Pcb) : outputWnd t ≤ sendLimit t := by
  unfold outputWnd sendLimit
  dsimp only
  split <;> omega

end Sic.Tcp
