import Sic.Net.TcpRun

/-! What the output path sends: pieces of the application's stream, each at the
sequence number of its first byte. -/

namespace Sic.Tcp

def Conn.freed (c : Conn) : Nat := c.app.length - c.sock.tcp.sndLen

/-- Every byte of the segment is a byte of the stream, no older than the first
`freed`, at the place its sequence number names. -/
def SegOk (app : List U8) (freed : Nat) (iss : U32) (g : Seg) : Prop :=
  ∀ i b, g.data[i]? = some b →
    ∃ k, freed ≤ k ∧ app[k]? = some b ∧ seqAt (iss + 1) k = g.seq + BitVec.ofNat 32 i

def State.Syn (x : State) : Prop := x = .synSent ∨ x = .synRcvd

instance (x : State) : Decidable x.Syn := inferInstanceAs (Decidable (_ ∨ _))

/-- The buffer holds the stream from `freed` on, and `snd_nxt` lies within it
or just behind the FIN. -/
structure Window (app : List U8) (freed : Nat) (t : Pcb) : Prop where
  buf : t.sndbuf = app.drop freed
  una : t.sndUna = seqAt (t.iss + 1) freed
  flight : t.inflight ≤ t.sndLen + t.finSent.toNat
  len : t.sndLen ≤ tcpBufSize

/-- Where the sending side of a connection is: in the handshake, with `freed`
bytes gone from the buffer, or with nothing more to send. -/
inductive Phase (app : List U8) (freed : Nat) (t : Pcb) : Prop where
  | syn (hstate : t.state.Syn) (happ : app = []) (hfreed : freed = 0) (hbuf : t.sndbuf = [])
      (huna : t.sndUna = t.iss) (hnxt : t.sndNxt = t.iss + 1) (hfin : t.hasFin = false)
      (hq : t.finQueued = false) (hs : t.finSent = false)
  | opened (hstate : ¬ t.state.Syn) (hwin : Window app freed t) (hle : freed ≤ app.length)
      (hs : t.finSent = true → t.finQueued = true)
  | done (hstate : ¬ t.state.Syn) (hbuf : t.sndbuf = []) (hfreed : freed = app.length)
      (hq : t.finQueued = true ∨ t.state = .closed)

def Emits (app : List U8) (freed : Nat) (s s' : Sock) : Prop :=
  s'.tcp.iss = s.tcp.iss ∧
    ∃ new, s'.out = new ++ s.out ∧ ∀ g ∈ new, SegOk app freed s.tcp.iss g

theorem Emits.refl (app : List U8) (freed : Nat) (s : Sock) : Emits app freed s s :=
  ⟨rfl, [], rfl, by simp⟩

variable {s s' : Sock} {t : Pcb}

theorem Emits.trans {app : List U8} {freed : Nat} {s'' : Sock} (h : Emits app freed s s')
    (h' : Emits app freed s' s'') : Emits app freed s s'' := by
  obtain ⟨hi, new, ho, hnew⟩ := h
  obtain ⟨hi', new', ho', hnew'⟩ := h'
  refine ⟨hi'.trans hi, new' ++ new, by rw [ho', ho, List.append_assoc], ?_⟩
  intro g hg
  rcases List.mem_append.mp hg with hg | hg
  · exact hi ▸ hnew' g hg
  · exact hnew g hg

theorem Emits.mono {app : List U8} {freed freed' : Nat} (h : Emits app freed' s s')
    (hle : freed ≤ freed') : Emits app freed s s' := by
  obtain ⟨hi, new, ho, hnew⟩ := h
  refine ⟨hi, new, ho, ?_⟩
  intro g hg i b hb
  obtain ⟨k, hk, hrest⟩ := hnew g hg i b hb
  exact ⟨k, Nat.le_trans hle hk, hrest⟩

theorem segOk_nil {app : List U8} {freed : Nat} {iss : U32} {g : Seg} (h : g.data = []) :
    SegOk app freed iss g := by
  intro i b hb
  simp [h] at hb

theorem tcpSendSeg_out (s : Sock) (seq : U32) (flags : Flags) (data : List U8) (w : Bool) :
    ∃ g, (tcpSendSeg s seq flags data w).out = g :: s.out ∧ g.seq = seq ∧ g.data = data := by
  unfold tcpSendSeg
  exact ⟨_, rfl, rfl, rfl⟩

theorem tcpSendSeg_tcp (s : Sock) (seq : U32) (flags : Flags) (data : List U8) (w : Bool) :
    (tcpSendSeg s seq flags data w).tcp.sndNxt = s.tcp.sndNxt ∧
      (tcpSendSeg s seq flags data w).tcp.finSent = s.tcp.finSent := by
  unfold tcpSendSeg
  cases flags.ack <;> exact ⟨rfl, rfl⟩

theorem tcpSendSeg_emits {app : List U8} {freed : Nat} (s : Sock) (seq : U32) (flags : Flags)
    (w : Bool) : Emits app freed s (tcpSendSeg s seq flags [] w) := by
  obtain ⟨g, ho, -, hd⟩ := tcpSendSeg_out s seq flags [] w
  obtain ⟨_, _, _, _, _, _, _, _, _, _, _, he⟩ := tcpSendSeg_sends s seq flags [] w
  refine ⟨by rw [he], [g], by simp [ho], ?_⟩
  simpa using segOk_nil hd

variable {app : List U8} {freed : Nat}

theorem Window.congr {t' : Pcb} (h : Window app freed t) (hb : t'.sndbuf = t.sndbuf)
    (hu : t'.sndUna = t.sndUna) (hi : t'.iss = t.iss)
    (hf : t'.inflight ≤ t'.sndLen + t'.finSent.toNat) : Window app freed t' :=
  ⟨hb ▸ h.buf, by rw [hu, hi]; exact h.una, hf, by unfold Pcb.sndLen; rw [hb]; exact h.len⟩

theorem sackedThrough_gt {seq stop : U32} (h : sackedThrough t seq = some stop) : seqLt seq stop = true := by
  unfold sackedThrough at h
  split at h
  · cases h
  rename_i r hr
  split at h
  · cases h
  cases h
  have hp := List.find?_some hr
  simp only [Bool.and_eq_true] at hp
  exact hp.2

theorem nextSackStart_mem {seq len b : U32} (h : nextSackStart t seq len = some b) :
    seqGt b seq = true ∧ seqLt b (seq + len) = true := by
  unfold nextSackStart at h
  dsimp only at h
  split at h
  · cases h
  next b' hb' =>
  have hb : b' = b := by
    split at h
    · cases h
    · exact Option.some.inj h
  rw [hb] at hb'
  refine invariant_foldl (P := fun best => ∀ b ∈ best, seqGt b seq = true ∧ seqLt b (seq + len) = true) ?_
    t.sacked ?_ b (Option.mem_def.mpr hb')
  · intro best r hbest b hb
    split_ifs at hb with hr
    · cases hb
      simp only [Bool.and_eq_true] at hr
      exact hr.1
    · exact hbest b hb
  · simp

theorem segLen_le (hlen : t.sndLen ≤ tcpBufSize) (wnd inflight : Nat) :
    segLen t wnd inflight ≤ t.sndLen - inflight := by
  unfold segLen
  dsimp only
  split
  · omega
  rename_i hole hh
  obtain ⟨hgt, hlt⟩ := nextSackStart_mem hh
  rw [seqGt_iff] at hgt
  rw [seqLt_iff] at hlt
  unfold tcpBufSize at hlen
  bv_omega

theorem inflight_skipTo (hlen : t.sndLen ≤ tcpBufSize) (hlt : t.inflight < t.sndLen)
    {stop : U32} (h : seqLt t.sndNxt stop = true) : (skipTo t stop - t.sndUna).toNat ≤ t.sndLen := by
  unfold tcpBufSize at hlen
  unfold Pcb.inflight at hlt
  unfold Pcb.sndLen at hlen hlt ⊢
  rw [seqLt_iff] at h
  unfold skipTo
  dsimp only
  split
  · rename_i hl
    rw [seqLt_iff] at hl
    unfold len32 at hl
    bv_omega
  · unfold len32
    bv_omega

theorem segOk_window (h : Window app freed t) (n : Nat) {g : Seg} (hseq : g.seq = t.sndNxt)
    (hdata : g.data = (t.sndbuf.drop t.inflight).take n) : SegOk app freed t.iss g := by
  intro i b hb
  rw [hdata, h.buf, List.drop_drop] at hb
  obtain ⟨hi, hb⟩ := List.getElem?_eq_some_iff.mp hb
  rw [List.getElem_take, List.getElem_drop] at hb
  refine ⟨freed + t.inflight + i, by omega, ?_, ?_⟩
  · rw [← hb]
    exact List.getElem?_eq_getElem _
  have hn : t.sndNxt = t.sndUna + BitVec.ofNat 32 t.inflight := by
    unfold Pcb.inflight
    bv_omega
  rw [hseq, hn, h.una, seqAt_add, seqAt_add]

theorem sendData_window (h : Window app freed s.tcp) (n : Nat) :
    Window app freed (sendData s n).tcp ∧ Emits app freed s (sendData s n) ∧
      (sendData s n).tcp.sndNxt = s.tcp.sndNxt ∧ (sendData s n).tcp.finSent = s.tcp.finSent := by
  obtain ⟨g, ho, hseq, hdata⟩ := tcpSendSeg_out s s.tcp.sndNxt
    { ack := true, psh := s.tcp.inflight + n == s.tcp.sndLen } ((s.tcp.sndbuf.drop s.tcp.inflight).take n)
    false
  have htcp : (sendData s n).tcp.sndNxt = s.tcp.sndNxt ∧ (sendData s n).tcp.finSent = s.tcp.finSent :=
    tcpSendSeg_tcp _ _ _ _ _
  obtain ⟨_, _, _, _, _, _, _, _, _, _, _, he⟩ : Sends s (sendData s n) := tcpSendSeg_sends _ _ _ _ _
  have hout : (sendData s n).out = [g] ++ s.out := ho
  rw [he] at hout htcp ⊢
  refine ⟨Window.congr h rfl rfl rfl ?_, ⟨rfl, [g], hout, ?_⟩, htcp⟩
  · have hf := h.flight
    unfold Pcb.inflight at hf ⊢
    dsimp only at htcp ⊢
    rw [htcp.1, htcp.2]
    exact hf
  · simpa using segOk_window h n hseq hdata

theorem outputLoop_window (wnd now : Nat) {fuel room : Nat} (h : Window app freed s.tcp) :
    Window app freed (outputLoop wnd now fuel room s).tcp ∧
      Emits app freed s (outputLoop wnd now fuel room s) ∧
      (outputLoop wnd now fuel room s).tcp.finSent = s.tcp.finSent := by
  induction fuel generalizing room s with
  | zero => exact ⟨h, .refl _ _ s, rfl⟩
  | succ fuel ih =>
    unfold outputLoop
    dsimp only
    split
    · exact ⟨h, .refl _ _ s, rfl⟩
    rename_i hin
    have hlt : s.tcp.inflight < s.tcp.sndLen := by omega
    split
    · rename_i stop hs
      have h₁ : Window app freed (s.setTcp fun t => { t with sndNxt := skipTo t stop }).tcp := by
        refine Window.congr h rfl rfl rfl ?_
        have hle := inflight_skipTo h.len hlt (sackedThrough_gt hs)
        exact Nat.le_trans hle (Nat.le_add_right _ _)
      exact ih h₁
    · split
      · exact ⟨h, .refl _ _ s, rfl⟩
      · have hle := segLen_le h.len wnd s.tcp.inflight
        generalize segLen s.tcp wnd s.tcp.inflight = n at hle ⊢
        obtain ⟨h₁, he, hnxt, hfin⟩ := sendData_window h n
        obtain ⟨_, _, _, _, _, _, _, _, _, _, _, hs₁⟩ : Sends s (sendData s n) :=
          tcpSendSeg_sends _ _ _ _ _
        split
        · exact ⟨Window.congr h₁ rfl rfl rfl h₁.flight, he, hfin⟩
        have h₂ : Window app freed ((sendData s n).setTcp fun t =>
            armRto now { t with sndNxt := t.sndNxt + BitVec.ofNat 32 n }).tcp := by
          refine Window.congr h₁ rfl rfl rfl ?_
          have hl := h.len
          have hfl : (s.tcp.sndNxt + BitVec.ofNat 32 n - s.tcp.sndUna).toNat ≤ s.tcp.sndLen := by
            unfold Pcb.inflight at hlt hle
            unfold tcpBufSize at hl
            bv_omega
          unfold Pcb.inflight
          rw [hs₁] at hnxt ⊢
          dsimp only at hnxt
          subst hnxt
          exact Nat.le_trans hfl (Nat.le_add_right _ _)
        obtain ⟨h₃, he₃, hfin₃⟩ := ih h₂
        exact ⟨h₃, he.trans he₃, hfin₃.trans hfin⟩

theorem Emits.setTcp (h : Emits app freed s s') {f : Pcb → Pcb}
    (hf : (f s'.tcp).iss = s'.tcp.iss) : Emits app freed s (s'.setTcp f) :=
  ⟨hf.trans h.1, h.2⟩

theorem outputSyn_emits (s : Sock) (now : Nat) (flags : Flags) :
    Emits app freed s (outputSyn s now flags) := by
  unfold outputSyn
  split
  · exact (tcpSendSeg_emits s _ _ _).setTcp rfl
  · exact .refl _ _ s

theorem outputFin_emits (s : Sock) (now : Nat) : Emits app freed s (outputFin s now) := by
  unfold outputFin
  dsimp only
  split
  · exact (tcpSendSeg_emits s _ _ _).setTcp rfl
  · exact .refl _ _ s

theorem outputFin_window (h : Window app freed s.tcp)
    (hs : s.tcp.finSent = true → s.tcp.finQueued = true) (now : Nat) :
    Window app freed (outputFin s now).tcp ∧
      ((outputFin s now).tcp.finSent = true → (outputFin s now).tcp.finQueued = true) := by
  unfold outputFin
  dsimp only
  split
  · rename_i hc
    obtain ⟨hq, -, hnxt, -⟩ := hc
    obtain ⟨hn, -⟩ := tcpSendSeg_tcp s s.tcp.sndNxt { fin := true, ack := true } [] false
    obtain ⟨_, _, _, _, _, _, _, _, _, _, _, he⟩ :=
      tcpSendSeg_sends s s.tcp.sndNxt { fin := true, ack := true } [] false
    rw [he] at hn ⊢
    dsimp only at hn
    subst hn
    refine ⟨Window.congr h rfl rfl rfl ?_, fun _ => hq⟩
    have hl := h.len
    unfold tcpBufSize Pcb.sndLen at hl
    unfold len32 at hnxt
    change (s.tcp.sndNxt + 1 - s.tcp.sndUna).toNat ≤ s.tcp.sndbuf.length + 1
    bv_omega
  · exact ⟨h, hs⟩

theorem outputData_eq (s : Sock) (now room : Nat) (h : ¬ s.tcp.state.Syn) :
    tcpOutput s now room = s ∨
      ∃ s₁, s₁ = outputFin (outputLoop (outputWnd s.tcp) now (s.tcp.sndLen + 1) room s) now ∧
        tcpOutput s now room =
          if recovering s₁.tcp then s₁.setTcp fun t => { t with recover := 0 } else s₁ := by
  unfold tcpOutput
  split
  · exact absurd (.inl ‹_›) h
  · exact absurd (.inr ‹_›) h
  all_goals first | exact .inr ⟨_, rfl, rfl⟩ | exact .inl rfl

theorem tcpOutput_phase (h : Phase app freed s.tcp) (now room : Nat) :
    Phase app freed (tcpOutput s now room).tcp ∧ Emits app freed s (tcpOutput s now room) := by
  cases h with
  | syn hstate happ hfreed hbuf huna hnxt hfin hq hs =>
    have hne : s.tcp.sndNxt ≠ s.tcp.iss := by bv_omega
    have he : tcpOutput s now room = s := by
      rcases hstate with hst | hst <;> simp [tcpOutput, outputSyn, hst, hne]
    rw [he]
    exact ⟨.syn hstate happ hfreed hbuf huna hnxt hfin hq hs, .refl _ _ s⟩
  | opened hstate hwin hle hs =>
    rcases outputData_eq s now room hstate with he | ⟨s₁, hs₁, he⟩
    · rw [he]
      exact ⟨.opened hstate hwin hle hs, .refl _ _ s⟩
    obtain ⟨hwin', hem, hfs⟩ := outputLoop_window (outputWnd s.tcp) now hwin
    have hsnd := outputLoop_sends (outputWnd s.tcp) now (s.tcp.sndLen + 1) room s
    generalize outputLoop (outputWnd s.tcp) now (s.tcp.sndLen + 1) room s = s₂ at *
    have hfs₂ : s₂.tcp.finSent = true → s₂.tcp.finQueued = true := by
      obtain ⟨_, _, _, _, _, _, _, _, _, _, _, rfl⟩ := hsnd
      rw [hfs]
      exact hs
    obtain ⟨hwin₁, hfs₁⟩ := outputFin_window hwin' hfs₂ now
    have hem₁ := hem.trans (outputFin_emits s₂ now)
    have hst₁ : s₁.tcp.state = s.tcp.state := by
      obtain ⟨_, _, _, _, _, _, _, _, _, _, _, ho⟩ := hsnd.trans (outputFin_sends s₂ now)
      rw [hs₁, ho]
    rw [← hs₁] at hwin₁ hfs₁ hem₁
    rw [he]
    split
    · exact ⟨.opened (hst₁ ▸ hstate) (Window.congr hwin₁ rfl rfl rfl hwin₁.flight) hle hfs₁,
        hem₁.setTcp rfl⟩
    · exact ⟨.opened (hst₁ ▸ hstate) hwin₁ hle hfs₁, hem₁⟩
  | done hstate hbuf hfreed hq =>
    have hloop (wnd fuel : Nat) : outputLoop wnd now (fuel + 1) room s = s := by
      simp [outputLoop, Pcb.sndLen, hbuf]
    have hem : Emits app freed s (tcpOutput s now room) := by
      rcases outputData_eq s now room hstate with he | ⟨s₁, hs₁, he⟩
      · rw [he]
        exact .refl _ _ s
      rw [hloop] at hs₁
      rw [he, hs₁]
      split
      · exact (outputFin_emits s now).setTcp rfl
      · exact outputFin_emits s now
    refine ⟨?_, hem⟩
    obtain ⟨_, _, _, _, _, _, _, _, _, _, _, he⟩ := tcpOutput_sends s now room
    rw [he]
    exact .done hstate hbuf hfreed hq

end Sic.Tcp
