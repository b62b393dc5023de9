import Mathlib.Data.List.Pairwise
import Sic.Net.TcpEdge
import Sic.Net.TcpSend

/-! The advertised edges over a whole run, as positions that do not wrap. -/

namespace Sic.Tcp

/-- Where the edge is, and the edges advertised so far, the newest first: positions counted from where the
connection starts. -/
structure Edges where
  top : Nat
  past : List Nat

def Edges.next (h : Edges) (s s' : Sock) : Edges where
  top := h.top + (s'.tcp.edge - s.tcp.edge).toNat
  past := ((s'.out.take (s'.out.length - s.out.length)).filter Seg.offers).map
    (fun g => h.top + (g.edge - s.tcp.edge).toNat) ++ h.past

def Edges.start (s : Sock) : Edges where
  top := 0
  past := (s.out.filter Seg.offers).map fun g => (g.edge - s.tcp.edge).toNat

def watch (y : Conn × Edges) (e : Event) : Conn × Edges := (step y.1 e, y.2.next y.1.sock (step y.1 e).sock)

/-- A segment comes in one packet, whose length is a number of 16 bits. -/
def Event.Packet : Event → Prop
  | .rx _ g => g.data.length < 65536
  | _ => True

instance (e : Event) : Decidable e.Packet :=
  match e with
  | .rx _ g => inferInstanceAs (Decidable (g.data.length < 65536))
  | .timer _ | .send _ _ | .recv _ _ _ | .shutdown _ _ _ | .close _ => .isTrue trivial

variable {s s' s'' : Sock} {c : Conn} {e : Event}

theorem take_new {new out : List Seg} : (new ++ out).take ((new ++ out).length - out.length) = new := by
  simp

/-! ### Before the peer's number is known -/

structure Idle (t : Pcb) : Prop where
  state : t.state = .synSent
  ring : t.rcvbuf.len = 0
  ooo : t.ooo = []
  pending : t.ackPending = false

def Mute (s s' : Sock) : Prop := ∃ new, s'.out = new ++ s.out ∧ ∀ g ∈ new, g.offers = false

theorem Mute.refl (s : Sock) : Mute s s := ⟨[], rfl, by simp⟩

theorem Mute.trans (h : Mute s s') (h' : Mute s' s'') : Mute s s'' := by
  obtain ⟨new, ho, hnew⟩ := h
  obtain ⟨new', ho', hnew'⟩ := h'
  refine ⟨new' ++ new, by rw [ho', ho, List.append_assoc], fun g hg => ?_⟩
  rcases List.mem_append.mp hg with hg | hg
  · exact hnew' g hg
  · exact hnew g hg

theorem tcpOutput_mute (hs : Sized s.tcp) (hi : Idle s.tcp) (now room : Nat) :
    Mute s (tcpOutput s now room) ∧ Idle (tcpOutput s now room).tcp := by
  obtain ⟨new, ho, hnew⟩ := tcpOutput_outgoing hs now room
  refine ⟨⟨new, ho, fun g hg => by simp [Seg.offers, (hnew g hg).syn hi.state]⟩, ?_⟩
  have hkeep : Idle (outputSyn s now { syn := true }).tcp := by
    unfold outputSyn
    split
    · exact ⟨hi.state, hi.ring, hi.ooo, hi.pending⟩
    · exact hi
  rw [tcpOutput, hi.state]
  exact hkeep

theorem tcpRstReply_mute (s : Sock) (g : Seg) : Mute s (tcpRstReply s g) := by
  unfold tcpRstReply
  split
  · exact .refl s
  split
  · exact ⟨[_], rfl, by simp [Seg.offers]⟩
  · exact ⟨[_], rfl, by simp [Seg.offers]⟩

theorem tcpSetClosed_mute (s : Sock) (err : Option Errno) : Mute s (tcpSetClosed s err) := by
  unfold tcpSetClosed
  split <;> exact ⟨[], rfl, by simp⟩

theorem tcpAbort_mute (s : Sock) (err : Option Errno) : Mute s (tcpAbort s err) := by
  unfold tcpAbort
  dsimp only
  split
  · obtain ⟨opts, ho⟩ := tcpSendSeg_seg s s.tcp.sndNxt { rst := true, ack := true } [] false
    refine Mute.trans ⟨[_], ho, ?_⟩ (tcpSetClosed_mute _ err)
    simp [Seg.offers]
  · exact tcpSetClosed_mute s err

def Starts (s s' : Sock) : Prop :=
  (s'.tcp.state = .synSent → Idle s'.tcp) ∧ ∃ new, s'.out = new ++ s.out ∧
    ∀ g ∈ new, g.offers = true → s'.tcp.state ≠ .synSent ∧ g.edge = s'.tcp.edge

theorem Mute.starts (h : Mute s s') (hi : s'.tcp.state = .synSent → Idle s'.tcp) : Starts s s' := by
  obtain ⟨new, ho, hnew⟩ := h
  exact ⟨hi, new, ho, fun g hg hoff => absurd hoff (by simp [hnew g hg])⟩

theorem not_idle_closed {s : Sock} (h : s.tcp.state = .closed) : s.tcp.state = .synSent → Idle s.tcp := by
  intro hst
  rw [h] at hst
  cases hst

theorem rxSynSent_cases (env : Env) (s : Sock) (g : Seg) :
    rxSynSent env s g = tcpRstReply s g ∨ rxSynSent env s g = tcpSetClosed s (some .econnrefused) ∨
      rxSynSent env s g = s ∨
      ∃ s₁ : Sock, s₁.out = s.out ∧ (Sized s.tcp → Sized s₁.tcp) ∧ s₁.tcp.state ≠ .synSent ∧
        (rxSynSent env s g = tcpSendAck s₁ ∨ rxSynSent env s g = tcpOutput s₁ env.now env.room) := by
  have hsized (hs : Sized s.tcp) :
      0 < (if g.opts.mss ≠ 0 ∧ g.opts.mss < s.tcp.mss then g.opts.mss else s.tcp.mss) := by
    have := hs.mss
    split <;> omega
  unfold rxSynSent
  dsimp only
  split
  · exact .inl rfl
  split
  · split
    · exact .inr (.inl rfl)
    · exact .inr (.inr (.inl rfl))
  split
  · exact .inr (.inr (.inl rfl))
  split
  · refine .inr (.inr (.inr ⟨_, ?_, ?_, ?_, .inl rfl⟩))
    · rfl
    · exact fun hs => ⟨hsized hs, hs.buf⟩
    · simp [Sock.setTcp]
  · refine .inr (.inr (.inr ⟨_, ?_, ?_, ?_, .inr rfl⟩))
    · rfl
    · exact fun hs => ⟨hsized hs, hs.buf⟩
    · simp [Sock.setTcp]

theorem rxSynSent_sized (env : Env) (hs : Sized s.tcp) (g : Seg) : Sized (rxSynSent env s g).tcp := by
  rcases rxSynSent_cases env s g with he | he | he | ⟨s₁, -, hsz, -, he | he⟩
  · exact he ▸ (tcpRstReply_fwd s g hs).1
  · exact he ▸ (tcpSetClosed_fwd s _ hs).1
  · rw [he]
    exact hs
  · exact he ▸ (tcpSendAck_fwd s₁ (hsz hs)).1
  · exact he ▸ (tcpOutput_fwd s₁ _ _ (hsz hs)).1

theorem rxSynSent_starts (env : Env) (hs : Sized s.tcp) (hi : Idle s.tcp) (g : Seg) :
    Starts s (rxSynSent env s g) := by
  rcases rxSynSent_cases env s g with he | he | he | ⟨s₁, ho, hsz, hn, he⟩
  · rw [he]
    exact (tcpRstReply_mute s g).starts fun _ => tcpRstReply_tcp s g ▸ hi
  · rw [he]
    exact (tcpSetClosed_mute s _).starts (not_idle_closed (tcpSetClosed_state s _))
  · rw [he]
    exact (Mute.refl s).starts fun _ => hi
  have same {s' : Sock} (h : Sends s₁ s') (new : List Seg) (ho' : s'.out = new ++ s₁.out)
      (hnew : ∀ g ∈ new, g.ack = s₁.tcp.rcvNxt ∧ g.wnd = s₁.tcp.rcvWnd) : Starts s s' := by
    obtain ⟨-, -, -, hnxt, hring⟩ := h.fields
    refine ⟨fun hst => absurd (h.state ▸ hst) hn, new, ho ▸ ho', fun g hg _ => ⟨h.state ▸ hn, ?_⟩⟩
    rw [Seg.edge, (hnew g hg).1, (hnew g hg).2, Pcb.edge, hnxt, Pcb.rcvWnd, Pcb.rcvSpace, Pcb.rcvWnd,
      Pcb.rcvSpace, hring]
  rcases he with he | he
  · obtain ⟨opts, ho'⟩ := tcpSendSeg_seg s₁ s₁.tcp.sndNxt { ack := true } [] true
    rw [he]
    refine same (tcpSendSeg_sends _ _ _ _ _) [_] ho' fun g hg => ?_
    rw [List.mem_singleton.mp hg]
    exact ⟨rfl, rfl⟩
  · obtain ⟨new, ho', hnew⟩ := tcpOutput_outgoing (hsz hs) env.now env.room
    rw [he]
    exact same (tcpOutput_sends _ _ _) new ho' fun g hg => ⟨(hnew g hg).ack, (hnew g hg).win⟩

theorem rtoExpire_starts (hs : Sized s.tcp) (hi : Idle s.tcp) (now room : Nat) :
    Mute s (rtoExpire s now room) ∧ ((rtoExpire s now room).tcp.state = .synSent →
      Idle (rtoExpire s now room).tcp) := by
  unfold rtoExpire
  dsimp only
  split
  · exact ⟨tcpAbort_mute _ _, not_idle_closed (tcpAbort_state _ _)⟩
  have hrewind : Idle (rtoRewind { s.tcp with retries := s.tcp.retries + 1 }) := by
    rw [rtoRewind, if_pos (.inl hi.state)]
    exact ⟨hi.state, hi.ring, hi.ooo, hi.pending⟩
  have hsz : Sized (rtoRewind { s.tcp with retries := s.tcp.retries + 1 }) := by
    rw [rtoRewind, if_pos (.inl hi.state)]
    exact ⟨hs.mss, hs.buf⟩
  obtain ⟨hm, hi'⟩ := tcpOutput_mute
    (s := (s.setTcp fun t => { t with retries := t.retries + 1 }).setTcp rtoRewind)
    hsz hrewind now room
  exact ⟨hm, fun _ => ⟨hi'.state, hi'.ring, hi'.ooo, hi'.pending⟩⟩

theorem tcpTimer_starts (env : Env) (hs : Sized s.tcp) (hi : Idle s.tcp) : Starts s (tcpTimer env s) := by
  unfold tcpTimer
  rw [if_neg (by simp [hi.state])]
  simp only [hi.pending, Bool.false_eq_true, false_and, if_false]
  generalize hs₂ : (if s.tcp.retryAt ≠ 0 ∧ s.tcp.retryAt ≤ env.now then
    tcpOutput (s.setTcp fun t => { t with retryAt := 0 }) env.now env.room else s) = s₂
  have h₂ : Sized s₂.tcp ∧ Mute s s₂ ∧ Idle s₂.tcp := by
    rw [← hs₂]
    split
    · have hi' : Idle (s.setTcp fun t => { t with retryAt := 0 }).tcp := ⟨hi.state, hi.ring, hi.ooo, hi.pending⟩
      have hs' : Sized (s.setTcp fun t => { t with retryAt := 0 }).tcp := ⟨hs.mss, hs.buf⟩
      obtain ⟨hm, hi''⟩ := tcpOutput_mute hs' hi' env.now env.room
      exact ⟨(tcpOutput_fwd _ _ _ hs').1, hm, hi''⟩
    · exact ⟨hs, .refl s, hi⟩
  split
  · obtain ⟨hm, hi'⟩ := rtoExpire_starts h₂.1 h₂.2.2 env.now env.room'
    exact (h₂.2.1.trans hm).starts hi'
  · exact h₂.2.1.starts fun _ => h₂.2.2

theorem recvEmpty_out (s : Sock) (peek : Bool) : (recvEmpty s peek).1.out = s.out := by
  unfold recvEmpty
  dsimp only
  split
  · rfl
  split
  · split
    · split <;> rfl
    · split <;> rfl
  · split <;> rfl

theorem step_starts (hs : Sized c.sock.tcp) (hi : Idle c.sock.tcp) (e : Event) :
    Starts c.sock (step c e).sock := by
  have still {s' : Sock} (ht : s'.tcp = c.sock.tcp) (ho : s'.out = c.sock.out) : Starts c.sock s' :=
    Mute.starts ⟨[], ho, by simp⟩ fun _ => ht ▸ hi
  cases e with
  | rx env g =>
    change Starts c.sock (tcpRx env c.sock g)
    rw [tcpRx, hi.state]
    exact rxSynSent_starts env hs hi g
  | timer env => exact tcpTimer_starts env hs hi
  | send env buf =>
    have he : (tcpSend env c.sock buf).1 = c.sock := by
      simp only [tcpSend, hi.state]
      split_ifs <;> simp_all
    rw [step]
    rcases hsend : tcpSend env c.sock buf with ⟨s', err | n⟩ <;> rw [hsend] at he <;> exact he ▸ still rfl rfl
  | recv env len peek =>
    have he : (tcpRecv env c.sock len peek).1.tcp = c.sock.tcp ∧
      (tcpRecv env c.sock len peek).1.out = c.sock.out := by
      have hnone : ¬ (c.sock.tcp.rcvbuf.len = 0 ∧ ∃ o ∈ c.sock.tcp.ooo.head?,
        seqLeq o.seq c.sock.tcp.rcvNxt = true) := by
        simp [hi.ooo]
      unfold tcpRecv
      dsimp only
      rw [if_neg hnone, if_pos hi.ring]
      exact ⟨(recvEmpty_tcp _ _).1, recvEmpty_out _ _⟩
    rw [step]
    rcases hrecv : tcpRecv env c.sock len peek with ⟨s', err | bytes⟩ <;> rw [hrecv] at he <;>
      exact still he.1 he.2
  | shutdown env rd wr =>
    change Starts c.sock (sysShutdown env c.sock rd wr)
    have hwr (s : Sock) (ht : s.tcp = c.sock.tcp) (ho : s.out = c.sock.out) :
      Starts c.sock (tcpShutdownWr env s) := by
      have he : tcpShutdownWr env s = s := by simp [tcpShutdownWr, ht, hi.state]
      rw [he]
      exact still ht ho
    unfold sysShutdown
    cases rd <;> cases wr
    · exact still rfl rfl
    · exact hwr _ rfl rfl
    · exact still rfl rfl
    · exact hwr _ rfl rfl
  | close env =>
    change Starts c.sock (tcpClose env c.sock)
    rw [tcpClose, hi.state]
    exact (tcpSetClosed_mute _ _).starts (not_idle_closed (tcpSetClosed_state _ _))

/-! ### Whole runs -/

theorem step_sized (hs : Sized c.sock.tcp) (e : Event) : Sized (step c e).sock.tcp := by
  cases e with
  | rx env g =>
    change Sized (tcpRx env c.sock g).tcp
    rw [tcpRx]
    split
    · exact hs
    · exact hs
    · exact rxSynSent_sized env hs g
    · exact (rxSegment_fwd env c.sock g hs).1
  | timer env => exact (tcpTimer_fwd env c.sock hs).1
  | send env buf =>
    have hsend := (tcpSend_fwd env c.sock buf hs).1
    rw [step]
    rcases heq : tcpSend env c.sock buf with ⟨s', err | n⟩ <;> rw [heq] at hsend <;> exact hsend
  | recv env len peek =>
    have hrecv := (tcpRecv_fwd env c.sock len peek hs).1
    rw [step]
    rcases heq : tcpRecv env c.sock len peek with ⟨s', err | bytes⟩ <;> rw [heq] at hrecv <;> exact hrecv
  | shutdown env rd wr => exact (sysShutdown_fwd env c.sock rd wr hs).1
  | close env => exact (tcpClose_fwd env c.sock hs).1

theorem step_fwd (he : e.Packet) (hn : c.sock.tcp.state ≠ .synSent) :
    Fwd (tcpBufSize + 65540) c.sock (step c e).sock := by
  have still {s' : Sock} (h : Fwd 0 c.sock s') : Fwd (tcpBufSize + 65540) c.sock s' := h.mono (Nat.zero_le _)
  cases e with
  | rx env g =>
    change Fwd _ c.sock (tcpRx env c.sock g)
    change g.data.length < 65536 at he
    rw [tcpRx]
    split
    · exact still (.refl _)
    · exact still (.refl _)
    · next hst => exact absurd hst hn
    · exact (rxSegment_fwd env c.sock g).mono (by omega)
  | timer env => exact still (tcpTimer_fwd env c.sock)
  | send env buf =>
    have hsend := still (tcpSend_fwd env c.sock buf)
    rw [step]
    rcases heq : tcpSend env c.sock buf with ⟨s', err | n⟩ <;> rw [heq] at hsend <;> exact hsend
  | recv env len peek =>
    have hrecv := (tcpRecv_fwd env c.sock len peek).mono (Nat.add_le_add_left (by decide : 4 ≤ 65540) tcpBufSize)
    rw [step]
    rcases heq : tcpRecv env c.sock len peek with ⟨s', err | bytes⟩ <;> rw [heq] at hrecv <;> exact hrecv
  | shutdown env rd wr => exact still (sysShutdown_fwd env c.sock rd wr)
  | close env => exact still (tcpClose_fwd env c.sock)

theorem pairwise_const {l : List Nat} {n : Nat} (h : ∀ p ∈ l, p = n) : l.Pairwise (· ≥ ·) := by
  rw [List.eq_replicate_of_mem h]
  exact List.pairwise_replicate.mpr (.inr (Nat.le_refl n))

structure Ordered (y : Conn × Edges) : Prop where
  sized : Sized y.1.sock.tcp
  idle : y.1.sock.tcp.state = .synSent → Idle y.1.sock.tcp ∧ y.2.past = []
  sorted : y.2.past.Pairwise (· ≥ ·)
  le : ∀ p ∈ y.2.past, p ≤ y.2.top

variable {y : Conn × Edges}

theorem Ordered.first (h : Ordered y) (hst : y.1.sock.tcp.state = .synSent) (e : Event) :
    Ordered (watch y e) := by
  obtain ⟨hi, hpast⟩ := h.idle hst
  have hs := step_sized h.sized e
  obtain ⟨hidle, new, ho, hnew⟩ := step_starts h.sized hi e
  have hall : ∀ p ∈ (watch y e).2.past, (step y.1 e).sock.tcp.state ≠ .synSent ∧ p = (watch y e).2.top := by
    intro p hp
    simp only [watch, Edges.next, ho, take_new, hpast, List.append_nil, List.mem_map, List.mem_filter] at hp
    obtain ⟨g, ⟨hg, hoff⟩, rfl⟩ := hp
    obtain ⟨hn, hedge⟩ := hnew g hg hoff
    exact ⟨hn, by rw [hedge]; rfl⟩
  refine ⟨hs, fun hst => ⟨hidle hst, ?_⟩, ?_, fun p hp => Nat.le_of_eq (hall p hp).2⟩
  · exact List.eq_nil_iff_forall_not_mem.mpr fun p hp => (hall p hp).1 hst
  · exact pairwise_const fun p hp => (hall p hp).2

theorem Ordered.later (h : Ordered y) (hn : y.1.sock.tcp.state ≠ .synSent) (he : e.Packet) :
    Ordered (watch y e) ∧ ((step y.1 e).sock.tcp.edge - y.1.sock.tcp.edge).toNat < 2 ^ 31 := by
  obtain ⟨hs, hsyn, k, new, hnxt, hk, ho, hoff⟩ := step_fwd he hn h.sized
  have hspace : y.1.sock.tcp.rcvSpace ≤ tcpBufSize := Nat.sub_le _ _
  have hle := hoff.le
  have hwnd : (step y.1 e).sock.tcp.rcvWnd ≤ 65535 := Nat.min_le_right _ _
  have hmove : ((step y.1 e).sock.tcp.edge - y.1.sock.tcp.edge).toNat + y.1.sock.tcp.rcvWnd =
      k + (step y.1 e).sock.tcp.rcvWnd := by
    unfold tcpBufSize at hk hspace
    rw [Pcb.edge, Pcb.edge, hnxt]
    generalize (step y.1 e).sock.tcp.rcvWnd = w' at *
    generalize y.1.sock.tcp.rcvWnd = w at *
    bv_omega
  obtain ⟨hsort, hbound⟩ := hoff.sorted (by unfold tcpBufSize at hk hspace; omega)
  have hpast : (watch y e).2.past = ((new.filter Seg.offers).map fun g =>
      (g.edge - (y.1.sock.tcp.rcvNxt + BitVec.ofNat 32 y.1.sock.tcp.rcvWnd)).toNat).map
        (y.2.top + ·) ++ y.2.past := by
    simp only [watch, Edges.next, ho, take_new, List.map_map]
    rfl
  have htop : (watch y e).2.top = y.2.top + ((step y.1 e).sock.tcp.edge - y.1.sock.tcp.edge).toNat := rfl
  refine ⟨⟨hs, fun hst => absurd (hsyn hst) hn, ?_, ?_⟩, ?_⟩
  · rw [hpast, List.pairwise_append]
    refine ⟨hsort.map _ fun p q hpq => Nat.add_le_add_left hpq _, h.sorted, fun p hp q hq => ?_⟩
    obtain ⟨d, -, rfl⟩ := List.mem_map.mp hp
    exact (h.le q hq).trans (Nat.le_add_right _ _)
  · intro p hp
    rw [hpast] at hp
    rcases List.mem_append.mp hp with hp | hp
    · obtain ⟨d, hd, rfl⟩ := List.mem_map.mp hp
      have := hbound d hd
      omega
    · have := h.le p hp
      omega
  · unfold tcpBufSize at hk hspace
    omega

theorem run_sized (hs : Sized c.sock.tcp) (es : List Event) : Sized (run step c es).sock.tcp :=
  invariant_foldl (P := fun c : Conn => Sized c.sock.tcp) (fun _ e hs => step_sized hs e) es hs

theorem Ordered.watch (h : Ordered y) (he : e.Packet) : Ordered (watch y e) := by
  by_cases hst : y.1.sock.tcp.state = .synSent
  · exact h.first hst e
  · exact (h.later hst he).1

theorem Opened.ordered (h : Opened c) : Ordered (c, .start c.sock) := by
  have same (s₁ : Sock) (h : Sends s₁ c.sock) (hs : Sized s₁.tcp) {new : List Seg} (ho : c.sock.out = new)
      (hnew : ∀ g ∈ new, g.offers = true → g.ack = s₁.tcp.rcvNxt ∧ g.wnd = s₁.tcp.rcvWnd)
      (hidle : c.sock.tcp.state = .synSent → Idle c.sock.tcp ∧ ∀ g ∈ new, g.offers = false) :
        Ordered (c, .start c.sock) := by
    have hall : ∀ p ∈ (Edges.start c.sock).past, p = 0 := by
      intro p hp
      simp only [Edges.start, ho, List.mem_map, List.mem_filter] at hp
      obtain ⟨g, ⟨hg, hoff⟩, rfl⟩ := hp
      obtain ⟨-, -, -, hnxt, hring⟩ := h.fields
      rw [Seg.edge, (hnew g hg hoff).1, (hnew g hg hoff).2, Pcb.edge, hnxt, Pcb.rcvWnd, Pcb.rcvSpace, Pcb.rcvWnd,
        Pcb.rcvSpace, hring, BitVec.sub_self]
      rfl
    refine ⟨hs.sends h, fun hst => ⟨(hidle hst).1, ?_⟩, ?_, fun p hp => Nat.le_of_eq (hall p hp)⟩
    · simp only [Edges.start, ho, List.map_eq_nil_iff, List.filter_eq_nil_iff]
      exact fun g hg => by simp [(hidle hst).2 g hg]
    · exact pairwise_const hall
  obtain ⟨-, ⟨env, iss, hc⟩ | ⟨env, iss, g, hc⟩⟩ := h
  · have hs : Sized { state := .synSent, iss := iss, sndUna := iss, sndNxt := iss, sndWnd := tcpMss } :=
      ⟨(by decide : 0 < tcpMss), Nat.zero_le _⟩
    have hi : Idle { state := .synSent, iss := iss, sndUna := iss, sndNxt := iss, sndWnd := tcpMss } :=
      ⟨rfl, rfl, rfl, rfl⟩
    obtain ⟨new, ho, hnew⟩ := tcpOutput_outgoing (s := ⟨_, none, false, false, []⟩) hs env.now env.room
    rw [List.append_nil] at ho
    refine same ⟨_, none, false, false, []⟩ (hc ▸ tcpOutput_sends _ _ _) hs (hc ▸ ho)
      (fun g hg _ => ⟨(hnew g hg).ack, (hnew g hg).win⟩) fun _ => ⟨?_, fun g hg => ?_⟩
    · rw [hc]
      exact (tcpOutput_mute (s := ⟨_, none, false, false, []⟩) hs hi _ _).2
    · simp [Seg.offers, (hnew g hg).syn rfl]
  · have hs : Sized { state := .synRcvd, iss := iss, irs := g.seq, rcvNxt := g.seq + 1, sndUna := iss
                      sndNxt := iss, sndWnd := g.wnd, sackOk := g.opts.sackOk
                      mss := if g.opts.mss ≠ 0 ∧ g.opts.mss < tcpMss then g.opts.mss else tcpMss } := by
      refine ⟨?_, Nat.zero_le _⟩
      dsimp only
      split
      · next hm => exact Nat.pos_of_ne_zero hm.1
      · decide
    obtain ⟨new, ho, hnew⟩ := tcpOutput_outgoing (s := ⟨_, none, false, false, []⟩) hs env.now env.room
    rw [List.append_nil] at ho
    refine same ⟨_, none, false, false, []⟩ (hc ▸ tcpOutput_sends _ _ _) hs (hc ▸ ho)
      (fun g hg _ => ⟨(hnew g hg).ack, (hnew g hg).win⟩) fun hst => ?_
    rw [hc, tcpPassiveOpen, tcpOutput_state] at hst
    cases hst

/-- Over every run the advertised right edge moves forward, every call of `tcp_output` ends, and the bytes it
sends are bytes of the buffer within the sender's limit. -/
theorem tcp_windows (h : Opened c) (es : List Event) (hok : ∀ e ∈ es, e.Packet) :
    let y := run watch (c, .start c.sock) es
    y.2.past.Pairwise (· ≥ ·) ∧ Sized y.1.sock.tcp ∧
      (∀ e : Event, e.Packet → y.2.past ≠ [] → ((step y.1 e).sock.tcp.edge - y.1.sock.tcp.edge).toNat < 2 ^ 31) ∧
      ∀ (s : Sock) (now room : Nat), Sized s.tcp →
        Returns (outputWnd s.tcp) now room s (outputLoop (outputWnd s.tcp) now (s.tcp.sndLen + 1) room s) ∧
        ∃ new, (tcpOutput s now room).out = new ++ s.out ∧ ∀ g ∈ new, g.data ≠ [] →
          let off := (g.seq - s.tcp.sndUna).toNat
          g.data = (s.tcp.sndbuf.drop off).take g.data.length ∧ off + g.data.length ≤ s.tcp.sndLen ∧
            off + g.data.length ≤ sendLimit s.tcp := by
  have hord : Ordered (run watch (c, .start c.sock) es) := by
    refine (loop_foldl (I := fun es y => (∀ e ∈ es, Event.Packet e) ∧ Ordered y) ?_ es ⟨hok, h.ordered⟩).2
    intro e es y hy
    exact ⟨fun e' he' => hy.1 e' (List.mem_cons_of_mem e he'), hy.2.watch (hy.1 e (List.mem_cons_self ..))⟩
  refine ⟨hord.sorted, hord.sized, fun e he hpast => ?_, fun s now room hs => ⟨?_, ?_⟩⟩
  · exact (hord.later (fun hst => hpast (hord.idle hst).2) he).2
  · exact (outputLoop_spec _ now room _ hs (Nat.lt_succ_of_le (Nat.sub_le _ _))).1
  obtain ⟨new, ho, hnew⟩ := tcpOutput_outgoing hs now room
  refine ⟨new, ho, fun g hg hdata => ?_⟩
  obtain ⟨off, -, hseq, hle, hbytes⟩ := ((hnew g hg).data hdata).bytes
  have hb := hs.buf
  have hlim := outputWnd_le s.tcp
  have hoff : (g.seq - s.tcp.sndUna).toNat = off := by
    unfold tcpBufSize at hb
    rw [hseq]
    bv_omega
  rw [hoff]
  exact ⟨hbytes, by omega, by omega⟩

def threeBytes : List Event :=
  [handshakeAck 1001, .rx ⟨3, 1, 1, true⟩ ⟨5001, 1001, { ack := true }, 4096, {}, [70, 71, 72]⟩,
    .recv ⟨4, 1, 1, true⟩ 10 false, sendTwo]

theorem tcp_windows_threeBytes :
    let y := run watch (passive, .start passive.sock) threeBytes
    y.2.past = [3, 0] ∧ y.2.past.Pairwise (· ≥ ·) :=
  ⟨by decide +kernel, (tcp_windows passive_opened threeBytes (by decide)).1⟩

end Sic.Tcp
