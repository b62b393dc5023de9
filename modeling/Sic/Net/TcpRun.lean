import Sic.Lib.Run
import Sic.Net.TcpRx

/-! A connection as a machine: the events that reach it, and what sending a
segment can change. -/

namespace Sic.Tcp

inductive Event where
  | rx (env : Env) (g : Seg)
  | timer (env : Env)
  | send (env : Env) (buf : List U8)
  | recv (env : Env) (len : Nat) (peek : Bool)
  | shutdown (env : Env) (rd wr : Bool)
  | close (env : Env)

structure Conn where
  sock : Sock
  app : List U8 := []
  got : List U8 := []

def sysShutdown (env : Env) (s : Sock) (rd wr : Bool) : Sock :=
  let s := if rd then { s with shutRd := true } else s
  if wr then tcpShutdownWr env { s with shutWr := true } else s

def step (c : Conn) : Event → Conn
  | .rx env g => { c with sock := tcpRx env c.sock g }
  | .timer env => { c with sock := tcpTimer env c.sock }
  | .send env buf =>
    match tcpSend env c.sock buf with
    | (s, .ok n) => { c with sock := s, app := c.app ++ buf.take n }
    | (s, .error _) => { c with sock := s }
  | .recv env len peek =>
    match tcpRecv env c.sock len peek with
    | (s, .ok bytes) => { c with sock := s, got := if peek then c.got else c.got ++ bytes }
    | (s, .error _) => { c with sock := s }
  | .shutdown env rd wr => { c with sock := sysShutdown env c.sock rd wr }
  | .close env => { c with sock := tcpClose env c.sock }

def Opened (c : Conn) : Prop :=
  c.app = [] ∧ ((∃ env iss, c.sock = tcpConnect env iss) ∨
    ∃ env iss g, c.sock = tcpPassiveOpen env iss g)

def passive : Conn where
  sock := tcpPassiveOpen ⟨1, 1, 1, true⟩ 1000 ⟨5000, 0, { syn := true }, 4096, {}, []⟩

theorem passive_opened : Opened passive :=
  ⟨rfl, .inr ⟨⟨1, 1, 1, true⟩, 1000, ⟨5000, 0, { syn := true }, 4096, {}, []⟩, rfl⟩⟩

def handshakeAck (ack : U32) : Event := .rx ⟨2, 1, 1, true⟩ ⟨5001, ack, { ack := true }, 4096, {}, []⟩

def Sends (s s' : Sock) : Prop :=
  ∃ (nxt : U32) (adv : Nat) (pending : Bool) (segs delack : Nat) (newest : U32) (rto retry : Nat)
    (fin : Bool) (rec : U32) (out : List Seg),
    s' = { s with
      tcp := { s.tcp with sndNxt := nxt, rcvWndAdv := adv, ackPending := pending, ackSegs := segs
                          delackAt := delack, oooNewest := newest, rtoAt := rto, retryAt := retry
                          finSent := fin, recover := rec }
      out := out }

theorem Sends.refl (s : Sock) : Sends s s :=
  ⟨_, _, _, _, _, _, _, _, _, _, _, rfl⟩

theorem Sends.trans {s s' s'' : Sock} (h : Sends s s') (h' : Sends s' s'') : Sends s s'' := by
  obtain ⟨_, _, _, _, _, _, _, _, _, _, _, rfl⟩ := h
  obtain ⟨_, _, _, _, _, _, _, _, _, _, _, rfl⟩ := h'
  exact ⟨_, _, _, _, _, _, _, _, _, _, _, rfl⟩

theorem tcpSendSeg_sends (s : Sock) (seq : U32) (flags : Flags) (data : List U8) (w : Bool) :
    Sends s (tcpSendSeg s seq flags data w) := by
  unfold tcpSendSeg
  cases flags.ack <;> exact ⟨_, _, _, _, _, _, _, _, _, _, _, rfl⟩

theorem outputLoop_sends (wnd now fuel room : Nat) (s : Sock) :
    Sends s (outputLoop wnd now fuel room s) := by
  induction fuel generalizing room s with
  | zero => exact .refl s
  | succ fuel ih =>
    unfold outputLoop
    dsimp only
    split
    · exact .refl s
    split
    · exact Sends.trans ⟨_, _, _, _, _, _, _, _, _, _, _, rfl⟩ (ih _ _)
    split
    · exact .refl s
    have hseg : Sends s (sendData s (segLen s.tcp wnd s.tcp.inflight)) :=
      tcpSendSeg_sends _ _ _ _ _
    split
    · exact hseg.trans ⟨_, _, _, _, _, _, _, _, _, _, _, rfl⟩
    · exact hseg.trans (Sends.trans ⟨_, _, _, _, _, _, _, _, _, _, _, rfl⟩ (ih _ _))

theorem outputSyn_sends (s : Sock) (now : Nat) (flags : Flags) : Sends s (outputSyn s now flags) := by
  unfold outputSyn
  split
  · exact (tcpSendSeg_sends _ _ _ _ _).trans ⟨_, _, _, _, _, _, _, _, _, _, _, rfl⟩
  · exact .refl s

theorem outputFin_sends (s : Sock) (now : Nat) : Sends s (outputFin s now) := by
  unfold outputFin
  dsimp only
  split
  · exact (tcpSendSeg_sends _ _ _ _ _).trans ⟨_, _, _, _, _, _, _, _, _, _, _, rfl⟩
  · exact .refl s

theorem tcpOutput_sends (s : Sock) (now room : Nat) : Sends s (tcpOutput s now room) := by
  have hdata : Sends s (
      let s := outputLoop (outputWnd s.tcp) now (s.tcp.sndLen + 1) room s
      let s := outputFin s now
      if recovering s.tcp then s.setTcp fun t => { t with recover := 0 } else s) := by
    dsimp only
    have h := (outputLoop_sends (outputWnd s.tcp) now (s.tcp.sndLen + 1) room s).trans
      (outputFin_sends _ now)
    split
    · exact h.trans ⟨_, _, _, _, _, _, _, _, _, _, _, rfl⟩
    · exact h
  unfold tcpOutput
  split
  · exact outputSyn_sends _ _ _
  · exact outputSyn_sends _ _ _
  all_goals first | exact hdata | exact .refl s

theorem recvEmpty_tcp (s : Sock) (peek : Bool) :
    (recvEmpty s peek).1.tcp = s.tcp ∧ (recvEmpty s peek).1.shutRd = s.shutRd := by
  unfold recvEmpty
  dsimp only
  split
  · exact ⟨rfl, rfl⟩
  split
  · split
    · split <;> exact ⟨rfl, rfl⟩
    · split <;> exact ⟨rfl, rfl⟩
  · split <;> exact ⟨rfl, rfl⟩

end Sic.Tcp
