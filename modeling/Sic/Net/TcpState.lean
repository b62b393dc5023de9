import Sic.Net.TcpRun

/-! When a connection ends. A socket whose connection is over stays so, a listener never
turns into a connection, and only segments, timers and `close` end a connection. -/

namespace Sic.Tcp

variable {s s' : Sock}

theorem Sends.state (h : Sends s s') : s'.tcp.state = s.tcp.state := by
  obtain ⟨_, _, _, _, _, _, _, _, _, _, _, rfl⟩ := h
  rfl

theorem tcpOutput_state (s : Sock) (now room : Nat) : (tcpOutput s now room).tcp.state = s.tcp.state :=
  (tcpOutput_sends s now room).state

theorem tcpSetClosed_state (s : Sock) (err : Option Errno) : (tcpSetClosed s err).tcp.state = .closed := by
  unfold tcpSetClosed
  split
  · assumption
  · rfl

theorem tcpAbort_state (s : Sock) (err : Option Errno) : (tcpAbort s err).tcp.state = .closed :=
  tcpSetClosed_state ..

theorem tcpRstReply_tcp (s : Sock) (g : Seg) : (tcpRstReply s g).tcp = s.tcp := by
  unfold tcpRstReply
  dsimp only
  split
  · rfl
  · split <;> rfl

end Sic.Tcp
