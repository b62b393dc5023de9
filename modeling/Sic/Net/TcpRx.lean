import Sic.Net.Tcp

/-! The receiving half of `kernel/net/tcp.c`, the timers and the socket layer's
entry points. -/

namespace Sic.Tcp

def oooTrim (rest : List Ooo) (seq : U32) (data : List U8) : Ooo :=
  match rest with
  | [] => ⟨seq, data⟩
  | o :: _ => ⟨seq, if seqLt o.seq (seq + len32 data) then data.take (o.seq - seq).toNat else data⟩

/-- Where `ooo_insert` puts a segment: the queue before it, the segment trimmed
on both sides, and the queue behind it. Nothing is left of a segment the queue
covers. -/
def oooPlace : List Ooo → U32 → List U8 → List Ooo × Ooo × List Ooo
  | [], seq, data => ([], oooTrim [] seq data, [])
  | o :: rest, seq, data =>
    if seqLt o.stop (seq + 1) then
      let (before, c, behind) := oooPlace rest seq data
      (o :: before, c, behind)
    else if seqLeq o.seq seq then
      let covered := (o.stop - seq).toNat
      if data.length ≤ covered then ([], ⟨seq, []⟩, o :: rest)
      else ([o], oooTrim rest (seq + BitVec.ofNat 32 covered) (data.drop covered), rest)
    else ([], oooTrim (o :: rest) seq data, o :: rest)

def oooInsert (t : Pcb) (seq : U32) (data : List U8) (alloc : Bool) : Pcb :=
  let (before, o, rest) := oooPlace t.ooo seq data
  if o.data = [] ∨ oooMax < t.oooBytes + o.data.length ∨ alloc = false then t
  else { t with ooo := before ++ o :: rest, oooBytes := t.oooBytes + o.data.length }

def rcvAppend (t : Pcb) (data : List U8) : Pcb × Nat :=
  let n := min data.length t.rcvSpace
  ({ t with rcvbuf := t.rcvbuf.push tcpBufSize data, rcvNxt := t.rcvNxt + BitVec.ofNat 32 n }, n)

def tcpCheckFin (t : Pcb) (now : Nat) : Pcb × Bool :=
  if t.hasFin ∧ t.rcvNxt = t.finSeq ∧ t.finRcvd = false then
    let t := { t with finRcvd := true, rcvNxt := t.rcvNxt + 1 }
    match t.state with
    | .synRcvd | .established => ({ t with state := .closeWait }, true)
    | .finWait1 =>
      if finAcked t then ({ t with state := .timeWait, timewaitAt := now + timeWaitMs }, true)
      else ({ t with state := .closing }, true)
    | .finWait2 => ({ t with state := .timeWait, timewaitAt := now + timeWaitMs }, true)
    | _ => (t, true)
  else (t, false)

def drainLoop : List Ooo → Pcb → Pcb
  | [], t => { t with ooo := [] }
  | o :: rest, t =>
    if seqLeq o.seq t.rcvNxt then
      let skip := (t.rcvNxt - o.seq).toNat
      if skip < o.data.length then
        let (t, n) := rcvAppend t (o.data.drop skip)
        if n < o.data.length - skip then
          let consumed := skip + n
          { t with ooo := ⟨o.seq + BitVec.ofNat 32 consumed, o.data.drop consumed⟩ :: rest
                   oooBytes := t.oooBytes - consumed }
        else drainLoop rest { t with oooBytes := t.oooBytes - o.data.length }
      else drainLoop rest { t with oooBytes := t.oooBytes - o.data.length }
    else { t with ooo := o :: rest }

def oooDrain (t : Pcb) (now : Nat) : Pcb := (tcpCheckFin (drainLoop t.ooo t) now).1

/-! ### Segments -/

def rxSynSent (env : Env) (s : Sock) (g : Seg) : Sock :=
  let t := s.tcp
  if g.flags.ack && (seqLeq g.ack t.iss || seqGt g.ack t.sndNxt) then tcpRstReply s g
  else if g.flags.rst then if g.flags.ack then tcpSetClosed s (some .econnrefused) else s
  else if !g.flags.syn then s
  else
    let s := s.setTcp fun t =>
      { t with irs := g.seq, rcvNxt := g.seq + 1, sackOk := g.opts.sackOk
               mss := if g.opts.mss ≠ 0 ∧ g.opts.mss < t.mss then g.opts.mss else t.mss }
    if g.flags.ack then
      tcpSendAck (s.setTcp fun t =>
        { t with sndUna := g.ack, sndWnd := g.wnd, sndWl1 := g.seq, sndWl2 := g.ack, rtoAt := 0
                 rtoMs := rtoMinMs, retries := 0, state := .established })
    else tcpOutput (s.setTcp fun t => { t with state := .synRcvd, sndNxt := t.iss }) env.now env.room

def inWindow (t : Pcb) (g : Seg) : Bool :=
  let wnd := t.rcvSpace
  let edge := t.rcvNxt + BitVec.ofNat 32 wnd
  if g.data = [] then
    if wnd = 0 then g.seq == t.rcvNxt
    else (seqGeq g.seq t.rcvNxt && seqLt g.seq edge) || g.seq == t.rcvNxt
  else decide (0 < wnd) && seqLt g.seq edge && seqGeq (g.seq + len32 g.data - 1) t.rcvNxt

def ackDrop (t : Pcb) (g : Seg) : Pcb :=
  let acked := (g.ack - t.sndUna).toNat
  { t with sndbuf := t.sndbuf.drop (min acked t.sndLen), sndUna := g.ack
           recover := if t.recover ≠ 0 ∧ seqGeq g.ack t.recover then 0 else t.recover
           sndNxt := if seqLt t.sndNxt g.ack then g.ack else t.sndNxt }

def ackAdvance (t : Pcb) (g : Seg) (now : Nat) : Pcb :=
  let t := noteSacked (trimSacked (ackDrop t g)) g.opts
  { t with retries := 0, rtoMs := rtoMinMs, dupAcks := 0
           rtoAt := if t.sndUna = t.sndNxt then 0 else now + rtoMinMs }

def ackDuplicate (env : Env) (s : Sock) (g : Seg) : Sock :=
  let before := s.tcp.sacked.length
  let s := s.setTcp fun t => let t := noteSacked t g.opts; { t with dupAcks := t.dupAcks + 1 }
  if s.tcp.dupAcks = 3 then
    tcpOutput (s.setTcp fun t => { t with recover := t.sndNxt, sndNxt := t.sndUna, finSent := false })
      env.now env.room
  else if 3 < s.tcp.dupAcks ∧ s.tcp.sacked.length ≠ before then tcpOutput s env.now env.room
  else s

/-- ACK processing; the flag says whether the segment is looked at further. -/
def rxAck (env : Env) (s : Sock) (g : Seg) : Sock × Bool :=
  let t := s.tcp
  if t.state = .synRcvd then
    if seqLt g.ack t.sndUna || seqGt g.ack t.sndNxt then (tcpRstReply s g, false)
    else
      (s.setTcp fun t =>
        { t with sndUna := g.ack, sndWnd := g.wnd, sndWl1 := g.seq, sndWl2 := g.ack, rtoAt := 0
                 rtoMs := rtoMinMs, retries := 0, state := .established }, true)
  else if seqGt g.ack t.sndNxt then (tcpSendAck s, false)
  else if seqGt g.ack t.sndUna then (s.setTcp fun t => ackAdvance t g env.now, true)
  else if g.ack = t.sndUna ∧ g.data = [] ∧ t.sndNxt ≠ t.sndUna ∧ g.wnd = t.sndWnd then
    (ackDuplicate env s g, true)
  else (s, true)

def windowUpdate (t : Pcb) (g : Seg) : Pcb :=
  if seqLt t.sndWl1 g.seq || (t.sndWl1 == g.seq && seqLeq t.sndWl2 g.ack) then
    { t with sndWnd := g.wnd, sndWl1 := g.seq, sndWl2 := g.ack }
  else t

def rxClosing (now : Nat) (s : Sock) : Sock × Bool :=
  match s.tcp.state with
  | .finWait1 =>
    (if finAcked s.tcp then s.setTcp fun t => { t with state := .finWait2 } else s, true)
  | .closing =>
    (if finAcked s.tcp then
        s.setTcp fun t => { t with state := .timeWait, timewaitAt := now + timeWaitMs }
      else s, true)
  | .lastAck => if finAcked s.tcp then (tcpSetClosed s none, false) else (s, true)
  | .timeWait => (s.setTcp fun t => { t with timewaitAt := now + timeWaitMs }, true)
  | _ => (s, true)

inductive AckKind where
  | no
  | now
  | delayed (datalen : Nat)
deriving DecidableEq

def rxInOrder (env : Env) (t : Pcb) (data : List U8) (old : Bool) : Pcb × AckKind :=
  let seq := t.rcvNxt
  let (t, n) := rcvAppend t data
  let t := if n < data.length then oooInsert t (seq + BitVec.ofNat 32 n) (data.drop n) env.alloc else t
  let t := oooDrain t env.now
  (t, if t.ooo ≠ [] ∨ old = true ∨ n < data.length then .now else .delayed data.length)

def rxHole (env : Env) (t : Pcb) (seq : U32) (data : List U8) (wnd : Nat) : Pcb :=
  let edge := t.rcvNxt + BitVec.ofNat 32 wnd
  if seqLt seq edge then
    let n := if seqGt (seq + len32 data) edge then (edge - seq).toNat else data.length
    { oooInsert t seq (data.take n) env.alloc with oooNewest := seq }
  else t

def rxPayload (env : Env) (s : Sock) (seq : U32) (data : List U8) (old : Bool) (wnd : Nat) :
    Sock × AckKind :=
  if seq = s.tcp.rcvNxt then
    if s.shutRd then (s.setTcp fun t => { t with rcvNxt := t.rcvNxt + len32 data }, .now)
    else
      let (t, kind) := rxInOrder env s.tcp data old
      ({ s with tcp := t }, kind)
  else if s.shutRd then (s, .now)
  else ({ s with tcp := rxHole env s.tcp seq data wnd }, .now)

/-- In-order bytes go to the ring, the others wait in the reassembly queue.
`wnd` is the window the segment was checked against. -/
def rxData (env : Env) (s : Sock) (g : Seg) (wnd : Nat) : Sock × AckKind :=
  let t := s.tcp
  if g.data = [] then (s, .no)
  else if t.state = .established ∨ t.state = .finWait1 ∨ t.state = .finWait2 then
    if seqLt g.seq t.rcvNxt then
      let skip := (t.rcvNxt - g.seq).toNat
      rxPayload env s (g.seq + BitVec.ofNat 32 skip) (g.data.drop skip) true wnd
    else rxPayload env s g.seq g.data false wnd
  else (s, .now)

def rxFin (env : Env) (s : Sock) (g : Seg) (kind : AckKind) : Sock :=
  let s := if g.flags.fin then s.setTcp fun t => { t with hasFin := true, finSeq := g.seq + len32 g.data }
    else s
  let (t, fin) := tcpCheckFin s.tcp env.now
  let s := { s with tcp := t }
  match if fin then .now else kind with
  | .now => tcpSendAck s
  | .delayed datalen => tcpAckLater s env.now datalen
  | .no => s

def rxSegment (env : Env) (s : Sock) (g : Seg) : Sock :=
  if inWindow s.tcp g = false then if g.flags.rst then s else tcpSendAck s
  else if g.flags.rst then
    tcpSetClosed s (some (if s.tcp.state = .synRcvd then .econnrefused else .econnreset))
  else if g.flags.syn then tcpAbort s (some .econnreset)
  else if !g.flags.ack then s
  else
    let wnd := s.tcp.rcvSpace
    match rxAck env s g with
    | (s, false) => s
    | (s, true) =>
      match rxClosing env.now (s.setTcp fun t => windowUpdate t g) with
      | (s, false) => s
      | (s, true) =>
        let (s, kind) := rxData env s g wnd
        tcpOutput (rxFin env s g kind) env.now env.room'

/-- A segment `tcp_lookup` has found this connection for: not one that is
closed, and a listening socket is not a connection. -/
def tcpRx (env : Env) (s : Sock) (g : Seg) : Sock :=
  match s.tcp.state with
  | .closed | .listen => s
  | .synSent => rxSynSent env s g
  | _ => rxSegment env s g

/-! ### Timers and the socket layer -/

def rtoRewind (t : Pcb) : Pcb :=
  if t.state = .synSent ∨ t.state = .synRcvd then
    { t with rtoMs := min (t.rtoMs * 2) rtoMaxMs, rtoAt := 0, sndNxt := t.iss }
  else
    { t with rtoMs := min (t.rtoMs * 2) rtoMaxMs, rtoAt := 0
             sndNxt := t.sndUna, finSent := false, recover := 0 }

def rtoExpire (s : Sock) (now room : Nat) : Sock :=
  let s := s.setTcp fun t => { t with retries := t.retries + 1 }
  if maxRetries < s.tcp.retries then tcpAbort s (some .etimedout)
  else
    (tcpOutput (s.setTcp rtoRewind) now room).setTcp fun t =>
      { t with rtoAt := if t.rtoAt = 0 then now + t.rtoMs else t.rtoAt }

def tcpTimer (env : Env) (s : Sock) : Sock :=
  let now := env.now
  if s.tcp.state = .timeWait ∧ s.tcp.timewaitAt ≤ now then tcpSetClosed s none
  else
    let s := if s.tcp.ackPending ∧ s.tcp.delackAt ≠ 0 ∧ s.tcp.delackAt ≤ now then tcpSendAck s else s
    let s :=
      if s.tcp.retryAt ≠ 0 ∧ s.tcp.retryAt ≤ now then
        tcpOutput (s.setTcp fun t => { t with retryAt := 0 }) now env.room
      else s
    if s.tcp.rtoAt ≠ 0 ∧ s.tcp.rtoAt ≤ now then rtoExpire s now env.room' else s

def tcpConnect (env : Env) (iss : U32) : Sock :=
  tcpOutput { tcp := { state := .synSent, iss := iss, sndUna := iss, sndNxt := iss, sndWnd := tcpMss } }
    env.now env.room

def tcpPassiveOpen (env : Env) (iss : U32) (g : Seg) : Sock :=
  tcpOutput
    { tcp := { state := .synRcvd, iss := iss, irs := g.seq, rcvNxt := g.seq + 1, sndUna := iss
               sndNxt := iss, sndWnd := g.wnd, sackOk := g.opts.sackOk
               mss := if g.opts.mss ≠ 0 ∧ g.opts.mss < tcpMss then g.opts.mss else tcpMss } }
    env.now env.room

def tcpSend (env : Env) (s : Sock) (buf : List U8) : Sock × Except Errno Nat :=
  let t := s.tcp
  if s.shutWr ∨ t.finQueued then (s, .error .epipe)
  else if t.state = .synSent ∨ t.state = .synRcvd then (s, .error .eagain)
  else if t.state ≠ .established ∧ t.state ≠ .closeWait then (s, .error (s.err.getD .epipe))
  else
    let space := tcpBufSize - t.sndLen
    if space = 0 then (s, .error .eagain)
    else
      let n := min buf.length space
      (tcpOutput (s.setTcp fun t => { t with sndbuf := t.sndbuf ++ buf.take n }) env.now env.room, .ok n)

def recvEmpty (s : Sock) (peek : Bool) : Sock × Except Errno (List U8) :=
  let t := s.tcp
  if t.finRcvd then (s, .ok [])
  else
    match s.err with
    | some e =>
      if t.state = .closed then (if peek then s else { s with err := none }, .error e)
      else if s.shutRd then (s, .ok []) else (s, .error .eagain)
    | none => if t.state = .closed ∨ s.shutRd then (s, .ok []) else (s, .error .eagain)

def tcpRecv (env : Env) (s : Sock) (len : Nat) (peek : Bool) : Sock × Except Errno (List U8) :=
  let t := s.tcp
  let t :=
    if t.rcvbuf.len = 0 ∧ (∃ o ∈ t.ooo.head?, seqLeq o.seq t.rcvNxt = true) then
      (tcpCheckFin (oooDrain t env.now) env.now).1
    else t
  let s := { s with tcp := t }
  if t.rcvbuf.len = 0 then recvEmpty s peek
  else
    let n := min len t.rcvbuf.len
    let bytes := t.rcvbuf.read tcpBufSize n
    if peek then (s, .ok bytes)
    else
      let t := oooDrain { t with rcvbuf := t.rcvbuf.pop tcpBufSize n } env.now
      let (t, finAccepted) := tcpCheckFin t env.now
      let s := { s with tcp := t }
      let curWnd := min t.rcvSpace 65535
      let opened := curWnd - t.rcvWndAdv
      if t.state ≠ .closed ∧
          (finAccepted = true ∨ (t.rcvWndAdv < curWnd ∧ (t.mss ≤ opened ∨ curWnd / 2 ≤ opened))) then
        (tcpSendAck s, .ok bytes)
      else (s, .ok bytes)

def tcpShutdownWr (env : Env) (s : Sock) : Sock :=
  let queueFin (state : State) : Sock :=
    tcpOutput (s.setTcp fun t => { t with state := state, finQueued := true }) env.now env.room
  if s.tcp.finQueued then s
  else
    match s.tcp.state with
    | .established | .synRcvd => queueFin .finWait1
    | .closeWait => queueFin .lastAck
    | _ => s

def tcpClose (env : Env) (s : Sock) : Sock :=
  match s.tcp.state with
  | .synSent => tcpSetClosed s none
  | .synRcvd | .established | .closeWait =>
    if s.tcp.rcvbuf.len ≠ 0 then tcpAbort s none else tcpShutdownWr env s
  | _ => s

end Sic.Tcp
