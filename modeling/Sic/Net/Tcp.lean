import Sic.Lib.Ring
import Sic.Lib.Seq
import Sic.Lib.Table

/-! One connection of `kernel/net/tcp.c`. Received segments come parsed; what
is handed to `ip_send` is kept in `out`, latest first. -/

namespace Sic.Tcp

def tcpBufSize : Nat := 128 * 1024

def tcpMss : Nat := 1460

def tcpMaxSack : Nat := 8

def rtoMinMs : Nat := 300

def rtoMaxMs : Nat := 8000

def maxRetries : Nat := 8

def timeWaitMs : Nat := 1000

def cwndSegs : Nat := 16

def delackMs : Nat := 40

def oooMax : Nat := tcpBufSize

inductive State where
  | closed
  | listen
  | synSent
  | synRcvd
  | established
  | finWait1
  | finWait2
  | closeWait
  | closing
  | lastAck
  | timeWait
deriving DecidableEq, Repr

inductive Errno where
  | econnrefused
  | econnreset
  | econnaborted
  | etimedout
  | epipe
  | eagain
  | enotconn
deriving DecidableEq, Repr

structure Flags where
  fin : Bool := false
  syn : Bool := false
  rst : Bool := false
  psh : Bool := false
  ack : Bool := false
deriving DecidableEq, Repr

structure Opts where
  mss : Nat := 0
  sackOk : Bool := false
  sack : List (U32 × U32) := []
deriving DecidableEq, Repr

structure Seg where
  seq : U32
  ack : U32
  flags : Flags
  wnd : Nat
  opts : Opts := {}
  data : List U8 := []
deriving DecidableEq, Repr

structure Ooo where
  seq : U32
  data : List U8
deriving DecidableEq, Repr

structure Pcb where
  state : State
  iss : U32
  irs : U32 := 0
  sndUna : U32
  sndNxt : U32
  sndWnd : Nat := 0
  sndWl1 : U32 := 0
  sndWl2 : U32 := 0
  rcvNxt : U32 := 0
  mss : Nat := tcpMss
  sndbuf : List U8 := []
  rcvbuf : Ring U8 := ⟨fun _ => 0, 0, 0⟩
  finQueued : Bool := false
  finSent : Bool := false
  finRcvd : Bool := false
  rtoAt : Nat := 0
  rtoMs : Nat := rtoMinMs
  retryAt : Nat := 0
  retries : Nat := 0
  timewaitAt : Nat := 0
  dupAcks : Nat := 0
  sackOk : Bool := false
  ooo : List Ooo := []
  oooBytes : Nat := 0
  oooNewest : U32 := 0
  hasFin : Bool := false
  finSeq : U32 := 0
  sacked : List (U32 × U32) := []
  recover : U32 := 0
  ackPending : Bool := false
  ackSegs : Nat := 0
  rcvWndAdv : Nat := 0
  delackAt : Nat := 0

structure Sock where
  tcp : Pcb
  err : Option Errno := none
  shutRd : Bool := false
  shutWr : Bool := false
  out : List Seg := []

/-- What the rest of the kernel answers during one call: the clock, how many
data segments the device takes before it refuses one, for each of the two
calls of `tcp_output` there can be, and whether the heap has room. -/
structure Env where
  now : Nat
  room : Nat
  room' : Nat := 0
  alloc : Bool := true

def len32 (xs : List U8) : U32 := BitVec.ofNat 32 xs.length

def Ooo.stop (o : Ooo) : U32 := o.seq + len32 o.data

def Pcb.rcvSpace (t : Pcb) : Nat := tcpBufSize - t.rcvbuf.len

def Pcb.sndLen (t : Pcb) : Nat := t.sndbuf.length

def Sock.setTcp (s : Sock) (f : Pcb → Pcb) : Sock := { s with tcp := f s.tcp }

/-! ### Sending -/

def synOptions (t : Pcb) : Opts := { mss := t.mss, sackOk := true }

def sackOptions (t : Pcb) (newest : U32) : Opts :=
  if t.sackOk then
    let isNewest (o : Ooo) : Bool := seqLeq o.seq newest && seqLt newest o.stop
    let blocks := (t.ooo.filter isNewest ++ t.ooo.filter fun o => !isNewest o).take 4
    { sack := blocks.map fun o => (o.seq, o.stop) }
  else {}

def tcpSendSeg (s : Sock) (seq : U32) (flags : Flags) (data : List U8) (withSack : Bool) : Sock :=
  let t := s.tcp
  let wnd := min t.rcvSpace 65535
  let opts : Opts :=
    if flags.syn then synOptions t
    else if withSack then
      sackOptions t (if t.oooNewest ≠ 0 then t.oooNewest else (t.ooo.head?.map Ooo.seq).getD 0)
    else {}
  let t := { t with rcvWndAdv := wnd }
  let t :=
    if flags.ack then { t with ackPending := false, ackSegs := 0, delackAt := 0, oooNewest := 0 } else t
  { s with tcp := t, out := ⟨seq, t.rcvNxt, flags, wnd, opts, data⟩ :: s.out }

def tcpSendAck (s : Sock) : Sock := tcpSendSeg s s.tcp.sndNxt { ack := true } [] true

def tcpAckLater (s : Sock) (now datalen : Nat) : Sock :=
  let s := s.setTcp fun t =>
    { t with ackPending := true, ackSegs := if t.mss ≤ datalen then t.ackSegs + 1 else t.ackSegs }
  if 2 ≤ s.tcp.ackSegs then tcpSendAck s
  else s.setTcp fun t => { t with delackAt := if t.delackAt = 0 then now + delackMs else t.delackAt }

/-- The end of a range the peer has reported around `seq`. An end of 0 reads as
no range. -/
def sackedThrough (t : Pcb) (seq : U32) : Option U32 :=
  match t.sacked.find? fun r => seqLeq r.1 seq && seqLt seq r.2 with
  | none => none
  | some r => if r.2 = 0 then none else some r.2

def nextSackStart (t : Pcb) (seq len : U32) : Option U32 :=
  let best := t.sacked.foldl (fun (best : Option U32) r =>
    if seqGt r.1 seq && seqLt r.1 (seq + len) &&
        (match best with | none => true | some b => seqLt r.1 b) then some r.1 else best) none
  match best with
  | none => none
  | some b => if b = 0 then none else some b

def armRto (now : Nat) (t : Pcb) : Pcb :=
  { t with rtoAt := if t.rtoAt = 0 then now + t.rtoMs else t.rtoAt }

/-- Leave the connection for good. The backlog and the reference counts are
not part of the connection. -/
def tcpSetClosed (s : Sock) (err : Option Errno) : Sock :=
  if s.tcp.state = .closed then s
  else
    { s with tcp := { s.tcp with state := .closed, rtoAt := 0, ooo := [], oooBytes := 0 }
             err := if s.err = none then err else s.err }

def segLen (t : Pcb) (wnd inflight : Nat) : Nat :=
  let n := min (min (t.sndLen - inflight) t.mss) (wnd - inflight)
  match nextSackStart t t.sndNxt (BitVec.ofNat 32 n) with
  | none => n
  | some hole => (hole - t.sndNxt).toNat

def Pcb.inflight (t : Pcb) : Nat := (t.sndNxt - t.sndUna).toNat

def skipTo (t : Pcb) (stop : U32) : U32 :=
  let limit := t.sndUna + len32 t.sndbuf
  if seqLt stop limit then stop else limit

def recovering (t : Pcb) : Bool := t.recover != 0 && seqGeq t.sndNxt t.recover

def sendData (s : Sock) (n : Nat) : Sock :=
  let t := s.tcp
  tcpSendSeg s t.sndNxt { ack := true, psh := t.inflight + n == t.sndLen }
    ((t.sndbuf.drop t.inflight).take n) false

/-- The loop of `tcp_output`. The fuel bounds its turns: each of them moves
`snd_nxt` towards the end of the buffer. -/
def outputLoop (wnd now : Nat) : Nat → Nat → Sock → Sock
  | 0, _, s => s
  | fuel + 1, room, s =>
    let t := s.tcp
    let inflight := t.inflight
    if t.sndLen ≤ inflight ∨ wnd ≤ inflight then s
    else
      match sackedThrough t t.sndNxt with
      | some stop => outputLoop wnd now fuel room (s.setTcp fun t => { t with sndNxt := skipTo t stop })
      | none =>
        let n := segLen t wnd inflight
        if recovering t then s
        else
          let s := sendData s n
          match room with
          | 0 => s.setTcp fun t => { t with retryAt := if t.retryAt = 0 then now + 10 else t.retryAt }
          | room + 1 =>
            outputLoop wnd now fuel room
              (s.setTcp fun t => armRto now { t with sndNxt := t.sndNxt + BitVec.ofNat 32 n })

def outputWnd (t : Pcb) : Nat :=
  let wnd := min t.sndWnd (cwndSegs * t.mss)
  if wnd = 0 ∧ t.sndNxt = t.sndUna ∧ 0 < t.sndLen then 1 else wnd

def outputSyn (s : Sock) (now : Nat) (flags : Flags) : Sock :=
  if s.tcp.sndNxt = s.tcp.iss then
    (tcpSendSeg s s.tcp.iss flags [] false).setTcp fun t => armRto now { t with sndNxt := t.iss + 1 }
  else s

def outputFin (s : Sock) (now : Nat) : Sock :=
  let t := s.tcp
  if t.finQueued ∧ t.finSent = false ∧ t.sndNxt = t.sndUna + len32 t.sndbuf ∧ recovering t = false then
    (tcpSendSeg s t.sndNxt { fin := true, ack := true } [] false).setTcp fun t =>
      armRto now { t with sndNxt := t.sndNxt + 1, finSent := true }
  else s

def tcpOutput (s : Sock) (now room : Nat) : Sock :=
  match s.tcp.state with
  | .synSent => outputSyn s now { syn := true }
  | .synRcvd => outputSyn s now { syn := true, ack := true }
  | .established | .closeWait | .finWait1 | .closing | .lastAck =>
    let s := outputLoop (outputWnd s.tcp) now (s.tcp.sndLen + 1) room s
    let s := outputFin s now
    if recovering s.tcp then s.setTcp fun t => { t with recover := 0 } else s
  | _ => s

def finAcked (t : Pcb) : Bool := t.finSent && t.sndUna == t.sndNxt

def tcpAbort (s : Sock) (err : Option Errno) : Sock :=
  let s :=
    if s.tcp.state ≠ .closed ∧ s.tcp.state ≠ .listen then
      tcpSendSeg s s.tcp.sndNxt { rst := true, ack := true } [] false
    else s
  tcpSetClosed s err

def tcpRstReply (s : Sock) (g : Seg) : Sock :=
  if g.flags.rst then s
  else if g.flags.ack then { s with out := ⟨g.ack, 0, { rst := true }, 0, {}, []⟩ :: s.out }
  else
    let ack := g.seq + len32 g.data + (if g.flags.syn then 1 else 0) + (if g.flags.fin then 1 else 0)
    { s with out := ⟨0, ack, { rst := true, ack := true }, 0, {}, []⟩ :: s.out }

/-! ### The peer's reports -/

/-- Merge `[a, e)` with every recorded range it touches, starting over after
each merge. -/
def absorb : Nat → U32 → U32 → List (U32 × U32) → U32 × U32 × List (U32 × U32)
  | 0, a, e, l => (a, e, l)
  | fuel + 1, a, e, l =>
    match l.findIdx? fun r => seqLeq r.1 e && seqLeq a r.2 with
    | none => (a, e, l)
    | some k =>
      let r := l.getD k (a, e)
      absorb fuel (if seqLt r.1 a then r.1 else a) (if seqGt r.2 e then r.2 else e) (swapRemove l k)

def noteBlock (t : Pcb) (b : U32 × U32) : Pcb :=
  if seqGeq b.1 b.2 || seqLt b.1 t.sndUna || seqGt b.2 t.sndNxt then t
  else
    let (a, e, l) := absorb t.sacked.length b.1 b.2 t.sacked
    { t with sacked := if l.length < tcpMaxSack then l ++ [(a, e)] else l }

def noteSacked (t : Pcb) (o : Opts) : Pcb := (o.sack.take 4).foldl noteBlock t

def trimLoop (una : U32) : Nat → Nat → List (U32 × U32) → List (U32 × U32)
  | 0, _, l => l
  | fuel + 1, k, l =>
    match l[k]? with
    | none => l
    | some r =>
      if seqLeq r.2 una then trimLoop una fuel k (swapRemove l k)
      else trimLoop una fuel (k + 1) (if seqLt r.1 una then l.set k (una, r.2) else l)

def trimSacked (t : Pcb) : Pcb := { t with sacked := trimLoop t.sndUna t.sacked.length 0 t.sacked }

end Sic.Tcp
