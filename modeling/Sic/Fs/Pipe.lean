import Sic.Lib.Ring
import Sic.Lib.Run
import Sic.Lib.Word

/-! The pipes of `kernel/fs/pipe.c`: a ring under a lock, two files, and any number of calls
that are under way. A call holds the address of its pipe and no reference; an address is used
again once the pipe at it has been freed. -/

namespace Sic.Pipes

def pipeSize : Nat := 64 * 1024

/-- `id` numbers the pipes as they are made. What has been freed stays in memory until the
address is used again. -/
structure Pipe where
  buf : Nat → U8 := fun _ => 0
  head : Nat := 0
  tail : Nat := 0
  count : Nat := 0
  readers : Int := 0
  writers : Int := 0
  id : Nat := 0
  freed : Bool := true

structure Mask where
  pollIn : Bool := false
  pollOut : Bool := false
  err : Bool := false
  hup : Bool := false
deriving DecidableEq, Repr

inductive Answer where
  | bytes (xs : List U8)
  | eof
  | wrote (n : Nat)
  | eagain
  | eintr
  | epipe
  | polled (m : Mask)
deriving DecidableEq, Repr

/-! ### Under the lock -/

def readLoop (buf : Nat → U8) : Nat → Nat → List U8 × Nat
  | 0, tail => ([], tail)
  | n + 1, tail =>
    let (xs, tail') := readLoop buf n ((tail + 1) % pipeSize)
    (buf tail :: xs, tail')

def writeLoop : List U8 → (Nat → U8) → Nat → (Nat → U8) × Nat
  | [], buf, head => (buf, head)
  | x :: xs, buf, head => writeLoop xs (Function.update buf head x) ((head + 1) % pipeSize)

def pipeRead (p : Pipe) (len : Nat) (nonblock : Bool) : Pipe × Option Answer :=
  if 0 < p.count then
    let n := if len < p.count then len else p.count
    let (xs, tail) := readLoop p.buf n p.tail
    ({ p with tail := tail, count := p.count - n }, some (.bytes xs))
  else if p.writers = 0 then (p, some .eof)
  else if nonblock then (p, some .eagain)
  else (p, none)

inductive Next where
  | ret (a : Answer)
  | round (done : Nat)
  | sleep
deriving DecidableEq, Repr

def wroteOr (done : Nat) (a : Answer) : Answer := if done ≠ 0 then .wrote done else a

def pipeChunk (p : Pipe) (buf : List U8) (done : Nat) : List U8 :=
  let space := pipeSize - p.count
  (buf.drop done).take (if buf.length - done < space then buf.length - done else space)

def pipeWrite (p : Pipe) (buf : List U8) (done : Nat) (nonblock : Bool) : Pipe × Next :=
  if p.readers = 0 then (p, .ret (wroteOr done .epipe))
  else if 0 < pipeSize - p.count then
    let xs := pipeChunk p buf done
    let (data, head) := writeLoop xs p.buf p.head
    ({ p with buf := data, head := head, count := p.count + xs.length }, .round (done + xs.length))
  else if nonblock then (p, .ret (wroteOr done .eagain))
  else (p, .sleep)

def pipeRelease (p : Pipe) (rdonly : Bool) : Pipe :=
  let p := if rdonly then { p with readers := p.readers - 1 } else { p with writers := p.writers - 1 }
  { p with freed := p.freed || (p.readers == 0 && p.writers == 0) }

def pipePoll (p : Pipe) (rdonly : Bool) : Mask :=
  if rdonly then { pollIn := 0 < p.count, hup := p.writers == 0 }
  else { pollOut := p.count < pipeSize, err := p.readers == 0 }

/-! ### Calls -/

structure File where
  pipe : Nat
  rdonly : Bool
  nonblock : Bool := false
  refs : Nat := 1
deriving DecidableEq, Repr

/-- Which file a call is for, the address of the pipe, and which pipe that was. -/
structure On where
  file : Nat
  pipe : Nat
  id : Nat
deriving DecidableEq, Repr

inductive Call where
  | idle
  | read (on : On) (len : Nat) (asleep : Bool)
  | write (on : On) (buf : List U8) (done : Nat) (asleep : Bool)
deriving DecidableEq, Repr

def Call.on? : Call → Option On
  | .idle => none
  | .read on .. => some on
  | .write on .. => some on

/-- `pipes` are by address; `put` and `got` are all bytes that the writes to a pipe have put
in and that the reads from it have returned. -/
structure Sys where
  pipes : Nat → Pipe := fun _ => {}
  files : List File := []
  calls : List Call := []
  made : Nat := 0
  put : Nat → List U8 := fun _ => []
  got : Nat → List U8 := fun _ => []

def Sys.file (s : Sys) (f : Nat) : File := s.files.getD f ⟨0, true, false, 0⟩

def Sys.modifyFile (s : Sys) (f : Nat) (g : File → File) : Sys := { s with files := s.files.modify f g }

def Sys.setPipe (s : Sys) (a : Nat) (p : Pipe) : Sys := { s with pipes := Function.update s.pipes a p }

def Sys.setCall (s : Sys) (t : Nat) (c : Call) : Sys := { s with calls := s.calls.set t c }

def Sys.take (s : Sys) (id : Nat) (xs : List U8) : Sys :=
  { s with got := Function.update s.got id (s.got id ++ xs) }

def Sys.give (s : Sys) (id : Nat) (xs : List U8) : Sys :=
  { s with put := Function.update s.put id (s.put id ++ xs) }

def pipeCreate (s : Sys) (a : Nat) : Sys :=
  { s.setPipe a { readers := 1, writers := 1, id := s.made, freed := false } with
    files := s.files ++ [⟨a, true, false, 1⟩, ⟨a, false, false, 1⟩], made := s.made + 1 }

def Answer.data : Answer → List U8
  | .bytes xs => xs
  | _ => []

def readTurn (s : Sys) (t : Nat) (on : On) (len : Nat) : Sys × Option Answer :=
  match pipeRead (s.pipes on.pipe) len (s.file on.file).nonblock with
  | (p, none) => ((s.setPipe on.pipe p).setCall t (.read on len true), none)
  | (p, some a) => (((s.setPipe on.pipe p).take on.id a.data).setCall t .idle, some a)

def writeTurn (s : Sys) (t : Nat) (on : On) (buf : List U8) (done : Nat) : Sys × Option Answer :=
  if done < buf.length then
    match pipeWrite (s.pipes on.pipe) buf done (s.file on.file).nonblock with
    | (p, .ret a) => ((s.setPipe on.pipe p).setCall t .idle, some a)
    | (p, .round done') =>
      (((s.setPipe on.pipe p).give on.id (pipeChunk (s.pipes on.pipe) buf done)).setCall t
        (.write on buf done' false), none)
    | (p, .sleep) => ((s.setPipe on.pipe p).setCall t (.write on buf done true), none)
  else (s.setCall t .idle, some (.wrote done))

/-- The next thing that a call does: a round under the lock, or a look at the condition it
sleeps for. `signal` says that a signal is pending. -/
def turn (s : Sys) (t : Nat) (signal : Bool) : Sys × Option Answer :=
  match s.calls.getD t .idle with
  | .idle => (s, none)
  | .read on len false => readTurn s t on len
  | .read on len true =>
    if 0 < (s.pipes on.pipe).count ∨ (s.pipes on.pipe).writers = 0 then (s.setCall t (.read on len false), none)
    else if signal then (s.setCall t .idle, some .eintr)
    else (s, none)
  | .write on buf done false => writeTurn s t on buf done
  | .write on buf done true =>
    if (s.pipes on.pipe).count < pipeSize ∨ (s.pipes on.pipe).readers = 0 then
      (s.setCall t (.write on buf done false), none)
    else if signal then (s.setCall t .idle, some (wroteOr done .eintr))
    else (s, none)

def fileClose (s : Sys) (f : Nat) : Sys :=
  let s := s.modifyFile f fun x => { x with refs := x.refs - 1 }
  let x := s.file f
  if x.refs = 0 then s.setPipe x.pipe (pipeRelease (s.pipes x.pipe) x.rdonly) else s

inductive Event where
  | task
  | pipe (a : Nat)
  | dup (f : Nat)
  | setNonblock (f : Nat) (on : Bool)
  | read (t f len : Nat)
  | write (t f : Nat) (buf : List U8)
  | poll (f : Nat)
  | turn (t : Nat) (signal : Bool)
  | close (f : Nat)
deriving DecidableEq, Repr

def Sys.on (s : Sys) (f : Nat) : On := ⟨f, (s.file f).pipe, (s.pipes (s.file f).pipe).id⟩

/-- Calls start on open files, and an address is free when nothing or a freed pipe is at it. -/
def act (s : Sys) : Event → Sys × Option Answer
  | .task => ({ s with calls := s.calls ++ [.idle] }, none)
  | .pipe a => (if (s.pipes a).freed then pipeCreate s a else s, none)
  | .dup f =>
    (if 0 < (s.file f).refs then s.modifyFile f fun x => { x with refs := x.refs + 1 } else s, none)
  | .setNonblock f on => (s.modifyFile f fun x => { x with nonblock := on }, none)
  | .read t f len =>
    if s.calls[t]? = some .idle ∧ 0 < (s.file f).refs then
      if len = 0 then (s, some (.bytes [])) else (s.setCall t (.read (s.on f) len false), none)
    else (s, none)
  | .write t f buf =>
    if s.calls[t]? = some .idle ∧ 0 < (s.file f).refs then (s.setCall t (.write (s.on f) buf 0 false), none)
    else (s, none)
  | .poll f =>
    (s, if 0 < (s.file f).refs then some
      (.polled (pipePoll (s.pipes (s.file f).pipe) (s.file f).rdonly)) else none)
  | .turn t signal => turn s t signal
  | .close f => (if 0 < (s.file f).refs then fileClose s f else s, none)

def step (s : Sys) (e : Event) : Sys := (act s e).1

def answer (s : Sys) (e : Event) : Option Answer := (act s e).2

end Sic.Pipes
