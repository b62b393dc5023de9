import Sic.Lib.Run
import Sic.Lib.Table
import Sic.Lib.Word

/-! The epoll instances of `kernel/proc/syscall.c` over a descriptor table: what they watch,
how readiness is asked for, and waiting. A file is known by its address, and an address is
used again once its file has been freed. -/

namespace Sic.Epoll

def maxFds : Nat := 64

def pollMax : Nat := 64

def pollIn : U32 := 0x001
def pollErr : U32 := 0x008
def pollHup : U32 := 0x010
def pollNval : BitVec 16 := 0x020
def epollOneshot : U32 := 0x40000000

/-- `f` is the address that the item remembers, and `id` which file that was. -/
structure Item where
  fd : Nat
  f : Nat
  events : U32
  data : U64
  armed : Bool
  id : Nat
deriving DecidableEq, Repr

structure Instance where
  items : List Item := []
  cap : Nat := 0
deriving DecidableEq, Repr

/-- A file that is no epoll instance has none. `id` numbers the files as they are opened. -/
structure File where
  epoll : Option Instance := none
  refs : Nat := 0
  id : Nat := 0
  freed : Bool := true
deriving DecidableEq, Repr

structure Slot where
  fd : Nat
  events : BitVec 16
  map : Nat
  revents : BitVec 16 := 0
deriving DecidableEq, Repr

/-- A call of `epoll_wait` in `do_poll`: `ep` is the address of its instance, and `pos` the
descriptor it looks at next. -/
structure Wait where
  ep : Nat
  max : Nat
  slots : List Slot
  pos : Nat := 0
deriving DecidableEq, Repr

structure Sys where
  file : Nat → File := fun _ => {}
  top : Nat := 0
  made : Nat := 0
  fds : Nat → Option Nat := fun _ => none
  waits : List (Option Wait) := []

inductive Errno where
  | ebadf
  | einval
  | efault
  | eexist
  | enoent
  | enomem
  | eintr
deriving DecidableEq, Repr

def Sys.instance? (s : Sys) (ep : Nat) : Instance := (s.file ep).epoll.getD {}

def Sys.modifyFile (s : Sys) (a : Nat) (g : File → File) : Sys :=
  { s with file := Function.update s.file a (g (s.file a)) }

def Sys.setItems (s : Sys) (ep : Nat) (items : List Item) : Sys :=
  s.modifyFile ep fun f => { f with epoll := f.epoll.map fun e => { e with items := items } }

def Sys.setFd (s : Sys) (fd : Nat) (f : Option Nat) : Sys := { s with fds := Function.update s.fds fd f }

/-! ### Readiness -/

def epollFilePoll (s : Sys) (poll : Nat → Option U32) : List Item → Option U32
  | [] => some 0
  | it :: items =>
    if it.armed = true ∧ s.fds it.fd = some it.f then
      match poll it.f with
      | none => none
      | some mask =>
        if mask &&& (it.events ||| pollErr ||| pollHup) ≠ 0 then some pollIn else epollFilePoll s poll items
    else epollFilePoll s poll items

/-- `ready` is what the other files answer. The first argument bounds how deep the calls
nest; without an answer they would nest deeper. -/
def filePoll (s : Sys) (ready : Nat → U32) : Nat → Nat → Option U32
  | 0, _ => none
  | n + 1, f =>
    match (s.file f).epoll with
    | none => some (ready f)
    | some ep => epollFilePoll s (filePoll s ready n) ep.items

/-! ### Descriptors -/

def allocFrom (s : Sys) (fd : Nat) : Option Nat :=
  (List.range' fd (maxFds - fd)).find? fun i => (s.fds i).isNone

def fileClose (s : Sys) (a : Nat) : Sys :=
  s.modifyFile a fun f => { f with refs := f.refs - 1, freed := f.freed || f.refs - 1 == 0 }

def place (s : Sys) (a : Nat) (epoll : Option Instance) : Sys :=
  { s.modifyFile a fun _ => ⟨epoll, 1, s.made, false⟩ with top := max s.top (a + 1), made := s.made + 1 }

def openAt (s : Sys) (a : Nat) (epoll : Option Instance) : Sys :=
  match allocFrom s 0 with
  | none => fileClose (place s a epoll) a
  | some fd => (place s a epoll).setFd fd (some a)

def sysClose (s : Sys) (fd : Nat) : Sys :=
  match s.fds fd with
  | none => s
  | some a => fileClose (s.setFd fd none) a

def fileDup (s : Sys) (a : Nat) : Sys := s.modifyFile a fun f => { f with refs := f.refs + 1 }

def sysDup (s : Sys) (fd : Nat) : Sys :=
  match s.fds fd with
  | none => s
  | some a =>
    match allocFrom s 0 with
    | none => fileClose (fileDup s a) a
    | some nfd => (fileDup s a).setFd nfd (some a)

def sysDup3 (s : Sys) (fd nfd : Nat) : Sys :=
  match s.fds fd with
  | none => s
  | some a =>
    if maxFds ≤ nfd ∨ fd = nfd then s
    else
      let s' := (fileDup s a).setFd nfd (some a)
      match s.fds nfd with
      | none => s'
      | some old => fileClose s' old

/-! ### Registrations -/

inductive Op where
  | add
  | del
  | mod
  | other
deriving DecidableEq, Repr

def epollOf (s : Sys) (epfd : Nat) : Option Nat :=
  match s.fds epfd with
  | none => none
  | some f => if (s.file f).epoll.isSome then some f else none

/-- `uev` is the event at the user's address, if it can be read; `mem` says whether there is
memory for a longer array. -/
def sysEpollCtl (s : Sys) (epfd : Nat) (op : Op) (fd : Nat) (uev : Option (U32 × U64)) (mem : Bool) :
    Sys × Option Errno :=
  if s.fds epfd = none then (s, some .ebadf)
  else
    match epollOf s epfd with
    | none => (s, some .einval)
    | some ep =>
      match s.fds fd with
      | none => (s, some .ebadf)
      | some f =>
        if fd = epfd then (s, some .einval)
        else if op ≠ .del ∧ uev = none then (s, some .efault)
        else
          let (events, data) := uev.getD (0, 0)
          let e := s.instance? ep
          let k := e.items.findIdx? fun it => it.fd == fd && it.f == f
          match op, k with
          | .add, some _ => (s, some .eexist)
          | .add, none =>
            if e.items.length = e.cap ∧ mem = false then (s, some .enomem)
            else
              let cap := if e.items.length = e.cap then (if e.cap ≠ 0 then e.cap * 2 else 8) else e.cap
              (s.modifyFile ep fun x =>
                { x with epoll := some ⟨e.items ++ [⟨fd, f, events, data, true, (s.file f).id⟩], cap⟩ }, none)
          | .mod, some k =>
            (s.setItems ep (e.items.modify k fun it => { it with events := events, data := data, armed := true }),
              none)
          | .del, some k => (s.setItems ep (swapRemove e.items k), none)
          | .mod, none | .del, none => (s, some .enoent)
          | .other, _ => (s, some .einval)

/-! ### Waiting -/

/-- The first loop of `epoll_wait_ms`: items whose descriptor is another file by now go, the
others are collected. The first argument is how many items are ahead. -/
def collectLoop (s : Sys) : Nat → List Item → Nat → List Slot → List Item × List Slot
  | 0, items, _, slots => (items, slots)
  | k + 1, items, i, slots =>
    match items[i]? with
    | none => (items, slots)
    | some it =>
      if s.fds it.fd ≠ some it.f then collectLoop s k (swapRemove items i) i slots
      else
        collectLoop s k items (i + 1)
          (if it.armed = true ∧ slots.length < pollMax then
            slots ++ [⟨it.fd, it.events.truncate 16, i, 0⟩] else slots)

structure Report where
  events : U32
  data : U64
  item : Item
deriving DecidableEq, Repr

def reportLoop : List Slot → Nat → List Item → List Report × List Item
  | [], _, items => ([], items)
  | sl :: slots, room, items =>
    if room = 0 then ([], items)
    else
      match items[sl.map]? with
      | none => reportLoop slots room items
      | some it =>
        if sl.revents = 0 ∨ it.fd ≠ sl.fd ∨ sl.revents &&& pollNval ≠ 0 then reportLoop slots room items
        else
          let items := if it.events &&& epollOneshot ≠ 0 then
            items.modify sl.map fun x => { x with armed := false } else items
          let (out, items) := reportLoop slots (room - 1) items
          (⟨sl.revents.zeroExtend 32, it.data, it⟩ :: out, items)

inductive Answer where
  | error (e : Errno)
  | reported (l : List Report)
deriving DecidableEq, Repr

def waitBegin (s : Sys) (t epfd max : Nat) : Sys × Option Answer :=
  if s.fds epfd = none then (s, some (.error .ebadf))
  else
    match epollOf s epfd with
    | none => (s, some (.error .einval))
    | some ep =>
      if max = 0 then (s, some (.error .einval))
      else
        let items := (s.instance? ep).items
        let (items, slots) := collectLoop s items.length items 0 []
        ({ s.setItems ep items with waits := s.waits.set t (some ⟨ep, max, slots, 0⟩) }, none)

inductive Quit where
  | stay
  | timeout
  | signal
deriving DecidableEq, Repr

def pollSlot (s : Sys) (ready : Nat → U32) (n : Nat) (sl : Slot) : Option (BitVec 16) :=
  match s.fds sl.fd with
  | none => some pollNval
  | some f =>
    match filePoll s ready n f with
    | none => none
    | some mask => some ((mask &&& (sl.events.signExtend 32 ||| pollErr ||| pollHup)).truncate 16)

/-- A wait looks at its next descriptor, or at the end of a round reports or starts again. -/
def waitTurn (s : Sys) (t : Nat) (w : Wait) (ready : Nat → U32) (n : Nat) (quit : Quit) : Sys × Option Answer :=
  match w.slots[w.pos]? with
  | some sl =>
    match pollSlot s ready n sl with
    | none => (s, none)
    | some r =>
      let slots := w.slots.set w.pos { sl with revents := r }
      ({ s with waits := s.waits.set t (some { w with slots := slots, pos := w.pos + 1 }) }, none)
  | none =>
    if w.slots.any fun sl => sl.revents != 0 then
      let (out, items) := reportLoop w.slots w.max (s.instance? w.ep).items
      ({ s.setItems w.ep items with waits := s.waits.set t none }, some (.reported out))
    else
      match quit with
      | .stay => ({ s with waits := s.waits.set t (some { w with pos := 0 }) }, none)
      | .timeout => ({ s with waits := s.waits.set t none }, some (.reported []))
      | .signal => ({ s with waits := s.waits.set t none }, some (.error .eintr))

inductive Event where
  | thread
  | openFile (a : Nat)
  | epollCreate (a : Nat)
  | close (fd : Nat)
  | dup (fd : Nat)
  | dup3 (fd nfd : Nat)
  | epollCtl (epfd : Nat) (op : Op) (fd : Nat) (uev : Option (U32 × U64)) (mem : Bool)
  | epollWait (t epfd max : Nat)
  | turn (t : Nat) (ready : Nat → U32) (n : Nat) (quit : Quit)

def act (s : Sys) : Event → Sys × Option Answer
  | .thread => ({ s with waits := s.waits ++ [none] }, none)
  | .openFile a => (if (s.file a).freed then openAt s a none else s, none)
  | .epollCreate a => (if (s.file a).freed then openAt s a (some {}) else s, none)
  | .close fd => (sysClose s fd, none)
  | .dup fd => (sysDup s fd, none)
  | .dup3 fd nfd => (sysDup3 s fd nfd, none)
  | .epollCtl epfd op fd uev mem =>
    let (s, r) := sysEpollCtl s epfd op fd uev mem
    (s, r.map .error)
  | .epollWait t epfd max => if s.waits[t]? = some none then waitBegin s t epfd max else (s, none)
  | .turn t ready n quit =>
    match s.waits[t]? with
    | some (some w) => waitTurn s t w ready n quit
    | _ => (s, none)

def step (s : Sys) (e : Event) : Sys := (act s e).1

def answer (s : Sys) (e : Event) : Option Answer := (act s e).2

end Sic.Epoll
