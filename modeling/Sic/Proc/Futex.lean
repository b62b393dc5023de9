import Sic.Lib.Run
import Sic.Lib.Word

/-! `sys_futex`. Everything under `futex_lock` is one step; a waiter looks at its
entry, at its signals and at the clock between such steps. -/

namespace Sic.Futex

structure Waiter where
  key : U64
  task : Nat
  woken : Bool := false
deriving DecidableEq, Repr

def efault : Int := -14
def einval : Int := -22
def eagain : Int := -11
def eintr : Int := -4
def etimedout : Int := -110

def keyOf (base limit uaddr phys : U64) : U64 :=
  if uaddr &&& 3#64 ≠ 0#64 ∨ uaddr < base ∨ limit ≤ uaddr then 0#64 else phys

def wakeLoop (key : U64) (n : Int) : List Waiter → Nat → List Waiter × Nat
  | [], count => ([], count)
  | w :: ws, count =>
    if (count : Int) < n then
      if w.key = key ∧ w.woken = false then
        let (ws, count) := wakeLoop key n ws (count + 1)
        ({ w with woken := true } :: ws, count)
      else
        let (ws, count) := wakeLoop key n ws count
        (w :: ws, count)
    else (w :: ws, count)

def wakeKey (ws : List Waiter) (key : U64) (n : Int) : List Waiter × Nat := wakeLoop key n ws 0

def requeueLoop (k1 k2 : U64) (nwake nrequeue : U32) : List Waiter → Nat → Nat → List Waiter × Nat × Nat
  | [], woken, moved => ([], woken, moved)
  | w :: ws, woken, moved =>
    if w.key ≠ k1 ∨ w.woken = true then
      let (ws, counts) := requeueLoop k1 k2 nwake nrequeue ws woken moved
      (w :: ws, counts)
    else if woken < nwake.toNat then
      let (ws, counts) := requeueLoop k1 k2 nwake nrequeue ws (woken + 1) moved
      ({ w with woken := true } :: ws, counts)
    else if moved < nrequeue.toNat then
      let (ws, counts) := requeueLoop k1 k2 nwake nrequeue ws woken (moved + 1)
      ({ w with key := k2 } :: ws, counts)
    else
      let (ws, counts) := requeueLoop k1 k2 nwake nrequeue ws woken moved
      (w :: ws, counts)

/-- The argument `utimeout` of a wait: null, an address that is not the user's, or a
timespec. -/
inductive Timeout where
  | null
  | bad
  | at (sec nsec : U64)
deriving DecidableEq, Repr

/-- `absolute`: a relative time, a date on the monotonic clock, a date. -/
inductive Clock where
  | relative
  | monotonic
  | realtime
deriving DecidableEq, Repr

def timerHz : U64 := 1000

def deadlineOf (clock : Clock) (now epoch : U64) : Timeout → Except Int U64
  | .null => .ok 0#64
  | .bad => .error efault
  | .at sec nsec =>
    if sec.msb ∨ nsec.msb then .error einval
    else
      let ticks := sec * timerHz + nsec * timerHz / 1000000000#64
      let ticks :=
        if clock = .realtime then
          if epoch * timerHz < ticks then ticks - epoch * timerHz else 0
        else ticks
      let deadline := if clock = .relative then now + ticks else ticks
      .ok (if deadline ≤ now then now + 1 else deadline)

/-- Where a task is in `futex_wait`: before the lock, in its loop, behind it. `slept`
says whether a turn of the loop has slept. -/
inductive Phase where
  | idle
  | checking (key : U64) (val : U32) (deadline : U64)
  | waiting (deadline : U64) (slept : Bool)
  | leaving (rc : Int) (slept : Bool)
deriving DecidableEq, Repr

structure WaitResult where
  task : Nat
  rc : Int
  slept : Bool
deriving DecidableEq, Repr

inductive WakeOp where
  | wake (key : U64) (n : Int)
  | requeue (k1 k2 : U64) (nwake nrequeue : U32) (cmp : Bool)
deriving DecidableEq, Repr

/-- The number a wake or a requeue returned, and the queue when it took the lock and when it dropped it. -/
structure WakeResult where
  op : WakeOp
  ret : Nat
  before : List Waiter
  after : List Waiter
deriving DecidableEq, Repr

structure State where
  waiters : List Waiter := []
  phase : Nat → Phase := fun _ => .idle
  waits : List WaitResult := []
  wakes : List WakeResult := []

namespace State

def setPhase (s : State) (t : Nat) (p : Phase) : State := { s with phase := Function.update s.phase t p }

def ret (s : State) (t : Nat) (rc : Int) (slept : Bool) : State :=
  { s.setPhase t .idle with waits := ⟨t, rc, slept⟩ :: s.waits }

def wakeRet (s : State) (op : WakeOp) (ws : List Waiter) (ret : Nat) : State :=
  { s with waiters := ws, wakes := ⟨op, ret, s.waiters, ws⟩ :: s.wakes }

def woken (s : State) (t : Nat) : Bool := s.waiters.any fun w => w.task = t && w.woken

end State

def futexWait (s : State) (t : Nat) (key : U64) (val : U32) (deadline : Except Int U64) : State :=
  if key = 0 then s.ret t efault false
  else
    match deadline with
    | .error rc => s.ret t rc false
    | .ok d => s.setPhase t (.checking key val d)

def link (s : State) (t : Nat) (word : U32) : State :=
  match s.phase t with
  | .checking key val d =>
    if word ≠ val then s.ret t eagain false
    else { s.setPhase t (.waiting d false) with waiters := { key := key, task := t } :: s.waiters }
  | _ => s

def turn (s : State) (t : Nat) (signal : Bool) (now : U64) : State :=
  match s.phase t with
  | .waiting d slept =>
    if s.woken t then s.setPhase t (.leaving 0 slept)
    else if signal then s.setPhase t (.leaving eintr slept)
    else if d ≠ 0 ∧ d ≤ now then s.setPhase t (.leaving etimedout slept)
    else s.setPhase t (.waiting d true)
  | _ => s

def unlink (s : State) (t : Nat) : State :=
  match s.phase t with
  | .leaving rc slept =>
    { s.ret t (if s.woken t then 0 else rc) slept with
      waiters := s.waiters.eraseP fun w => w.task = t }
  | _ => s

def futexWake (s : State) (key : U64) (n : Int) : State :=
  let (ws, count) := wakeKey s.waiters key n
  s.wakeRet (.wake key n) ws count

def futexRequeue (s : State) (k1 k2 : U64) (nwake nrequeue : U32) (cmp : Bool) (word val3 : U32) : State :=
  if k1 = 0 ∨ k2 = 0 then s
  else if cmp ∧ word ≠ val3 then s
  else
    let (ws, woken, moved) := requeueLoop k1 k2 nwake nrequeue s.waiters 0 0
    s.wakeRet (.requeue k1 k2 nwake nrequeue cmp) ws (woken + if cmp then moved else 0)

/-- The arguments of a call, with what it reads: the translations of its addresses, the
timespec, the word at `uaddr` and the clock. -/
structure Call where
  uaddr : U64
  op : U32
  val : U32
  timeout : Timeout := .null
  nrequeue : U32 := 0
  uaddr2 : U64 := 0
  val3 : U32 := 0
  phys : U64
  phys2 : U64 := 0
  word : U32 := 0
  now : U64 := 0
  epoch : U64 := 0
deriving DecidableEq, Repr

def Call.cmd (c : Call) : Nat := (c.op &&& ~~~(128#32 ||| 256#32)).toNat

def Call.dateClock (c : Call) : Clock := if c.op &&& 256#32 ≠ 0#32 then .realtime else .monotonic

section

variable (base limit : U64)

def Call.key (c : Call) : U64 := keyOf base limit c.uaddr c.phys

def Call.key2 (c : Call) : U64 := keyOf base limit c.uaddr2 c.phys2

def sysFutex (s : State) (t : Nat) (c : Call) : State :=
  match c.cmd with
  | 0 => futexWait s t (c.key base limit) c.val (deadlineOf .relative c.now c.epoch c.timeout)
  | 9 => futexWait s t (c.key base limit) c.val (deadlineOf c.dateClock c.now c.epoch c.timeout)
  | 1 | 10 => if c.key base limit = 0 then s else futexWake s (c.key base limit) c.val.toInt
  | 3 => futexRequeue s (c.key base limit) (c.key2 base limit) c.val c.nrequeue false c.word 0
  | 4 => futexRequeue s (c.key base limit) (c.key2 base limit) c.val c.nrequeue true c.word c.val3
  | _ => s

end

/-- `wakePhys` is `futex_wake_phys`, called for a thread that exits. -/
inductive Event where
  | call (t : Nat) (c : Call)
  | link (t : Nat) (word : U32)
  | turn (t : Nat) (signal : Bool) (now : U64)
  | unlink (t : Nat)
  | wakePhys (phys : U64) (n : Int)
deriving DecidableEq, Repr

def step (base limit : U64) (s : State) : Event → State
  | .call t c => if s.phase t = .idle then sysFutex base limit s t c else s
  | .link t word => link s t word
  | .turn t signal now => turn s t signal now
  | .unlink t => unlink s t
  | .wakePhys phys n => futexWake s phys n

end Sic.Futex
