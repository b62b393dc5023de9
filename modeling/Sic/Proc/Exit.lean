import Sic.Proc.SchedTask

/-! How a process ends and what its parent is told: `task_exit_code` and
`task_exit_group` of `kernel/proc/sched.c`, step by step in every thread, and
`wait4`. -/

namespace Sic

inductive Cause where
  | exited (code : Nat)
  | killed (sig : Nat)
deriving DecidableEq, Repr

namespace Cause

def Real : Cause → Prop
  | exited code => code < 256
  | killed sig => 1 ≤ sig ∧ sig ≤ 64

def code : Cause → Int
  | exited code => code
  | killed sig => 128 + sig

/-- The causes `wait4` does not confuse with another. -/
def Clear : Cause → Prop
  | exited code => code < 127 ∨ (160 ≤ code ∧ code < 255)
  | killed sig => sig < 32

end Cause

def wExitcode (code : U32) : U32 := (code &&& 0xFF) <<< 8

def wSignaled (sig : U32) : U32 := sig &&& 0x7F

def wait4Status (code : Int) : U32 :=
  let word := BitVec.ofInt 32 code
  if word &&& 0x7F = 0x7F then word
  else if 128 ≤ code ∧ code < 128 + 32 then wSignaled (BitVec.ofInt 32 (code - 128))
  else wExitcode word

/-- What the parent reads from a status word, after `WIFEXITED`, `WIFSTOPPED`
and `WIFSIGNALED`; a stop has no cause. -/
def decodeStatus (status : U32) : Option Cause :=
  if status &&& 0x7F = 0 then some (.exited ((status >>> 8) &&& 0xFF).toNat)
  else if status &&& 0xFF = 0x7F then none
  else some (.killed (status &&& 0x7F).toNat)

/-- Where a task stands on its way out: before the writes of `task_exit_group`
to its own record, before it tells the group, before it gives its children
away, before its last critical section, or in the part of `task_exit_code` that
ends a task on its own. -/
inductive ExitPhase where
  | run
  | mark (code : Int)
  | flag
  | tell
  | reparent
  | die
  | alone (code : Int)
deriving DecidableEq, Repr

/-- The calls that lead there: the two system calls, the default action of a
signal, a fault, and the delivery point of a thread whose group exits. -/
inductive ExitCall where
  | exit (code : Nat)
  | exitGroup (code : Nat)
  | fatal (sig : Nat)
  | fault (sig : Nat)
  | groupExit
deriving Repr

/-- `acts` is the history of what has ended or tried to end each thread group,
`reports` that of the exits reported by `wait4`: process and status word. -/
structure ExitState (n : Nat) where
  sched : Sched n
  phase : Nat → ExitPhase
  acts : List (Nat × Cause)
  reports : List (Nat × U32)

inductive ExitEvent (n : Nat) where
  | sched (e : SchedEvent n)
  | call (c : Fin n) (a : ExitCall)
  | next (c : Fin n)
  | wait4 (c : Fin n) (pid : Int) (untraced : Bool)

/-- The scheduler's events that are not steps of an exit or a `wait4`; a new
task's record has been cleared by `task_alloc`. -/
def SchedEvent.plain {n : Nat} : SchedEvent n → Bool
  | .exit _ _ | .killOthers _ | .reparent _ | .collect _ _ _ => false
  | .start _ k => !k.groupExit && !k.reaped
  | _ => true

def Sched.collects {n : Nat} (s : Sched n) (cur : Nat) (pid : Int) (untraced : Bool) (t : Nat) : Bool :=
  let k := s.task t
  k.parentId == (s.task cur).tgid && !k.reaped && t != cur && !k.isThread &&
    (decide (pid ≤ 0) || (k.id : Int) == pid) &&
    (s.stateOf t == .zombie || (untraced && s.stateOf t == .stopped && !(s.task t).stopReported))

namespace ExitState

variable {n : Nat}

def setPhase (s : ExitState n) (t : Nat) (p : ExitPhase) : ExitState n :=
  { s with phase := Function.update s.phase t p }

def record (s : ExitState n) (t : Nat) (cause : Cause) : ExitState n :=
  { s with acts := ((s.sched.task t).tgid, cause) :: s.acts }

def taskExitGroup (s : ExitState n) (t : Nat) (cause : Cause) : ExitState n :=
  (s.record t cause).setPhase t (.mark cause.code)

/-- The leader's exit ends the process; another thread's only itself. -/
def taskExitCode (s : ExitState n) (t : Nat) (cause : Cause) : ExitState n :=
  let k := s.sched.task t
  if k.isUser ∧ k.isThread = false ∧ k.groupExit = false then s.taskExitGroup t cause
  else (if k.isThread then s else s.record t cause).setPhase t (.alone cause.code)

def call (s : ExitState n) (t : Nat) (a : ExitCall) : ExitState n :=
  if s.phase t ≠ .run then s
  else
    match a with
    | .exit code => s.taskExitCode t (.exited (code % 256))
    | .exitGroup code => s.taskExitGroup t (.exited (code % 256))
    | .fatal sig => if 1 ≤ sig ∧ sig ≤ 64 then s.taskExitGroup t (.killed sig) else s
    | .fault sig => if 1 ≤ sig ∧ sig ≤ 64 then s.taskExitCode t (.killed sig) else s
    | .groupExit =>
      if (s.sched.task t).groupExit then s.setPhase t (.alone (s.sched.task t).exitCode) else s

def next (s : ExitState n) (c : Fin n) (t : Nat) : ExitState n :=
  match s.phase t with
  | .run => s
  | .mark code => { s.setPhase t .flag with sched := s.sched.setTask t fun k => { k with exitCode := code } }
  | .flag => { s.setPhase t .tell with sched := s.sched.setTask t fun k => { k with groupExit := true } }
  | .tell => { s.setPhase t .reparent with sched := s.sched.taskKillOtherThreads t }
  | .reparent => { s.setPhase t .die with sched := s.sched.reparentChildren t }
  | .die => { s.setPhase t .run with sched := s.sched.taskExit c t (s.sched.task t).exitCode }
  | .alone code => { s.setPhase t .run with sched := s.sched.taskExit c t code }

def wait4 (s : ExitState n) (cur : Nat) (pid : Int) (untraced : Bool) : ExitState n :=
  let pid := if pid = 0 ∨ pid < -1 then -1 else pid
  let sched := s.sched.taskCollectChildOpts cur pid untraced
  match s.sched.allTasks.find? (s.sched.collects cur pid untraced) with
  | none => s
  | some t =>
    if s.sched.stateOf t = .zombie then
      let k := s.sched.task t
      { s with sched := sched, reports := (k.id, wait4Status k.exitCode) :: s.reports }
    else { s with sched := sched }

def step (s : ExitState n) : ExitEvent n → ExitState n
  | .sched e => if e.plain then { s with sched := s.sched.step e } else s
  | .call c a => s.sched.byExecuting c s fun t => s.call t a
  | .next c => s.sched.byExecuting c s fun t => s.next c t
  | .wait4 c pid untraced => s.sched.byExecuting c s fun cur => s.wait4 cur pid untraced

def init (n : Nat) : ExitState (n + 1) where
  sched := Sched.schedInit n
  phase _ := .run
  acts := []
  reports := []

end ExitState

end Sic
