import Sic.Lib.Run
import Sic.Lib.Word

/-! The scheduler of `kernel/proc/sched.c`: one global run queue and any number
of CPUs. A step is what one critical section of `sched_lock` does; tasks are
named by their addresses. -/

namespace Sic

def timerHz : Nat := 1000

def timeSlice : Nat := timerHz / 100

def sigkill : Nat := 9

def sigalrm : Nat := 14

def sigstop : Nat := 19

def sigBit (sig : Nat) : U64 := 1#64 <<< (sig - 1)

def uncatchable : U64 := sigBit sigkill ||| sigBit sigstop

inductive TaskState where
  | ready
  | running
  | sleeping
  | blocked
  | stopped
  | zombie
deriving DecidableEq, Repr

structure Task where
  id : Nat := 0
  state : TaskState := .ready
  wakeAt : Nat := 0
  sliceLeft : Nat := 0
  runtime : Nat := 0
  isUser : Bool := false
  exitCode : Int := 0
  parentId : Nat := 0
  tgid : Nat := 0
  isThread : Bool := false
  groupExit : Bool := false
  stopSig : Nat := 0
  stopReported : Bool := false
  sigPending : U64 := 0
  sigBlocked : U64 := 0
  alarmAt : Nat := 0
  alarmInterval : Nat := 0
  wakePending : Bool := false
  reaped : Bool := false
  lastCpu : Nat := 0
deriving Repr

/-- `task_signal_pending`: something the task has to act on before it sleeps. -/
def Task.signalPending (k : Task) : Bool :=
  k.groupExit || k.sigPending &&& ~~~(k.sigBlocked &&& ~~~uncatchable) != 0

structure Cpu where
  current : Option Nat
  idle : Option Nat
deriving DecidableEq, Repr

/-- `picked` is a history: what `schedule` has chosen to run so far, with the
state each task was in when it was chosen. -/
structure Sched (n : Nat) where
  cpus : Fin n → Cpu
  task : Nat → Task
  allTasks : List Nat
  rq : List Nat
  nextId : Nat
  picked : List (Nat × TaskState)

namespace Sched

variable {n : Nat}

def setTask (s : Sched n) (t : Nat) (f : Task → Task) : Sched n :=
  { s with task := Function.update s.task t (f (s.task t)) }

def setState (s : Sched n) (t : Nat) (state : TaskState) : Sched n :=
  s.setTask t fun k => { k with state := state }

def stateOf (s : Sched n) (t : Nat) : TaskState := (s.task t).state

def current (s : Sched n) (c : Fin n) : Option Nat := (s.cpus c).current

def idle (s : Sched n) (c : Fin n) : Option Nat := (s.cpus c).idle

def rqPush (s : Sched n) (t : Nat) : Sched n :=
  { s.setState t .ready with rq := s.rq ++ [t] }

def rqPop (s : Sched n) : Option Nat × Sched n :=
  match s.rq with
  | [] => (none, s)
  | t :: rest => (some t, { s with rq := rest })

def isIdle (s : Sched n) (t : Nat) : Prop := ∃ i, s.idle i = some t

instance (s : Sched n) (t : Nat) : Decidable (s.isIdle t) :=
  inferInstanceAs (Decidable (∃ i, s.idle i = some t))

def busy (s : Sched n) (t : Nat) : Prop := ∃ i, s.current i = some t

instance (s : Sched n) (t : Nat) : Decidable (s.busy t) :=
  inferInstanceAs (Decidable (∃ i, s.current i = some t))

def waitingParent (s : Sched n) (t : Nat) : Bool :=
  let k := s.task t
  k.isUser && !k.isThread && !k.reaped &&
    s.allTasks.any fun p => (s.task p).id == k.parentId && s.stateOf p != .zombie

def taskReapZombies (s : Sched n) : Sched n :=
  { s with allTasks := s.allTasks.filter fun t =>
      !(decide (s.stateOf t = .zombie ∧ ¬ s.busy t ∧ s.waitingParent t = false)) }

def wakeSleeper (now : Nat) (s : Sched n) (t : Nat) : Sched n :=
  let s := if s.stateOf t = .sleeping ∧ (s.task t).wakeAt ≤ now then s.rqPush t else s
  let k := s.task t
  if k.alarmAt ≠ 0 ∧ k.alarmAt ≤ now ∧ k.state ≠ .zombie then
    let s := s.setTask t fun k =>
      { k with alarmAt := if k.alarmInterval ≠ 0 then now + k.alarmInterval else 0
               sigPending := k.sigPending ||| sigBit sigalrm }
    if k.state = .sleeping ∨ k.state = .blocked then s.rqPush t
    else s.setTask t fun k => { k with wakePending := true }
  else s

def wakeSleepers (s : Sched n) (now : Nat) : Sched n := s.allTasks.foldl (wakeSleeper now) s

def switchTo (s : Sched n) (c : Fin n) (prev next : Nat) : Sched n :=
  let s := { s with picked := (next, s.stateOf next) :: s.picked }
  let s :=
    if s.stateOf prev = .running then
      if s.isIdle prev then s.setState prev .ready else s.rqPush prev
    else s
  let s := s.setTask next fun k =>
    { k with state := .running, sliceLeft := timeSlice, lastCpu := c.val }
  { s with cpus := Function.update s.cpus c { s.cpus c with current := some next } }

def schedule (s : Sched n) (c : Fin n) : Sched n :=
  match s.current c with
  | none => s
  | some prev =>
    match s.rqPop with
    | (some next, s) => s.switchTo c prev next
    | (none, s) =>
      if s.stateOf prev = .running then s
      else
        match s.idle c with
        | none => s
        | some next => s.switchTo c prev next

def taskStart (s : Sched n) (t : Nat) (k : Task) : Sched n :=
  let s := s.setTask t fun _ =>
    { k with id := s.nextId, tgid := if k.isThread then k.tgid else s.nextId }
  ({ s with nextId := s.nextId + 1, allTasks := t :: s.allTasks }).rqPush t

def makeIdle (s : Sched n) (t : Nat) : Sched n :=
  let s := s.setTask t fun _ => { id := s.nextId }
  { s with nextId := s.nextId + 1, allTasks := t :: s.allTasks }

def schedInitAp (s : Sched n) (c : Fin n) (t : Nat) : Sched n :=
  let s := (s.makeIdle t).setState t .running
  { s with cpus := Function.update s.cpus c ⟨some t, some t⟩ }

def taskSleepMs (s : Sched n) (c : Fin n) (t ms now : Nat) : Sched n :=
  if (s.task t).wakePending then s.setTask t fun k => { k with wakePending := false }
  else
    (s.setTask t fun k =>
      { k with wakeAt := now + (ms * timerHz + 999) / 1000, state := .sleeping }).schedule c

def taskBlock (s : Sched n) (c : Fin n) (t : Nat) : Sched n :=
  if (s.task t).wakePending then s.setTask t fun k => { k with wakePending := false }
  else (s.setState t .blocked).schedule c

def taskWake (s : Sched n) (t : Nat) : Sched n :=
  if s.stateOf t = .stopped then s
  else if s.stateOf t = .blocked ∨ s.stateOf t = .sleeping then s.rqPush t
  else if s.stateOf t ≠ .zombie then s.setTask t fun k => { k with wakePending := true }
  else s

def taskContinue (s : Sched n) (t : Nat) : Sched n :=
  if s.stateOf t = .stopped then
    (s.setTask t fun k => { k with stopSig := 0, stopReported := false }).rqPush t
  else s

def taskStop (s : Sched n) (t sig : Nat) : Sched n :=
  s.setTask t fun k => { k with stopSig := sig, stopReported := false, state := .stopped }

def taskCollectChildOpts (s : Sched n) (cur : Nat) (pid : Int) (untraced : Bool) : Sched n :=
  let child (t : Nat) : Bool :=
    let k := s.task t
    k.parentId == (s.task cur).tgid && !k.reaped && t != cur && !k.isThread &&
      (decide (pid ≤ 0) || (k.id : Int) == pid)
  let found (t : Nat) : Bool :=
    child t && (s.stateOf t == .zombie ||
      (untraced && s.stateOf t == .stopped && !(s.task t).stopReported))
  match s.allTasks.find? found with
  | none => s
  | some t =>
    if s.stateOf t = .zombie then s.setTask t fun k => { k with reaped := true }
    else s.setTask t fun k => { k with stopReported := true }

def taskExit (s : Sched n) (c : Fin n) (t : Nat) (code : Int) : Sched n :=
  (s.setTask t fun k => { k with exitCode := code, state := .zombie }).schedule c

def groupExitCb (self : Nat) (s : Sched n) (t : Nat) : Sched n :=
  let k := s.task t
  let me := s.task self
  if t = self ∨ k.tgid ≠ me.tgid ∨ k.state = .zombie ∨ k.groupExit then s
  else
    let s := s.setTask t fun k => { k with exitCode := me.exitCode, groupExit := true }
    if k.state = .sleeping ∨ k.state = .blocked then s.rqPush t
    else s.setTask t fun k => { k with wakePending := true }

def taskKillOtherThreads (s : Sched n) (self : Nat) : Sched n :=
  s.allTasks.foldl (groupExitCb self) s

def reparentChild (self : Nat) (s : Sched n) (t : Nat) : Sched n :=
  if (s.task t).parentId = (s.task self).tgid then
    s.setTask t fun k => { k with parentId := 1, reaped := k.reaped || k.state == .zombie }
  else s

def reparentChildren (s : Sched n) (self : Nat) : Sched n :=
  s.allTasks.foldl (reparentChild self) s

def schedTick (s : Sched n) (t now : Nat) : Sched n :=
  let s := (s.setTask t fun k => { k with runtime := k.runtime + 1 }).wakeSleepers now
  let s := s.setTask t fun k => { k with sliceLeft := k.sliceLeft - 1 }
  if s.rq ≠ [] ∧ ((s.task t).sliceLeft = 0 ∨ s.isIdle t) then
    s.setTask t fun k => { k with sliceLeft := 0 }
  else s

def schedPreempt (s : Sched n) (c : Fin n) (t : Nat) (idleWaiting : Bool) : Sched n :=
  if s.rq ≠ [] ∧ (if s.isIdle t then idleWaiting = true else (s.task t).sliceLeft = 0) then
    s.schedule c
  else s

end Sched

end Sic
