import Sic.Proc.SchedTask

/-! Signals of `kernel/proc/signal.c` over the scheduler. Sending a signal is
several steps, the last of them a wake; a task blocks only after it has found
no signal pending, and it stops some time after it has taken the stop signal
off its pending set. All of it is interleaved with the scheduler's other steps. -/

namespace Sic

def sigchld : Nat := 17

def sigcont : Nat := 18

def sigurg : Nat := 23

def sigwinch : Nat := 28

def stopSignals : List Nat := [sigstop, 20, 21, 22]

def defaultIgnored (sig : Nat) : Bool := sig == sigchld || sig == sigurg || sig == sigwinch

inductive Disposition where
  | dfl
  | ign
  | handler
deriving DecidableEq, Repr

def Task.nextSignal (k : Task) : Option Nat :=
  let deliverable := k.sigPending &&& ~~~(k.sigBlocked &&& ~~~uncatchable)
  ((List.range 64).find? deliverable.getLsbD).map (· + 1)

/-- What the kernel code of a task is about to do: block, having found no
signal pending; stop; or exit. -/
inductive SigPhase where
  | free
  | armed
  | stopping (sig : Nat)
  | dying
deriving DecidableEq, Repr

/-- `due t` counts the senders that have marked a signal on `t` and have still
to wake it. -/
structure SignalState (n : Nat) where
  sched : Sched n
  phase : Nat → SigPhase
  due : Nat → Nat

/-- `discard`, `post` and `wakePosted` are the steps of `task_send_signal`; the
other events with a CPU are steps of the task that executes there. -/
inductive SignalEvent (n : Nat) where
  | sched (e : SchedEvent n)
  | discard (t sig : Nat)
  | post (t sig : Nat)
  | wakePosted (t : Nat)
  | killAll (c : Fin n) (sig : Nat)
  | check (c : Fin n)
  | block (c : Fin n)
  | sleep (c : Fin n) (ms now : Nat)
  | deliver (c : Fin n)
  | take (c : Fin n) (d : Disposition)
  | stop (c : Fin n)
  | exit (c : Fin n) (code : Int)

def Task.killAllTarget (self k : Task) : Bool :=
  k.isUser && !k.isThread && k.tgid != self.tgid && k.state != .zombie

namespace SignalState

variable {n : Nat}

def setPhase (s : SignalState n) (t : Nat) (p : SigPhase) : SignalState n :=
  { s with phase := Function.update s.phase t p }

def killAllCb (self sig : Nat) (s : Sched n) (t : Nat) : Sched n :=
  if (s.task self).killAllTarget (s.task t) then
    if sig ≠ 0 then
      s.setTask t fun k => { k with sigPending := k.sigPending ||| sigBit sig, wakePending := true }
    else s
  else s

/-- One turn of the loop of `deliver`. A signal that cannot be caught has its
default effect whatever the table says. -/
def take (s : SignalState n) (t : Nat) (d : Disposition) : SignalState n :=
  if s.phase t ≠ .free then s
  else
    match (s.sched.task t).nextSignal with
    | none => s
    | some sig =>
      let s :=
        { s with sched := s.sched.setTask t fun k => { k with sigPending := k.sigPending &&& ~~~sigBit sig } }
      let d := if uncatchable &&& sigBit sig ≠ 0 then .dfl else d
      if d ≠ .dfl ∨ defaultIgnored sig then s
      else if sig ∈ stopSignals then s.setPhase t (.stopping sig)
      else s.setPhase t .dying

def step (s : SignalState n) : SignalEvent n → SignalState n
  | .sched e => if e.leaver = none then { s with sched := s.sched.step e } else s
  | .discard t sig =>
    if sig ∈ stopSignals ∨ sig = sigcont then
      { s with sched := s.sched.setTask t fun k => { k with sigPending := k.sigPending &&& ~~~sigBit sig } }
    else s
  | .post t sig =>
    { s with
      sched := s.sched.setTask t fun k => { k with sigPending := k.sigPending ||| sigBit sig }
      due := Function.update s.due t (s.due t + 1) }
  | .wakePosted t =>
    if s.due t = 0 then s
    else { s with sched := s.sched.taskWake t, due := Function.update s.due t (s.due t - 1) }
  | .killAll c sig => s.sched.byExecuting c s fun self =>
    { s with sched := s.sched.allTasks.foldl (killAllCb self sig) s.sched }
  | .check c => s.sched.byExecuting c s fun t =>
    if s.phase t = .free ∧ (s.sched.task t).signalPending = false then s.setPhase t .armed else s
  | .block c => s.sched.byExecuting c s fun t =>
    if s.phase t = .armed ∨ (s.phase t = .free ∧ (s.sched.task t).isUser = false) then
      { s.setPhase t .free with sched := s.sched.taskBlock c t }
    else s
  | .sleep c ms now => s.sched.byExecuting c s fun t =>
    if s.phase t = .armed ∨ s.phase t = .free then
      { s.setPhase t .free with sched := s.sched.taskSleepMs c t ms now }
    else s
  | .deliver c => s.sched.byExecuting c s fun t =>
    if s.phase t = .free ∧ (s.sched.task t).groupExit then s.setPhase t .dying else s
  | .take c d => s.sched.byExecuting c s fun t => s.take t d
  | .stop c => s.sched.byExecuting c s fun t =>
    match s.phase t with
    | .stopping sig => { s.setPhase t .free with sched := s.sched.taskStop t sig }
    | _ => s
  | .exit c code => s.sched.byExecuting c s fun t =>
    if s.phase t = .free ∨ s.phase t = .dying then
      { s.setPhase t .free with sched := s.sched.taskExit c t code }
    else s

def init (n : Nat) : SignalState (n + 1) where
  sched := Sched.schedInit n
  phase _ := .free
  due _ := 0

end SignalState

end Sic
