import Sic.Proc.Signal

/-! The signal mask of a task that waits with a temporary one: `rt_sigsuspend`, `ppoll`,
`pselect6` and `epoll_pwait`, and the delivery on the way back to user mode. Other tasks
send signals between any two steps. -/

namespace Sic.SigMask

/-- `mask` is the two words of the C array as one. -/
structure SigAction where
  handler : Disposition := .dfl
  mask : U64 := 0
  restorer : Bool := false
  nodefer : Bool := false
  resethand : Bool := false
deriving DecidableEq, Repr

/-- Where the task is. `old` is the mask before a wait with a temporary one; a wait that has seen
a signal is `interrupted` until it has saved that mask. `call` is the mask if the task is on its way
back from such a wait. -/
inductive Phase where
  | user
  | waiting (old : U64) (suspend : Bool)
  | interrupted (old : U64)
  | returning (call : Option U64)
  | delivering (call : Option U64)
  | dead
deriving DecidableEq, Repr

def Phase.old : Phase → Option U64
  | .waiting old _ | .interrupted old => some old
  | _ => none

structure Return where
  old : U64
  frame : Option U64
  blocked : U64
deriving DecidableEq, Repr

structure SigTask where
  pending : U64 := 0
  blocked : U64 := 0
  savedMask : U64 := 0
  savedMaskValid : Bool := false
  groupExit : Bool := false
  actions : Nat → SigAction := fun _ => {}
  phase : Phase := .user
  returns : List Return := []

namespace SigTask

def deliverable (t : SigTask) : U64 := t.pending &&& ~~~(t.blocked &&& ~~~uncatchable)

def signalPending (t : SigTask) : Bool := t.groupExit || t.deliverable != 0

def nextSignal (t : SigTask) : Option Nat := ((List.range 64).find? t.deliverable.getLsbD).map (· + 1)

def cancel (t : SigTask) (sig : Nat) : SigTask :=
  if sig = sigcont then
    { t with pending := t.pending &&& ~~~(sigBit sigstop ||| sigBit 20 ||| sigBit 21 ||| sigBit 22) }
  else if sig ∈ stopSignals then { t with pending := t.pending &&& ~~~sigBit sigcont }
  else t

def post (t : SigTask) (sig : Nat) : SigTask := { t with pending := t.pending ||| sigBit sig }

def ignores (t : SigTask) (sig : Nat) : Bool :=
  decide (sigBit sig &&& uncatchable = 0) &&
    ((t.actions sig).handler == .ign || (t.actions sig).handler == .dfl && defaultIgnored sig)

def setPhase (t : SigTask) (p : Phase) : SigTask := { t with phase := p }

def back (t : SigTask) (call frame : Option U64) : SigTask :=
  { t with phase := .user, returns := (call.map fun old => ⟨old, frame, t.blocked⟩).toList ++ t.returns }

def waitEnd (t : SigTask) (old : U64) (interrupted : Bool) : SigTask :=
  if interrupted then { t with savedMask := old, savedMaskValid := true, phase := .returning (some old) }
  else { t with blocked := old, phase := .returning (some old) }

def restoreMask (t : SigTask) : SigTask :=
  if t.savedMaskValid then { t with blocked := t.savedMask &&& ~~~uncatchable, savedMaskValid := false } else t

def frameMask (t : SigTask) : U64 := if t.savedMaskValid then t.savedMask else t.blocked

def setupFrame (t : SigTask) (sig : Nat) : SigTask :=
  let a := t.actions sig
  let blocked := t.blocked ||| a.mask
  let blocked := if a.nodefer then blocked else blocked ||| sigBit sig
  { t with
    savedMaskValid := false
    blocked := blocked &&& ~~~uncatchable
    actions := if a.resethand then Function.update t.actions sig {} else t.actions }

def take (t : SigTask) (sig : Nat) : SigTask := { t with pending := t.pending &&& ~~~sigBit sig }

def disposition (t : SigTask) (sig : Nat) : Disposition :=
  if sigBit sig &&& uncatchable ≠ 0 then .dfl else (t.actions sig).handler

/-- The effect of a signal that was taken; `room` says whether the user stack takes a frame.
A task that stops goes on from here when it is continued. -/
def handle (t : SigTask) (call : Option U64) (room : Bool) (sig : Nat) : SigTask :=
  if t.disposition sig = .ign ∨ (t.disposition sig = .dfl ∧ defaultIgnored sig) then t
  else if t.disposition sig = .dfl ∧ sig ∈ stopSignals then t
  else if t.disposition sig = .dfl ∨ (t.actions sig).restorer = false ∨ room = false then t.setPhase .dead
  else (t.setupFrame sig).back call (some t.frameMask)

def turn (t : SigTask) (call : Option U64) (room : Bool) : SigTask :=
  match t.nextSignal with
  | none => t.restoreMask.back call none
  | some sig => (t.take sig).handle call room sig

theorem exists_cancel_eq (t : SigTask) (sig : Nat) : ∃ p, t.cancel sig = { t with pending := p } := by
  rw [cancel]
  split
  · exact ⟨_, rfl⟩
  split
  · exact ⟨_, rfl⟩
  · exact ⟨t.pending, rfl⟩

theorem handle_cases (t : SigTask) (call : Option U64) (room : Bool) (sig : Nat) :
    t.handle call room sig = t ∨ t.handle call room sig = t.setPhase .dead ∨
      t.handle call room sig = (t.setupFrame sig).back call (some t.frameMask) := by
  rw [handle]
  split
  · exact .inl rfl
  split
  · exact .inl rfl
  split
  · exact .inr (.inl rfl)
  · exact .inr (.inr rfl)

end SigTask

inductive How where
  | block
  | unblock
  | setmask
deriving DecidableEq, Repr

/-- `cancel` and `post` are the two halves of `task_send_signal`; `mark` is a signal of
`kill(-1)` or of an alarm. `wait` has no set where the arguments are refused. `fork` goes
on with the child. -/
inductive Event where
  | cancel (sig : Nat)
  | post (sig : Nat)
  | mark (sig : Nat)
  | groupExit
  | sigaction (sig : Nat) (a : SigAction)
  | fork
  | call
  | procmask (how : How) (set : U64)
  | sigreturn (mask : U64)
  | wait (suspend : Bool) (set : Option U64)
  | waitEnd (interrupted : Bool)
  | save
  | deliver
  | turn (room : Bool)
  | irq
  | fault (sig : Nat)
deriving DecidableEq, Repr

open SigTask

def SigTask.fromUser (t : SigTask) (k : SigTask) : SigTask := if t.phase = .user then k else t

def procmask (t : SigTask) (how : How) (set : U64) : SigTask :=
  let blocked :=
    match how with
    | .block => t.blocked ||| set
    | .unblock => t.blocked &&& ~~~set
    | .setmask => set
  { t with blocked := blocked &&& ~~~uncatchable, phase := .returning none }

def step (t : SigTask) : Event → SigTask
  | .cancel sig => t.cancel sig
  | .post sig => if t.ignores sig then t else t.post sig
  | .mark sig => t.post sig
  | .groupExit => { t with groupExit := true }
  | .sigaction sig a =>
    if sigBit sig &&& uncatchable ≠ 0 then t else { t with actions := Function.update t.actions sig a }
  | .fork => t.fromUser { t with pending := 0, savedMaskValid := false, groupExit := false }
  | .call => t.fromUser (t.setPhase (.returning none))
  | .procmask how set => t.fromUser (procmask t how set)
  | .sigreturn mask => t.fromUser { t with blocked := mask &&& ~~~uncatchable, phase := .returning none }
  | .wait suspend set =>
    match set with
    | none => t.fromUser (t.setPhase (.returning (some t.blocked)))
    | some set => t.fromUser { t with blocked := set &&& ~~~uncatchable, phase := .waiting t.blocked suspend }
  | .waitEnd interrupted =>
    match t.phase with
    | .waiting old suspend =>
      if interrupted then (if t.signalPending then t.setPhase (.interrupted old) else t)
      else if suspend then t
      else t.waitEnd old false
    | _ => t
  | .save =>
    match t.phase with
    | .interrupted old => t.waitEnd old true
    | _ => t
  | .deliver =>
    match t.phase with
    | .returning call =>
      if t.signalPending = false then t.back call none
      else if t.groupExit then t.setPhase .dead
      else t.setPhase (.delivering call)
    | _ => t
  | .turn room =>
    match t.phase with
    | .delivering call => t.turn call room
    | _ => t
  | .irq =>
    t.fromUser
      (if t.signalPending = false then t
       else if t.groupExit then t.setPhase .dead
       else t.setPhase (.delivering none))
  | .fault sig =>
    t.fromUser
      (if (t.actions sig).handler ≠ .handler ∨ t.blocked &&& sigBit sig ≠ 0 then t.setPhase .dead
       else if t.groupExit then t.setPhase .dead
       else (t.post sig).setPhase (.delivering none))

def Return.Restored (r : Return) : Prop :=
  match r.frame with
  | some mask => mask = r.old
  | none => r.blocked = r.old

def SigTask.Interrupted (t : SigTask) : Prop :=
  (∃ old, t.phase = .interrupted old) ∨ t.savedMaskValid = true ∧ ∃ call, t.phase = .returning call

/-- A send does not take the last deliverable signal from a task whose wait was interrupted
and that has not looked for signals since. -/
def Keeps (t : SigTask) : Event → Prop
  | .cancel sig => t.Interrupted → (t.cancel sig).signalPending = true
  | _ => True

/-! ### No mask blocks SIGKILL or SIGSTOP -/

structure Catchable (t : SigTask) : Prop where
  blocked : t.blocked &&& uncatchable = 0#64
  waiting : ∀ old, t.phase.old = some old → old &&& uncatchable = 0#64
  saved : t.savedMaskValid = true → t.savedMask &&& uncatchable = 0#64

variable {t k : SigTask}

theorem and_not_uncatchable (m : U64) : m &&& ~~~uncatchable &&& uncatchable = 0#64 := by
  rw [BitVec.and_assoc, BitVec.and_comm (~~~uncatchable), BitVec.and_not_self]
  exact BitVec.and_zero

theorem and_not_of_catchable {m : U64} (h : m &&& uncatchable = 0#64) : m &&& ~~~uncatchable = m := by
  have hsplit : m &&& ~~~uncatchable ||| m &&& uncatchable = m := by
    rw [← BitVec.and_or_distrib_left, BitVec.or_comm, BitVec.or_not_self, BitVec.and_allOnes]
  rw [h, BitVec.or_zero] at hsplit
  exact hsplit

theorem Catchable.fromUser (h : Catchable t) (hk : Catchable k) : Catchable (t.fromUser k) := by
  rw [SigTask.fromUser]
  split
  · exact hk
  · exact h

theorem Catchable.setPhase (h : Catchable t) {p : Phase} (hp : p.old = none ∨ p.old = t.phase.old) :
    Catchable (t.setPhase p) := by
  refine ⟨h.blocked, fun old he => ?_, h.saved⟩
  rcases hp with hp | hp
  · cases hp.symm.trans he
  · exact h.waiting old (hp.symm.trans he)

theorem Catchable.back (h : Catchable t) (call frame : Option U64) : Catchable (t.back call frame) :=
  ⟨h.blocked, nofun, h.saved⟩

theorem Catchable.cancel (h : Catchable t) (sig : Nat) : Catchable (t.cancel sig) := by
  obtain ⟨p, he⟩ := t.exists_cancel_eq sig
  rw [he]
  exact ⟨h.blocked, h.waiting, h.saved⟩

theorem Catchable.post (h : Catchable t) (sig : Nat) : Catchable (t.post sig) :=
  ⟨h.blocked, h.waiting, h.saved⟩

theorem Catchable.restoreMask (h : Catchable t) : Catchable t.restoreMask := by
  rw [SigTask.restoreMask]
  split
  · exact ⟨and_not_uncatchable _, h.waiting, nofun⟩
  · exact h

theorem Catchable.turn (h : Catchable t) (call : Option U64) (room : Bool) : Catchable (t.turn call room) := by
  unfold SigTask.turn
  split
  · exact h.restoreMask.back call none
  next sig _ =>
  have htake : Catchable (t.take sig) := ⟨h.blocked, h.waiting, h.saved⟩
  rcases (t.take sig).handle_cases call room sig with he | he | he <;> rw [he]
  · exact htake
  · exact htake.setPhase (.inl rfl)
  · exact ⟨and_not_uncatchable _, nofun, nofun⟩

theorem Catchable.procmask (h : Catchable t) (how : How) (set : U64) : Catchable (procmask t how set) :=
  ⟨and_not_uncatchable _, nofun, h.saved⟩

theorem Catchable.sigreturn (h : Catchable t) (mask : U64) :
    Catchable { t with blocked := mask &&& ~~~uncatchable, phase := .returning none } :=
  ⟨and_not_uncatchable _, nofun, h.saved⟩

theorem Catchable.wait (h : Catchable t) (suspend : Bool) (set : U64) :
    Catchable { t with blocked := set &&& ~~~uncatchable, phase := .waiting t.blocked suspend } := by
  refine ⟨and_not_uncatchable _, fun old he => ?_, h.saved⟩
  cases he
  exact h.blocked

theorem Catchable.waitEnd (h : Catchable t) {old : U64} (hold : old &&& uncatchable = 0#64) (interrupted : Bool) :
    Catchable (t.waitEnd old interrupted) := by
  cases interrupted with
  | true => exact ⟨h.blocked, nofun, fun _ => hold⟩
  | false => exact ⟨hold, nofun, h.saved⟩

theorem Catchable.step (h : Catchable t) (e : Event) : Catchable (step t e) := by
  cases e with
  | cancel sig => exact h.cancel sig
  | post sig =>
    rw [SigMask.step]
    split
    · exact h
    · exact h.post sig
  | mark sig => exact h.post sig
  | groupExit => exact ⟨h.blocked, h.waiting, h.saved⟩
  | sigaction sig a =>
    rw [SigMask.step]
    split
    · exact h
    · exact ⟨h.blocked, h.waiting, h.saved⟩
  | fork => exact h.fromUser ⟨h.blocked, h.waiting, nofun⟩
  | call => exact h.fromUser (h.setPhase (.inl rfl))
  | procmask how set => exact h.fromUser (h.procmask how set)
  | sigreturn mask => exact h.fromUser (h.sigreturn mask)
  | wait suspend set =>
    cases set with
    | none => exact h.fromUser (h.setPhase (.inl rfl))
    | some set => exact h.fromUser (h.wait suspend set)
  | waitEnd interrupted =>
    rw [SigMask.step]
    split
    · next old suspend hph =>
      have hold : t.phase.old = some old := by rw [hph]; rfl
      split
      · split
        · exact h.setPhase (.inr hold.symm)
        · exact h
      · split
        · exact h
        · exact h.waitEnd (h.waiting old hold) false
    · exact h
  | save =>
    rw [SigMask.step]
    split
    · next old hph => exact h.waitEnd (h.waiting old (by rw [hph]; rfl)) true
    · exact h
  | deliver =>
    rw [SigMask.step]
    split
    · split
      · exact h.back _ none
      · split
        · exact h.setPhase (.inl rfl)
        · exact h.setPhase (.inl rfl)
    · exact h
  | turn room =>
    rw [SigMask.step]
    split
    · exact h.turn _ room
    · exact h
  | irq =>
    refine h.fromUser ?_
    split
    · exact h
    split
    · exact h.setPhase (.inl rfl)
    · exact h.setPhase (.inl rfl)
  | fault sig =>
    refine h.fromUser ?_
    split
    · exact h.setPhase (.inl rfl)
    split
    · exact h.setPhase (.inl rfl)
    · exact (h.post sig).setPhase (.inl rfl)

/-! ### The mask comes back -/

def SigTask.Undoes (t : SigTask) (call : Option U64) : Prop :=
  (t.savedMaskValid = false ∧ ∀ old, call = some old → t.blocked = old) ∨
    (t.savedMaskValid = true ∧ call = some t.savedMask)

structure Masked (t : SigTask) : Prop where
  catchable : Catchable t
  user : t.phase = .user → t.savedMaskValid = false
  waiting : ∀ old, t.phase.old = some old → t.savedMaskValid = false
  returning : ∀ call, t.phase = .returning call → t.Undoes call
  pending : t.Interrupted → t.signalPending = true
  delivering : ∀ call, t.phase = .delivering call → t.Undoes call
  returns : ∀ r ∈ t.returns, r.Restored

theorem signalPending_post (h : t.signalPending = true) (sig : Nat) : (t.post sig).signalPending = true := by
  rw [signalPending, Bool.or_eq_true] at h ⊢
  refine h.imp id fun hd => ?_
  rw [bne_iff_ne] at hd ⊢
  intro hz
  apply hd
  rw [deliverable, SigTask.post, BitVec.and_or_distrib_right] at hz
  exact (BitVec.or_eq_zero_iff.mp hz).1

theorem Masked.congr (h : Masked t) (hb : k.blocked = t.blocked) (hs : k.savedMask = t.savedMask)
    (hv : k.savedMaskValid = t.savedMaskValid) (hp : k.phase = t.phase) (hr : k.returns = t.returns)
    (hpend : t.Interrupted → t.signalPending = true → k.signalPending = true) : Masked k where
  catchable := ⟨hb ▸ h.catchable.blocked, hp ▸ h.catchable.waiting, hv ▸ hs ▸ h.catchable.saved⟩
  user := hp ▸ hv ▸ h.user
  waiting := hp ▸ hv ▸ h.waiting
  returning call hc := by
    rw [SigTask.Undoes, hb, hs, hv]
    exact h.returning call (hp ▸ hc)
  pending hk := by
    have ht : t.Interrupted := by rwa [SigTask.Interrupted, ← hp, ← hv]
    exact hpend ht (h.pending ht)
  delivering call hc := by
    rw [SigTask.Undoes, hb, hs, hv]
    exact h.delivering call (hp ▸ hc)
  returns := hr ▸ h.returns

def SigTask.Settled (t : SigTask) : Prop :=
  match t.phase with
  | .interrupted _ => False
  | .returning (some old) | .delivering (some old) => t.blocked = old
  | _ => True

theorem Masked.of_settled (hc : Catchable t) (hv : t.savedMaskValid = false) (hs : t.Settled)
    (hr : ∀ r ∈ t.returns, r.Restored) : Masked t where
  catchable := hc
  user _ := hv
  waiting _ _ := hv
  returning call hp := .inl ⟨hv, fun old ho => by rwa [SigTask.Settled, hp, ho] at hs⟩
  pending := by
    rintro (⟨old, ho⟩ | ⟨hvt, -⟩)
    · rw [SigTask.Settled, ho] at hs
      cases hs
    · rw [hv] at hvt
      cases hvt
  delivering call hp := .inl ⟨hv, fun old ho => by rwa [SigTask.Settled, hp, ho] at hs⟩
  returns := hr

theorem Masked.boot : Masked {} :=
  .of_settled ⟨BitVec.zero_and, nofun, nofun⟩ rfl trivial nofun

theorem Masked.fromUser (h : Masked t) (hk : t.phase = .user → t.savedMaskValid = false → Masked k) :
    Masked (t.fromUser k) := by
  rw [SigTask.fromUser]
  split
  · next hu => exact hk hu (h.user hu)
  · exact h

theorem Masked.dead (h : Masked t) : Masked (t.setPhase .dead) where
  catchable := h.catchable.setPhase (.inl rfl)
  user hp := by cases hp
  waiting _ hp := by cases hp
  returning _ hp := by cases hp
  pending := by rintro (⟨_, hp⟩ | ⟨-, _, hp⟩) <;> cases hp
  delivering _ hp := by cases hp
  returns := h.returns

variable {call : Option U64}

theorem mem_back {frame : Option U64} {r : Return} (h : r ∈ (t.back call frame).returns) :
    (∃ old, call = some old ∧ r = ⟨old, frame, t.blocked⟩) ∨ r ∈ t.returns := by
  rw [SigTask.back, List.mem_append] at h
  refine h.imp (fun hr => ?_) id
  cases call with
  | none => cases hr
  | some old => exact ⟨old, rfl, List.mem_singleton.mp hr⟩

theorem Masked.back {frame : Option U64} (hc : Catchable t) (hv : t.savedMaskValid = false)
    (hcall : ∀ old, call = some old → Return.Restored ⟨old, frame, t.blocked⟩)
    (hr : ∀ r ∈ t.returns, r.Restored) : Masked (t.back call frame) := by
  refine .of_settled (hc.back call frame) hv trivial fun r hmem => ?_
  rcases mem_back hmem with ⟨old, ho, rfl⟩ | hmem
  · exact hcall old ho
  · exact hr r hmem

theorem Masked.restoreMask (h : Masked t) (hcall : t.Undoes call) : Masked (t.restoreMask.back call none) := by
  have hcatch := h.catchable.restoreMask
  rw [SigTask.restoreMask] at hcatch ⊢
  rcases hcall with ⟨hv, hb⟩ | ⟨hv, rfl⟩
  · rw [if_neg (by simp [hv])]
    exact .back h.catchable hv hb h.returns
  rw [if_pos hv] at hcatch ⊢
  refine .back hcatch rfl (fun old ho => ?_) h.returns
  cases ho
  exact and_not_of_catchable (h.catchable.saved hv)

theorem SigTask.Undoes.frameMask (h : t.Undoes call) {old : U64} (ho : call = some old) :
    t.frameMask = old := by
  rw [SigTask.frameMask]
  rcases h with ⟨hv, hb⟩ | ⟨hv, hs⟩
  · rw [if_neg (by simp [hv])]
    exact hb old ho
  · rw [if_pos hv]
    exact Option.some.inj (hs.symm.trans ho)

theorem Masked.turn (h : Masked t) (hp : t.phase = .delivering call) (room : Bool) :
    Masked (t.turn call room) := by
  rw [SigTask.turn]
  split
  · exact h.restoreMask (h.delivering call hp)
  next sig _ =>
  have htake : Masked (t.take sig) :=
    h.congr rfl rfl rfl rfl rfl fun hi => by simp [SigTask.Interrupted, hp] at hi
  rcases (t.take sig).handle_cases call room sig with he | he | he <;> rw [he]
  · exact htake
  · exact htake.dead
  · have hcatch : Catchable ((t.take sig).setupFrame sig) :=
      ⟨and_not_uncatchable _, htake.catchable.waiting, nofun⟩
    exact .back hcatch rfl (fun old ho => (htake.delivering call hp).frameMask ho) h.returns

theorem Masked.deliver (h : Masked t) : Masked (step t .deliver) := by
  rw [step]
  split
  · next call hp =>
    have hcall := h.returning call hp
    split
    · next hno =>
      rcases hcall with ⟨hv, hb⟩ | ⟨hv, -⟩
      · exact .back h.catchable hv hb h.returns
      · rw [h.pending (.inr ⟨hv, call, hp⟩)] at hno
        cases hno
    · split
      · exact h.dead
      · exact {
          catchable := h.catchable.setPhase (.inl rfl)
          user := fun he => by cases he
          waiting := fun _ he => by cases he
          returning := fun _ he => by cases he
          pending := by rintro (⟨_, he⟩ | ⟨-, _, he⟩) <;> cases he
          delivering := fun call' he => by
            cases he
            exact hcall
          returns := h.returns }
  · exact h

theorem Masked.waitEnd (h : Masked t) (interrupted : Bool) : Masked (step t (.waitEnd interrupted)) := by
  rw [step]
  split
  · next old suspend hp =>
    have hold : t.phase.old = some old := by rw [hp]; rfl
    split
    · split
      · next hpend =>
        exact {
          catchable := h.catchable.setPhase (.inr hold.symm)
          user := fun he => by cases he
          waiting := fun _ _ => h.waiting old hold
          returning := fun _ he => by cases he
          pending := fun _ => hpend
          delivering := fun _ he => by cases he
          returns := h.returns }
      · exact h
    · split
      · exact h
      · exact .of_settled (h.catchable.waitEnd (h.catchable.waiting old hold) false)
          (h.waiting old hold) rfl h.returns
  · exact h

theorem Masked.save (h : Masked t) : Masked (step t .save) := by
  rw [step]
  split
  · next old hp =>
    exact {
      catchable := h.catchable.waitEnd (h.catchable.waiting old (by rw [hp]; rfl)) true
      user := fun he => by cases he
      waiting := fun _ he => by cases he
      returning := fun _ he => by
        cases he
        exact .inr ⟨rfl, rfl⟩
      pending := fun _ => h.pending (.inl ⟨old, hp⟩)
      delivering := fun _ he => by cases he
      returns := h.returns }
  · exact h

theorem Masked.cancel (h : Masked t) {sig : Nat} (hok : Keeps t (.cancel sig)) : Masked (t.cancel sig) := by
  obtain ⟨p, he⟩ := t.exists_cancel_eq sig
  rw [Keeps, he] at hok
  rw [he]
  exact h.congr rfl rfl rfl rfl rfl fun hi _ => hok hi

theorem Masked.step (h : Masked t) {e : Event} (hok : Keeps t e) : Masked (step t e) := by
  cases e with
  | cancel sig => exact h.cancel hok
  | post sig =>
    rw [SigMask.step]
    split
    · exact h
    · exact h.congr rfl rfl rfl rfl rfl fun _ hp => signalPending_post hp sig
  | mark sig => exact h.congr rfl rfl rfl rfl rfl fun _ hp => signalPending_post hp sig
  | groupExit => exact h.congr rfl rfl rfl rfl rfl fun _ _ => rfl
  | sigaction sig a =>
    rw [SigMask.step]
    split
    · exact h
    · exact h.congr rfl rfl rfl rfl rfl fun _ hp => hp
  | fork =>
    refine h.fromUser fun hu hv => .of_settled ⟨h.catchable.blocked, h.catchable.waiting, nofun⟩ rfl ?_ h.returns
    simp [SigTask.Settled, hu]
  | call => exact h.fromUser fun hu hv => .of_settled (h.catchable.setPhase (.inl rfl)) hv trivial h.returns
  | procmask how set =>
    exact h.fromUser fun hu hv => .of_settled (h.catchable.procmask how set) hv trivial h.returns
  | sigreturn mask => exact h.fromUser fun hu hv => .of_settled (h.catchable.sigreturn mask) hv trivial h.returns
  | wait suspend set =>
    cases set with
    | none => exact h.fromUser fun hu hv => .of_settled (h.catchable.setPhase (.inl rfl)) hv rfl h.returns
    | some set => exact h.fromUser fun hu hv => .of_settled (h.catchable.wait suspend set) hv trivial h.returns
  | waitEnd interrupted => exact h.waitEnd interrupted
  | save => exact h.save
  | deliver => exact h.deliver
  | turn room =>
    rw [SigMask.step]
    split
    · next call hp => exact h.turn hp room
    · exact h
  | irq =>
    refine h.fromUser fun hu hv => ?_
    split
    · exact h
    split
    · exact h.dead
    · exact .of_settled (h.catchable.setPhase (.inl rfl)) hv trivial h.returns
  | fault sig =>
    refine h.fromUser fun hu hv => ?_
    split
    · exact h.dead
    split
    · exact h.dead
    · exact .of_settled ((h.catchable.post sig).setPhase (.inl rfl)) hv trivial h.returns

/-- SIGKILL and SIGSTOP are never blocked. In every run in which no send takes the last
deliverable signal from an interrupted wait before it is delivered, every such wait is
back in user mode with its old mask in the handler frame, or in force. -/
theorem wait_restores_mask (es : List Event) :
    (run step {} es).blocked &&& uncatchable = 0#64 ∧
      (Along Keeps step {} es → ∀ r ∈ (run step {} es).returns, r.Restored) := by
  constructor
  · exact (invariant_foldl (P := Catchable) (fun _ e h => h.step e) es Masked.boot.catchable).blocked
  · intro hok
    exact (invariant_run (P := Masked) (fun _ _ h hk => h.step hk) Masked.boot hok).returns

def suspendAndStop : List Event :=
  [.wait true (some (sigBit sigcont)), .cancel 20, .post 20, .waitEnd true, .save]

theorem wait_restores_mask_suspendAndStop :
    (run step {} (suspendAndStop ++ [.deliver, .turn true, .turn true])).returns = [⟨0, none, 0⟩] ∧
      ∀ r ∈ (run step {} (suspendAndStop ++ [.deliver, .turn true, .turn true])).returns, r.Restored := by
  refine ⟨by decide +kernel, (wait_restores_mask _).2 ⟨trivial, ?_, trivial, trivial, trivial, trivial, trivial,
    trivial, trivial⟩⟩
  rintro (⟨_, hp⟩ | ⟨hv, -⟩)
  · cases hp
  · cases hv

/-- SIGCONT is sent before the task looks for signals on its way back: it takes SIGTSTP off
the pending set and is blocked itself, and the task goes on with the temporary mask. -/
theorem sigcont_leaves_temporary_mask :
    ¬ ∀ (es : List Event), ∀ r ∈ (run step {} es).returns, r.Restored := by
  intro h
  have hlost : (run step {} (suspendAndStop ++ [.cancel sigcont, .post sigcont, .deliver])).returns =
      [⟨0, none, sigBit sigcont⟩] := by
    decide +kernel
  have hback := h (suspendAndStop ++ [.cancel sigcont, .post sigcont, .deliver]) ⟨0, none, sigBit sigcont⟩
  rw [hlost] at hback
  have hmask : sigBit sigcont = 0 := hback List.mem_cons_self
  revert hmask
  decide

end Sic.SigMask
