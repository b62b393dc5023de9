import Sic.Proc.SchedTask

/-! Wait queues: `wait_event_interruptible` and `wait_event_timeout` of
`include/proc/wait.h` over the scheduler, one step for each critical section
and each test, interleaved with everything else the scheduler does. -/

namespace Sic

/-- Where a task stands in the loop of `wait_event`. A block with a number of
milliseconds is the sleep of the variant with a timeout. -/
inductive WaitPhase where
  | out
  | start
  | added
  | sawFalse
  | blocking (ms : Option Nat)
  | woken
  | leaving
deriving DecidableEq, Repr

def WaitPhase.queued : WaitPhase → Bool
  | .out | .start => false
  | .added | .sawFalse | .blocking _ | .woken | .leaving => true

def WaitPhase.waits : WaitPhase → Bool
  | .sawFalse | .blocking _ | .woken => true
  | .out | .start | .added | .leaving => false

structure Waiter where
  phase : WaitPhase := .out
  queue : Nat := 0
  cond : Nat := 0
  deadline : Option Nat := none
  round : Nat := 0

/-- `walk w` is what a `waitqueue_wake_all` that holds the lock of `w` has still
to visit; `wakes w` counts those that are complete. -/
structure WaitState (n : Nat) where
  sched : Sched n
  waiter : Nat → Waiter
  queue : Nat → List Nat
  walk : Nat → Option (List Nat)
  cond : Nat → Bool
  wakes : Nat → Nat

inductive WaitEvent (n : Nat) where
  | sched (e : SchedEvent n)
  | enter (c : Fin n) (w k : Nat) (ms : Option Nat) (now : Nat)
  | turn (c : Fin n) (now : Nat)
  | set (k : Nat) (b : Bool)
  | wakeAll (w : Nat)
  | wakeNext (w : Nat)

def Sched.waitBlock {n : Nat} (s : Sched n) (c : Fin n) (t : Nat) (ms : Option Nat) (now : Nat) : Sched n :=
  match ms with
  | none => s.taskBlock c t
  | some ms => s.taskSleepMs c t ms now

namespace WaitState

variable {n : Nat}

def phase (s : WaitState n) (t : Nat) : WaitPhase := (s.waiter t).phase

def setPhase (s : WaitState n) (t : Nat) (p : WaitPhase) : WaitState n :=
  { s with waiter := Function.update s.waiter t { s.waiter t with phase := p } }

def waitAdd (s : WaitState n) (t : Nat) : WaitState n :=
  let e := s.waiter t
  if s.walk e.queue ≠ none then s
  else
    { s with
      queue := Function.update s.queue e.queue (t :: s.queue e.queue)
      waiter := Function.update s.waiter t { e with phase := .added, round := e.round + 1 } }

def waitRemove (s : WaitState n) (t : Nat) (p : WaitPhase) : WaitState n :=
  let e := s.waiter t
  if s.walk e.queue ≠ none then s
  else { s.setPhase t p with queue := Function.update s.queue e.queue ((s.queue e.queue).erase t) }

def turn (s : WaitState n) (c : Fin n) (t now : Nat) : WaitState n :=
  let e := s.waiter t
  match e.phase with
  | .out => s
  | .start => s.waitAdd t
  | .added => s.setPhase t (if s.cond e.cond then .leaving else .sawFalse)
  | .sawFalse =>
    if (s.sched.task t).signalPending then s.setPhase t .leaving
    else
      match e.deadline with
      | none => s.setPhase t (.blocking none)
      | some d =>
        if d ≤ now then s.setPhase t .leaving
        else s.setPhase t (.blocking (some ((d - now) * 1000 / timerHz + 1)))
  | .blocking ms => { s.setPhase t .woken with sched := s.sched.waitBlock c t ms now }
  | .woken => s.waitRemove t .start
  | .leaving => s.waitRemove t .out

def interferes (s : WaitState n) (e : SchedEvent n) : Bool :=
  (e.leaver.bind s.sched.current).any fun t => s.phase t != .out

def enter (s : WaitState n) (t w k : Nat) (ms : Option Nat) (now : Nat) : WaitState n :=
  let deadline := ms.map fun ms => now + (ms * timerHz + 999) / 1000
  if s.phase t ≠ .out then s
  else
    { s with
      waiter := Function.update s.waiter t
        { s.waiter t with phase := .start, queue := w, cond := k, deadline := deadline } }

def wakeAll (s : WaitState n) (w : Nat) : WaitState n :=
  if s.walk w ≠ none then s else { s with walk := Function.update s.walk w (some (s.queue w)) }

def wakeNext (s : WaitState n) (w : Nat) : WaitState n :=
  match s.walk w with
  | none => s
  | some [] =>
    { s with walk := Function.update s.walk w none, wakes := Function.update s.wakes w (s.wakes w + 1) }
  | some (t :: rest) =>
    { s with sched := s.sched.taskWake t, walk := Function.update s.walk w (some rest) }

def step (s : WaitState n) : WaitEvent n → WaitState n
  | .sched e => if s.interferes e then s else { s with sched := s.sched.step e }
  | .enter c w k ms now => s.sched.byExecuting c s fun t => s.enter t w k ms now
  | .turn c now => s.sched.byExecuting c s fun t => s.turn c t now
  | .set k b => { s with cond := Function.update s.cond k b }
  | .wakeAll w => s.wakeAll w
  | .wakeNext w => s.wakeNext w

def init (n : Nat) : WaitState (n + 1) where
  sched := Sched.schedInit n
  waiter _ := { }
  queue _ := []
  walk _ := none
  cond _ := false
  wakes _ := 0

end WaitState

namespace Sched

variable {n : Nat} {s : Sched n} {c : Fin n} {t u : Nat}

theorem spares_waitBlock (h : u ≠ t) (ms : Option Nat) (now : Nat) :
    Spares True u s (s.waitBlock c t ms now) := by
  cases ms with
  | none => exact spares_taskBlock h
  | some ms => exact spares_taskSleepMs h ms now

theorem left_waitBlock (ms : Option Nat) (now : Nat) :
    ∃ x, (x = .blocked ∨ x = .sleeping) ∧ Left x t s (s.waitBlock c t ms now) := by
  cases ms with
  | none => exact ⟨.blocked, .inl rfl, left_taskBlock⟩
  | some ms => exact ⟨.sleeping, .inr rfl, left_taskSleepMs ms now⟩

theorem placed_waitBlock (h : Placed s) (c : Fin n) (t : Nat) (ms : Option Nat) (now : Nat) :
    Placed (s.waitBlock c t ms now) := by
  cases ms with
  | none => exact h.block c t
  | some ms => exact h.sleepMs c t ms now

end Sched

namespace WaitState

variable {n : Nat} {s s' : WaitState n} {c : Fin n} {t u w : Nat}

theorem byExecuting_cases {P : WaitState n → Prop} (h : P s) {f : Nat → WaitState n}
    (hf : ∀ t, s.sched.executing c = some t → P (f t)) : P (s.sched.byExecuting c s f) :=
  Sched.byExecuting_cases h hf

theorem wakeNext_cases {P : WaitState n → Prop} (h : P s)
    (hlast : s.walk w = some [] →
      P { s with walk := Function.update s.walk w none, wakes := Function.update s.wakes w (s.wakes w + 1) })
    (hnext : ∀ t rest, s.walk w = some (t :: rest) →
      P { s with sched := s.sched.taskWake t, walk := Function.update s.walk w (some rest) }) :
    P (s.wakeNext w) := by
  unfold wakeNext
  split
  · exact h
  · next hw => exact hlast hw
  · next t rest hw => exact hnext t rest hw

theorem turn_cases (c : Fin n) (t now : Nat) {P : WaitState n → Prop} (h : P s)
    (hadd : s.phase t = .start → s.walk (s.waiter t).queue = none →
      P { s with
        queue := Function.update s.queue (s.waiter t).queue (t :: s.queue (s.waiter t).queue)
        waiter := Function.update s.waiter t
          { s.waiter t with phase := .added, round := (s.waiter t).round + 1 } })
    (htest : ∀ p, (s.phase t = .added ∧ (p = .leaving ∨ p = .sawFalse)) ∨
      (s.phase t = .sawFalse ∧ (p = .leaving ∨ ∃ ms, p = .blocking ms)) → P (s.setPhase t p))
    (hblock : ∀ ms, s.phase t = .blocking ms →
      P { s.setPhase t .woken with sched := s.sched.waitBlock c t ms now })
    (hremove : ∀ p, (s.phase t = .woken ∧ p = .start) ∨ (s.phase t = .leaving ∧ p = .out) →
      s.walk (s.waiter t).queue = none →
      P { s.setPhase t p with
        queue := Function.update s.queue (s.waiter t).queue ((s.queue (s.waiter t).queue).erase t) }) :
    P (s.turn c t now) := by
  unfold turn waitAdd waitRemove
  extract_lets e
  split <;> rename_i hp
  · exact h
  · exact iteInduction (fun _ => h) fun hw => hadd hp (not_not.mp hw)
  · refine htest _ (.inl ⟨hp, ?_⟩)
    split
    · exact .inl rfl
    · exact .inr rfl
  · refine iteInduction (fun _ => htest _ (.inr ⟨hp, .inl rfl⟩)) fun _ => ?_
    split
    · exact htest _ (.inr ⟨hp, .inr ⟨none, rfl⟩⟩)
    · exact iteInduction (fun _ => htest _ (.inr ⟨hp, .inl rfl⟩)) fun _ => htest _ (.inr ⟨hp, .inr ⟨_, rfl⟩⟩)
  · exact hblock _ hp
  · exact iteInduction (fun _ => h) fun hw => hremove _ (.inl ⟨hp, rfl⟩) (not_not.mp hw)
  · exact iteInduction (fun _ => h) fun hw => hremove _ (.inr ⟨hp, rfl⟩) (not_not.mp hw)

structure Rests (u : Nat) (s s' : WaitState n) : Prop where
  sched : Sched.Spares True u s.sched s'.sched
  waiter : s'.waiter u = s.waiter u
  queue : ∀ w, u ∈ s.queue w → u ∈ s'.queue w

theorem rests_turn (h : u ≠ t) (now : Nat) : Rests u s (s.turn c t now) := by
  have hw (f : Waiter) : Function.update s.waiter t f u = s.waiter u := Function.update_of_ne h _ _
  refine turn_cases c t now ⟨.refl u _, rfl, fun _ => id⟩ (fun _ _ => ?_) (fun p _ => ?_)
    (fun ms _ => ?_) fun p _ _ => ?_
  · refine ⟨.refl u _, hw _, fun w hm => ?_⟩
    by_cases he : w = (s.waiter t).queue
    · subst he
      simpa using Or.inr hm
    · simpa [he] using hm
  · exact ⟨.refl u _, hw _, fun _ => id⟩
  · exact ⟨Sched.spares_waitBlock h ms now, hw _, fun _ => id⟩
  · refine ⟨.refl u _, hw _, fun w hm => ?_⟩
    by_cases he : w = (s.waiter t).queue
    · subst he
      simpa using (List.mem_erase_of_ne h).mpr hm
    · simpa [he] using hm

structure Sound (t : Nat) (s : WaitState n) : Prop where
  live : t ∈ s.sched.allTasks
  notIdle : ¬ s.sched.isIdle t
  state : (s.sched.stateOf t = .ready ∨ s.sched.stateOf t = .running) ∨
    s.phase t = .woken ∧ (s.sched.stateOf t = .blocked ∨ s.sched.stateOf t = .sleeping)
  queued : (s.phase t).queued = true → t ∈ s.queue (s.waiter t).queue

structure Inv (s : WaitState n) : Prop where
  placed : Sched.Placed s.sched
  sound : ∀ t, s.phase t ≠ .out → s.Sound t

theorem rests_step (h : s.Inv) (hu : s.phase u ≠ .out) (e : WaitEvent n)
    (hown : ∀ c now, e = .turn c now → s.sched.executing c ≠ some u) : Rests u s (s.step e) := by
  have hrefl : Rests u s s := ⟨.refl u _, rfl, fun _ => id⟩
  cases e with
  | sched e =>
    refine iteInduction (fun _ => hrefl) fun hi => ⟨?_, rfl, fun _ => id⟩
    refine Sched.spares_step s.sched e (fun _ _ _ _ _ _ => trivial) (.inl (h.sound u hu).live) fun c hc hcur =>
      absurd ?_ hi
    simp [interferes, hc, hcur, hu]
  | enter c w k ms now =>
    refine byExecuting_cases hrefl fun t _ => ?_
    refine iteInduction (fun _ => hrefl) fun hp => ⟨.refl u _, Function.update_of_ne ?_ _ _, fun _ => id⟩
    rintro rfl
    exact hp hu
  | turn c now =>
    refine byExecuting_cases hrefl fun t ht => rests_turn ?_ now
    rintro rfl
    exact hown c now rfl ht
  | set k b => exact ⟨.refl u _, rfl, fun _ => id⟩
  | wakeAll w => exact iteInduction (fun _ => hrefl) fun _ => ⟨.refl u _, rfl, fun _ => id⟩
  | wakeNext w =>
    refine wakeNext_cases hrefl (fun _ => ⟨.refl u _, rfl, fun _ => id⟩) fun t rest _ => ?_
    exact ⟨Sched.spares_taskWake t, rfl, fun _ => id⟩

theorem Sound.rests (h : s.Sound u) (hr : Rests u s s') : s'.Sound u := by
  have hz : s.sched.stateOf u ≠ .zombie := by
    have := h.state
    grind
  have hph : s'.phase u = s.phase u := congrArg Waiter.phase hr.waiter
  refine ⟨hr.sched.live h.live hz, fun h' => h.notIdle (hr.sched.idle.mp h'), ?_, ?_⟩
  · have hs := hr.sched.task.state
    have := h.state
    grind [Sched.stateOf]
  · rw [hph, hr.waiter]
    exact fun hq => hr.queue _ (h.queued hq)

theorem phase_setPhase (p : WaitPhase) : (s.setPhase t p).phase t = p := by
  simp [phase, setPhase]

theorem sound_turn (h : s.Sound t) (hr : s.sched.stateOf t = .running) (now : Nat) :
    (s.turn c t now).Sound t := by
  refine turn_cases c t now h (fun _ _ => ?_) (fun p hp => ?_) (fun ms hp => ?_) fun p hp _ => ?_
  · refine ⟨h.live, h.notIdle, .inl (.inr hr), fun _ => ?_⟩
    simp
  · refine ⟨h.live, h.notIdle, .inl (.inr hr), fun _ => ?_⟩
    have hq : (s.phase t).queued = true := by
      rcases hp with ⟨hp, _⟩ | ⟨hp, _⟩ <;> rw [hp] <;> rfl
    simpa [setPhase] using h.queued hq
  · obtain ⟨x, hx, hl⟩ := Sched.left_waitBlock (s := s.sched) (c := c) (t := t) ms now
    refine ⟨hl.live.mpr h.live, fun hi => h.notIdle (hl.idle.mp hi), ?_, fun _ => ?_⟩
    · have hst := hl.state
      have hw : (s.setPhase t .woken).phase t = .woken := phase_setPhase _
      grind [phase]
    · have hq : (s.phase t).queued = true := by
        rw [hp]
        rfl
      simpa [setPhase] using h.queued hq
  · refine ⟨h.live, h.notIdle, .inl (.inr hr), fun hq => ?_⟩
    rcases hp with ⟨_, rfl⟩ | ⟨_, rfl⟩ <;> simp [phase, setPhase, WaitPhase.queued] at hq

theorem placed_turn (h : Sched.Placed s.sched) (now : Nat) : Sched.Placed (s.turn c t now).sched := by
  refine turn_cases c t now (P := fun s' => Sched.Placed s'.sched) h (fun _ _ => h) (fun _ _ => h)
    (fun ms _ => ?_) fun _ _ _ => h
  exact Sched.placed_waitBlock h c t ms now

theorem step_of_out (hp : s.phase t = .out) (e : WaitEvent n) :
    (s.step e).waiter t = s.waiter t ∨ ((s.step e).phase t = .start ∧
      ((s.step e).waiter t).round = (s.waiter t).round ∧ (s.step e).Sound t) := by
  cases e with
  | sched e =>
    refine .inl ?_
    exact iteInduction (motive := fun s' : WaitState n => s'.waiter t = s.waiter t) (fun _ => rfl) fun _ => rfl
  | enter c w k ms now =>
    refine byExecuting_cases (P := fun s' => s'.waiter t = s.waiter t ∨ (s'.phase t = .start ∧
      (s'.waiter t).round = (s.waiter t).round ∧ s'.Sound t)) (.inl rfl) fun u hu => ?_
    by_cases htu : t = u
    · subst htu
      obtain ⟨_, hl, hi, hr⟩ := Sched.executing_eq_some.mp hu
      rw [enter, if_neg (not_not.mpr hp)]
      refine .inr ⟨by simp [phase], by simp, hl, hi, .inl (.inr hr), fun hq => ?_⟩
      simp [phase, WaitPhase.queued] at hq
    · refine .inl ?_
      refine iteInduction (motive := fun s' : WaitState n => s'.waiter t = s.waiter t) (fun _ => rfl) fun _ => ?_
      exact Function.update_of_ne htu _ _
  | turn c now =>
    refine .inl (byExecuting_cases (P := fun s' => s'.waiter t = s.waiter t) rfl fun u _ => ?_)
    by_cases htu : t = u
    · subst htu
      have hp : (s.waiter t).phase = .out := hp
      rw [turn, hp]
    · exact (rests_turn htu now).waiter
  | set k b => exact .inl rfl
  | wakeAll w =>
    refine .inl ?_
    exact iteInduction (motive := fun s' : WaitState n => s'.waiter t = s.waiter t) (fun _ => rfl) fun _ => rfl
  | wakeNext w =>
    exact .inl (wakeNext_cases (P := fun s' => s'.waiter t = s.waiter t) rfl (fun _ => rfl) fun _ _ _ => rfl)

theorem step_waiter_cases (h : s.Inv) (t : Nat) (e : WaitEvent n) {P : WaitState n → Prop}
    (hown : ∀ c now, s.sched.executing c = some t → s.phase t ≠ .out → P (s.turn c t now))
    (hrest : s.phase t ≠ .out → Rests t s (s.step e) → P (s.step e))
    (hout : s.phase t = .out → (s.step e).waiter t = s.waiter t ∨ ((s.step e).phase t = .start ∧
      ((s.step e).waiter t).round = (s.waiter t).round ∧ (s.step e).Sound t) → P (s.step e)) : P (s.step e) := by
  by_cases hp : s.phase t = .out
  · exact hout hp (step_of_out hp e)
  by_cases hturn : ∃ c now, e = .turn c now ∧ s.sched.executing c = some t
  · obtain ⟨c, now, rfl, he⟩ := hturn
    rw [step, Sched.byExecuting, he]
    exact hown c now he hp
  · exact hrest hp (rests_step h hp e fun c now hc he => hturn ⟨c, now, hc, he⟩)

theorem placed_of_step (h : Sched.Placed s.sched) (e : WaitEvent n) : Sched.Placed (s.step e).sched := by
  let P (s' : WaitState n) : Prop := Sched.Placed s'.sched
  change P (s.step e)
  cases e with
  | sched e => exact iteInduction (fun _ => h) fun _ => Sched.placed_step s.sched e h
  | enter c w k ms now => exact byExecuting_cases h fun t _ => iteInduction (fun _ => h) fun _ => h
  | turn c now => exact byExecuting_cases h fun t _ => placed_turn h now
  | set k b => exact h
  | wakeAll w => exact iteInduction (fun _ => h) fun _ => h
  | wakeNext w => exact wakeNext_cases h (fun _ => h) fun t _ _ => h.wake t

theorem inv_step (s : WaitState n) (e : WaitEvent n) (h : s.Inv) : (s.step e).Inv := by
  refine ⟨placed_of_step h.placed e, fun t => ?_⟩
  refine step_waiter_cases h t e (P := fun s' => s'.phase t ≠ .out → s'.Sound t) (fun c now he hp _ => ?_)
    (fun hp hr _ => (h.sound t hp).rests hr) fun hp hout hp' => ?_
  · exact sound_turn (h.sound t hp) (Sched.executing_eq_some.mp he).2.2.2 now
  obtain hw | ⟨_, _, hs⟩ := hout
  · exact absurd ((congrArg Waiter.phase hw).trans hp) hp'
  · exact hs

theorem inv_init (n : Nat) : (init n).Inv :=
  ⟨Sched.placed_schedInit n, fun _ hp => absurd rfl hp⟩

structure Told (t : Nat) (s : WaitState n) : Prop where
  before : s.phase t = .added ∨ s.phase t = .sawFalse ∨ (∃ ms, s.phase t = .blocking ms) →
    (s.sched.task t).wakePending = true
  after : s.phase t = .woken → s.sched.stateOf t = .ready ∨ s.sched.stateOf t = .running

theorem Told.rests (h : Told t s) (hr : Rests t s s') : Told t s' := by
  have hph : s'.phase t = s.phase t := congrArg Waiter.phase hr.waiter
  refine ⟨fun hb => hr.sched.task.wake (h.before (hph ▸ hb)), fun hw => ?_⟩
  have hst := h.after (hph ▸ hw)
  have := hr.sched.task.state
  grind [Sched.stateOf]

theorem Told.turn (h : Told t s) (hr : s.sched.stateOf t = .running) (now : Nat)
    (hround : ((s.turn c t now).waiter t).round = (s.waiter t).round) : Told t (s.turn c t now) := by
  revert hround
  refine turn_cases c t now (P := fun s' => (s'.waiter t).round = (s.waiter t).round → Told t s')
    (fun _ => h) (fun _ _ hround => ?_) (fun p hp _ => ?_) (fun ms hp _ => ?_) fun p hp _ _ => ?_
  · simp at hround
  · refine ⟨fun _ => h.before ?_, fun _ => .inr hr⟩
    rcases hp with ⟨hp, _⟩ | ⟨hp, _⟩
    · exact .inl hp
    · exact .inr (.inl hp)
  · have hw := h.before (.inr (.inr ⟨ms, hp⟩))
    obtain ⟨x, _, hleft⟩ := Sched.left_waitBlock (s := s.sched) (c := c) (t := t) ms now
    have hst := hleft.state
    rw [if_pos hw] at hst
    refine ⟨fun hb => ?_, fun _ => .inr (hst.trans hr)⟩
    have hph : (s.setPhase t .woken).phase t = .woken := phase_setPhase _
    grind [phase]
  · refine ⟨fun hb => ?_, fun _ => .inr hr⟩
    have hph : (s.setPhase t p).phase t = p := phase_setPhase _
    grind [phase]

theorem walk_step (s : WaitState n) (e : WaitEvent n) (hn : e ≠ .wakeNext w) (hw : s.walk w ≠ none) :
    (s.step e).walk w = s.walk w ∧ (s.step e).wakes w = s.wakes w := by
  let P (s' : WaitState n) : Prop := s'.walk w = s.walk w ∧ s'.wakes w = s.wakes w
  change P (s.step e)
  cases e with
  | sched e => exact iteInduction (fun _ => ⟨rfl, rfl⟩) fun _ => ⟨rfl, rfl⟩
  | enter c w' k ms now =>
    exact byExecuting_cases ⟨rfl, rfl⟩ fun t _ => iteInduction (fun _ => ⟨rfl, rfl⟩) fun _ => ⟨rfl, rfl⟩
  | turn c now =>
    refine byExecuting_cases ⟨rfl, rfl⟩ fun t _ => ?_
    exact turn_cases c t now ⟨rfl, rfl⟩ (fun _ _ => ⟨rfl, rfl⟩) (fun _ _ => ⟨rfl, rfl⟩) (fun _ _ => ⟨rfl, rfl⟩)
      fun _ _ _ => ⟨rfl, rfl⟩
  | set k b => exact ⟨rfl, rfl⟩
  | wakeAll w' =>
    refine iteInduction (fun _ => ⟨rfl, rfl⟩) fun hw' => ⟨Function.update_of_ne ?_ _ _, rfl⟩
    rintro rfl
    exact hw' hw
  | wakeNext w' =>
    have hne : w ≠ w' := fun he => hn (he ▸ rfl)
    refine wakeNext_cases ⟨rfl, rfl⟩ (fun _ => ?_) fun _ _ _ => ?_
    · exact ⟨Function.update_of_ne hne _ _, Function.update_of_ne hne _ _⟩
    · exact ⟨Function.update_of_ne hne _ _, rfl⟩

theorem told_taskWake (h : s.Sound t) (walk : Nat → Option (List Nat)) :
    Told t { s with sched := s.sched.taskWake t, walk := walk } := by
  rcases h.state with hst | ⟨hp, hst⟩
  · rw [Sched.taskWake_of_runnable hst]
    refine ⟨fun _ => by simp [Sched.setTask], fun _ => ?_⟩
    rwa [Sched.stateOf_setTask, if_pos rfl]
  · rw [Sched.taskWake_of_asleep hst]
    refine ⟨fun hb => ?_, fun _ => .inl Sched.stateOf_rqPush⟩
    have hb : s.phase t = .added ∨ s.phase t = .sawFalse ∨ (∃ ms, s.phase t = .blocking ms) := hb
    simp [hp] at hb

structure Due (t r w g : Nat) (s : WaitState n) : Prop where
  round : r ≤ (s.waiter t).round
  due : (s.waiter t).round = r → Told t s ∨ (s.wakes w = g ∧ (s.phase t).queued = true ∧
    (s.waiter t).queue = w ∧ ∃ rest, s.walk w = some rest ∧ t ∈ rest)

theorem Due.turn {r g : Nat} (h : Due t r w g s) (he : s.sched.executing c = some t) (now : Nat) :
    Due t r w g (s.turn c t now) := by
  obtain ⟨_, _, _, hr⟩ := Sched.executing_eq_some.mp he
  have hround : ((s.turn c t now).waiter t).round = (s.waiter t).round ∨
      ((s.turn c t now).waiter t).round = (s.waiter t).round + 1 :=
    turn_cases c t now (P := fun s' => (s'.waiter t).round = (s.waiter t).round ∨
      (s'.waiter t).round = (s.waiter t).round + 1) (.inl rfl) (fun _ _ => .inr (by simp))
      (fun _ _ => .inl (by simp [setPhase])) (fun _ _ => .inl (by simp [setPhase]))
      fun _ _ _ => .inl (by simp [setPhase])
  have hle := h.round
  refine ⟨by omega, fun hr' => ?_⟩
  have hsame : ((s.turn c t now).waiter t).round = (s.waiter t).round := by omega
  rcases h.due (by omega) with ht | ⟨hg, hq, hw, rest, hwalk, hmem⟩
  · exact .inl (ht.turn hr now hsame)
  -- the lock is held, so the entry can be neither added nor removed
  refine .inr ?_
  refine turn_cases c t now (P := fun s' => s'.wakes w = g ∧ (s'.phase t).queued = true ∧
    (s'.waiter t).queue = w ∧ ∃ rest, s'.walk w = some rest ∧ t ∈ rest) ⟨hg, hq, hw, rest, hwalk, hmem⟩
    (fun hp _ => ?_) (fun p hp => ?_) (fun ms hp => ?_) fun p _ hn => ?_
  · rw [hp] at hq
    cases hq
  · refine ⟨hg, ?_, by simpa [setPhase] using hw, rest, hwalk, hmem⟩
    rw [phase_setPhase]
    rcases hp with ⟨_, rfl | rfl⟩ | ⟨_, rfl | ⟨_, rfl⟩⟩ <;> rfl
  · exact ⟨hg, by simp [phase, setPhase, WaitPhase.queued], by simpa [setPhase] using hw, rest, hwalk, hmem⟩
  · rw [hw, hwalk] at hn
    cases hn

theorem Due.rests {r g : Nat} (hd : Due t r w g s) (hs : s.Sound t) (e : WaitEvent n)
    (hr : Rests t s (s.step e)) : Due t r w g (s.step e) := by
  have hph : (s.step e).phase t = s.phase t := congrArg Waiter.phase hr.waiter
  refine ⟨hr.waiter ▸ hd.round, fun hround => ?_⟩
  rcases hd.due (hr.waiter ▸ hround) with ht | ⟨hg, hq, hw, rest, hwalk, hmem⟩
  · exact .inl (ht.rests hr)
  by_cases hn : e = .wakeNext w
  · subst hn
    refine wakeNext_cases (P := fun s' => Told t s' ∨ (s'.wakes w = g ∧ (s'.phase t).queued = true ∧
      (s'.waiter t).queue = w ∧ ∃ rest, s'.walk w = some rest ∧ t ∈ rest))
      (.inr ⟨hg, hq, hw, rest, hwalk, hmem⟩) (fun hlast => ?_) fun u rest' hnext => ?_
    · rw [hlast] at hwalk
      cases hwalk
      cases hmem
    · rw [hnext] at hwalk
      cases hwalk
      rcases List.mem_cons.mp hmem with rfl | hmem
      · exact .inl (told_taskWake hs _)
      · exact .inr ⟨hg, hq, hw, rest', Function.update_self _ _ _, hmem⟩
  · obtain ⟨hwalk', hg'⟩ := walk_step s e hn (by rw [hwalk]; exact nofun)
    exact .inr ⟨hg'.trans hg, by rwa [hph], by rwa [hr.waiter], rest, hwalk'.trans hwalk, hmem⟩

theorem told_of_idle (hp : s.phase t = .out ∨ s.phase t = .start) : Told t s := by
  refine ⟨fun hb => ?_, fun hw => ?_⟩
  · rcases hp with hp | hp <;> simp [hp] at hb
  · rcases hp with hp | hp <;> simp [hp] at hw

theorem due_step {r g : Nat} (s : WaitState n) (e : WaitEvent n) (h : s.Inv) (hd : Due t r w g s) :
    Due t r w g (s.step e) := by
  refine step_waiter_cases h t e (fun c now he _ => hd.turn he now)
    (fun hp hr => hd.rests (h.sound t hp) e hr) fun hp hout => ?_
  obtain hw | ⟨hstart, hround, _⟩ := hout
  · exact ⟨hw ▸ hd.round, fun _ => .inl (told_of_idle (.inl ((congrArg Waiter.phase hw).trans hp)))⟩
  · exact ⟨hround ▸ hd.round, fun _ => .inl (told_of_idle (.inr hstart))⟩

structure Entry (t r w : Nat) (s : WaitState n) : Prop where
  round : r ≤ (s.waiter t).round
  queue : (s.waiter t).round = r → (s.phase t).queued = true → (s.waiter t).queue = w

theorem entry_step {r : Nat} (s : WaitState n) (e : WaitEvent n) (h : s.Inv) (hd : Entry t r w s) :
    Entry t r w (s.step e) := by
  refine step_waiter_cases h t e (fun c now _ _ => ?_) (fun _ hr => ?_) fun hp hout => ?_
  · refine turn_cases c t now hd (fun _ _ => ?_) (fun p hp => ?_) (fun ms hp => ?_) fun p hp _ => ?_
    · have hle := hd.round
      exact ⟨by simp; omega, fun hr => by simp at hr; omega⟩
    · have hq : (s.phase t).queued = true := by
        rcases hp with ⟨hp, _⟩ | ⟨hp, _⟩ <;> rw [hp] <;> rfl
      exact ⟨by simpa [setPhase] using hd.round,
        fun hr _ => by simpa [setPhase] using hd.queue (by simpa [setPhase] using hr) hq⟩
    · have hq : (s.phase t).queued = true := by rw [hp]; rfl
      exact ⟨by simpa [setPhase] using hd.round,
        fun hr _ => by simpa [setPhase] using hd.queue (by simpa [setPhase] using hr) hq⟩
    · refine ⟨by simpa [setPhase] using hd.round, fun _ hq => ?_⟩
      rcases hp with ⟨_, rfl⟩ | ⟨_, rfl⟩ <;> simp [phase, setPhase, WaitPhase.queued] at hq
  · have hph : (s.step e).phase t = s.phase t := congrArg Waiter.phase hr.waiter
    exact ⟨hr.waiter ▸ hd.round, fun hround hq => hr.waiter ▸ hd.queue (hr.waiter ▸ hround) (hph ▸ hq)⟩
  · obtain hw | ⟨hstart, hround, _⟩ := hout
    · have hph : (s.step e).phase t = .out := (congrArg Waiter.phase hw).trans hp
      refine ⟨hw ▸ hd.round, fun _ hq => ?_⟩
      rw [hph] at hq
      cases hq
    · refine ⟨hround ▸ hd.round, fun _ hq => ?_⟩
      rw [hstart] at hq
      cases hq

theorem Entry.due {r : Nat} (h : Entry t r w s) (hinv : s.Inv) (hlock : s.walk w = none) :
    Due t r w (s.wakes w) (s.wakeAll w) := by
  rw [wakeAll, if_neg (not_not.mpr hlock)]
  refine ⟨h.round, fun hr => ?_⟩
  cases hq : (s.phase t).queued with
  | true =>
    have hp : s.phase t ≠ .out := by
      intro hp
      rw [hp] at hq
      cases hq
    have hw := h.queue hr hq
    exact .inr ⟨rfl, hq, hw, s.queue w, Function.update_self _ _ _, hw ▸ (hinv.sound t hp).queued hq⟩
  | false =>
    refine .inl (told_of_idle ?_)
    change s.phase t = .out ∨ s.phase t = .start
    cases hp : s.phase t <;> simp [hp, WaitPhase.queued] at hq ⊢

def SawFalse (s : WaitState n) (t w k : Nat) : Prop :=
  (s.phase t).waits = true ∧ (s.waiter t).queue = w ∧ (s.waiter t).cond = k

/-- A waiter saw the condition false; later it is made true and, after that,
`waitqueue_wake_all` takes the queue's lock and completes. Whatever is
interleaved, the waiter is then on the run queue or a CPU if it has blocked,
and if it has not its block attempt finds the wake on record, for as long as it
is in the same turn of its loop. -/
theorem wait_event_no_lost_wakeup (n : Nat) (es₁ es₂ es₃ : List (WaitEvent (n + 1))) (t w k : Nat)
    (s₁ s₂ s₃ : WaitState (n + 1)) (h₁ : s₁ = run step (init n) es₁)
    (h₂ : s₂ = run step s₁ (.set k true :: es₂)) (h₃ : s₃ = run step s₂ (.wakeAll w :: es₃))
    (hsaw : s₁.SawFalse t w k) (hlock : s₂.walk w = none) (hdone : s₂.wakes w < s₃.wakes w)
    (hround : (s₃.waiter t).round = (s₁.waiter t).round) :
    (s₃.phase t = .woken → t ∈ s₃.sched.rq ∨ s₃.sched.busy t) ∧
      (s₃.phase t = .sawFalse ∨ (∃ ms, s₃.phase t = .blocking ms) → (s₃.sched.task t).wakePending = true) := by
  have hinv₁ : s₁.Inv := h₁ ▸ invariant_foldl inv_step es₁ (inv_init n)
  have hentry₁ : Entry t (s₁.waiter t).round w s₁ := ⟨le_rfl, fun _ _ => hsaw.2.1⟩
  have hstep (s : WaitState (n + 1)) (e : WaitEvent (n + 1))
      (h : s.Inv ∧ Entry t (s₁.waiter t).round w s) : (s.step e).Inv ∧ Entry t (s₁.waiter t).round w (s.step e) :=
    ⟨inv_step s e h.1, entry_step s e h.1 h.2⟩
  obtain ⟨hinv₂, hentry₂⟩ : s₂.Inv ∧ Entry t (s₁.waiter t).round w s₂ :=
    h₂ ▸ invariant_foldl hstep _ ⟨hinv₁, hentry₁⟩
  have hdue₂ : Due t (s₁.waiter t).round w (s₂.wakes w) (s₂.wakeAll w) :=
    hentry₂.due hinv₂ hlock
  have hstep' (s : WaitState (n + 1)) (e : WaitEvent (n + 1))
      (h : s.Inv ∧ Due t (s₁.waiter t).round w (s₂.wakes w) s) :
      (s.step e).Inv ∧ Due t (s₁.waiter t).round w (s₂.wakes w) (s.step e) :=
    ⟨inv_step s e h.1, due_step s e h.1 h.2⟩
  obtain ⟨hinv₃, hdue₃⟩ : s₃.Inv ∧ Due t (s₁.waiter t).round w (s₂.wakes w) s₃ :=
    h₃ ▸ invariant_foldl hstep' es₃ ⟨inv_step s₂ (.wakeAll w) hinv₂, hdue₂⟩
  obtain ht | ⟨hg, _⟩ := hdue₃.due hround
  · refine ⟨fun hp => ?_, fun hp => ht.before (.inr hp)⟩
    have hs := hinv₃.sound t (by rw [hp]; exact nofun)
    exact hinv₃.placed.runnable hs.live hs.notIdle (ht.after hp)
  · omega

/-- The boot task tests the condition and, once a waker has made it true,
blocks; the wake comes after. -/
theorem wait_event_no_lost_wakeup_boot :
    (run step (init 0) [.enter 0 0 0 none 0, .turn 0 0, .turn 0 0, .set 0 true, .turn 0 0,
      .turn 0 0]).sched.stateOf 0 =
        .blocked ∧
      let s₃ := run step (init 0) [.enter 0 0 0 none 0, .turn 0 0, .turn 0 0, .set 0 true, .turn 0 0, .turn 0 0,
        .wakeAll 0, .wakeNext 0, .wakeNext 0]
      s₃.phase 0 = .woken ∧ (0 ∈ s₃.sched.rq ∨ s₃.sched.busy 0) := by
  refine ⟨by decide, by decide, ?_⟩
  exact (wait_event_no_lost_wakeup 0 [.enter 0 0 0 none 0, .turn 0 0, .turn 0 0] [.turn 0 0, .turn 0 0]
    [.wakeNext 0, .wakeNext 0] 0 0 0 _ _ _ rfl rfl rfl ⟨by decide, by decide, by decide⟩ (by decide) (by decide)
    (by decide)).1 (by decide)

end WaitState

end Sic
