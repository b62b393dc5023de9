import Sic.Proc.SchedRun

/-! What a critical section of the scheduler can do to a task that does not
itself act in it, and where a runnable task is to be found. -/

namespace Sic

def Task.identity (k : Task) : Nat × Nat × Bool × Bool := (k.id, k.tgid, k.isThread, k.isUser)

structure Passive (g : Prop) (k k' : Task) : Prop where
  state : k'.state = k.state ∨ k'.state = .ready ∨ k'.state = .running
  wake : k.wakePending = true → k'.wakePending = true
  sig : ∀ i, i ≠ sigalrm - 1 → k'.sigPending.getLsbD i = k.sigPending.getLsbD i
  group : k'.groupExit = k.groupExit ∧ k'.exitCode = k.exitCode ∨ (g ∧ k'.groupExit = true ∧
    k'.state ≠ .blocked ∧ (k'.wakePending = true ∨ k.state = .blocked ∨ k.state = .sleeping))
  identity : k'.identity = k.identity
  reaped : k.reaped = true → k'.reaped = true

namespace Passive

variable {g : Prop} {k k' k'' : Task}

theorem of_state (hs : k'.state = k.state ∨ k'.state = .ready ∨ k'.state = .running)
    (hi : k'.identity = k.identity) (hw : (k'.wakePending, k'.sigPending) = (k.wakePending, k.sigPending))
    (hg : (k'.groupExit, k'.exitCode) = (k.groupExit, k.exitCode)) (hr : k.reaped = true → k'.reaped = true) :
    Passive g k k' := by
  obtain ⟨hw, hp⟩ := Prod.mk.inj hw
  obtain ⟨hg, hc⟩ := Prod.mk.inj hg
  exact ⟨hs, fun h => hw.trans h, fun _ _ => by rw [hp], .inl ⟨hg, hc⟩, hi, hr⟩

theorem refl (k : Task) : Passive g k k := of_state (.inl rfl) rfl rfl rfl id

theorem trans (h : Passive g k k') (h' : Passive g k' k'') : Passive g k k'' where
  state := by
    have := h.state
    have := h'.state
    grind
  wake := h'.wake ∘ h.wake
  sig i hi := (h'.sig i hi).trans (h.sig i hi)
  group := by
    have := h.state
    have := h'.state
    have := h'.wake
    have := h.group
    have := h'.group
    grind
  identity := h'.identity.trans h.identity
  reaped := h'.reaped ∘ h.reaped

theorem user (h : Passive g k k') : k'.isUser = k.isUser := congrArg (·.2.2.2) h.identity

theorem tgid (h : Passive g k k') : k'.tgid = k.tgid := congrArg (·.2.1) h.identity

end Passive

def SchedEvent.leaver {n : Nat} : SchedEvent n → Option (Fin n)
  | .sleep c _ _ | .block c | .stop c _ | .exit c _ => some c
  | _ => none

def SchedEvent.newTask {n : Nat} : SchedEvent n → Option Nat
  | .start t _ | .initAp _ t => some t
  | _ => none

theorem getLsbD_sigBit (sig i : Nat) : (sigBit sig).getLsbD i = (decide (i < 64) && decide (i = sig - 1)) := by
  rw [sigBit, BitVec.getLsbD_shiftLeft, BitVec.getLsbD_one]
  by_cases h : i = sig - 1
  · simp [h]
  · have : ¬ (i - (sig - 1) = 0 ∧ ¬ i < sig - 1) := by omega
    grind

namespace Sched

variable {n : Nat} {s s' s'' : Sched n} {c : Fin n} {t u : Nat} {g : Prop}

def executing (s : Sched n) (c : Fin n) : Option Nat :=
  (s.current c).filter fun t => decide (t ∈ s.allTasks ∧ ¬ s.isIdle t ∧ s.stateOf t = .running)

theorem executing_eq_some : s.executing c = some t ↔ s.current c = some t ∧ t ∈ s.allTasks ∧
    ¬ s.isIdle t ∧ s.stateOf t = .running := by
  simp [executing, Option.filter_eq_some_iff]

def byExecuting {σ : Type*} (s : Sched n) (c : Fin n) (x : σ) (f : Nat → σ) : σ :=
  match s.executing c with
  | none => x
  | some t => f t

theorem byExecuting_cases {σ : Type*} {x : σ} {P : σ → Prop} (h : P x) {f : Nat → σ}
    (hf : ∀ t, s.executing c = some t → P (f t)) : P (s.byExecuting c x f) := by
  unfold byExecuting
  split
  · exact h
  · next t ht => exact hf t ht

theorem task_setTask (f : Task → Task) :
    (s.setTask t f).task u = if u = t then f (s.task t) else s.task u := by
  by_cases h : u = t
  · subst h
    simp [setTask]
  · simp [setTask, h]

structure Spares (g : Prop) (u : Nat) (s s' : Sched n) : Prop where
  task : Passive g (s.task u) (s'.task u)
  live : u ∈ s.allTasks → s.stateOf u ≠ .zombie → u ∈ s'.allTasks
  old : u ∈ s'.allTasks → u ∈ s.allTasks
  idle : s'.isIdle u ↔ s.isIdle u
  next : s.nextId ≤ s'.nextId

theorem Spares.refl (u : Nat) (s : Sched n) : Spares g u s s := ⟨.refl _, fun h _ => h, id, .rfl, le_rfl⟩

theorem Spares.of_tasks (h : s'.task = s.task) (hl : s'.allTasks = s.allTasks) (hi : s'.isIdle u ↔ s.isIdle u)
    (hn : s.nextId ≤ s'.nextId) : Spares g u s s' :=
  ⟨h ▸ .refl _, fun hu _ => hl ▸ hu, fun hu => hl ▸ hu, hi, hn⟩

theorem Spares.trans (h : Spares g u s s') (h' : Spares g u s' s'') : Spares g u s s'' where
  task := h.task.trans h'.task
  live hu hz := by
    refine h'.live (h.live hu hz) ?_
    have := h.task.state
    grind [stateOf]
  old := h.old ∘ h'.old
  idle := h'.idle.trans h.idle
  next := h.next.trans h'.next

variable {f : Task → Task} {x : TaskState}

theorem spares_setTask (hf : u = t → Passive g (s.task t) (f (s.task t))) : Spares g u s (s.setTask t f) := by
  refine ⟨?_, fun h _ => h, id, .rfl, le_rfl⟩
  rw [task_setTask]
  split
  · next h =>
    subst h
    exact hf rfl
  · exact .refl _

theorem spares_setTask_of_ne (h : u ≠ t) : Spares g u s (s.setTask t f) :=
  spares_setTask fun he => absurd he h

theorem spares_setReady (t : Nat) : Spares g u s (s.setState t .ready) :=
  spares_setTask fun _ => .of_state (.inr (.inl rfl)) rfl rfl rfl id

theorem spares_rqPush (t : Nat) : Spares g u s (s.rqPush t) :=
  ⟨(spares_setReady (s := s) t).task, fun h _ => h, id, .rfl, le_rfl⟩

theorem spares_addWake : Spares g u s (s.setTask t fun k => { k with wakePending := true }) :=
  spares_setTask fun _ => ⟨.inl rfl, fun _ => rfl, fun _ _ => rfl, .inl ⟨rfl, rfl⟩, rfl, id⟩

theorem idle_setCurrent (cur : Option Nat) (i : Fin n) :
    idle { s with cpus := Function.update s.cpus c { s.cpus c with current := cur } } i = s.idle i := by
  by_cases h : i = c
  · subst h
    simp [idle]
  · simp [idle, h]

theorem spares_setCurrent (cur : Option Nat) :
    Spares g u s { s with cpus := Function.update s.cpus c { s.cpus c with current := cur } } := by
  refine .of_tasks rfl rfl ?_ le_rfl
  simp only [isIdle, idle_setCurrent]

theorem spares_switchTo (prev next : Nat) : Spares g u s (s.switchTo c prev next) := by
  unfold switchTo
  extract_lets s₁ s₂ s₃
  have h₁ : Spares g u s s₁ := .of_tasks rfl rfl .rfl le_rfl
  have h₂ : Spares g u s₁ s₂ := by
    refine iteInduction (fun _ => ?_) fun _ => .refl u s₁
    exact iteInduction (fun _ => spares_setReady prev) fun _ => spares_rqPush prev
  have h₃ : Spares g u s₂ s₃ := spares_setTask fun _ => .of_state (.inr (.inr rfl)) rfl rfl rfl id
  exact h₁.trans (h₂.trans (h₃.trans (spares_setCurrent _)))

theorem schedule_cases (c : Fin n) {P : Sched n → Prop} (h : P s)
    (hnext : ∀ prev next rest, s.current c = some prev → s.rq = next :: rest →
      P ({ s with rq := rest }.switchTo c prev next))
    (hidle : ∀ prev next, s.current c = some prev → s.rq = [] → s.stateOf prev ≠ .running →
      s.idle c = some next → P (s.switchTo c prev next)) : P (s.schedule c) := by
  cases hc : s.current c with
  | none => simpa only [schedule, hc] using h
  | some prev =>
    cases hq : s.rq with
    | cons next rest => simpa only [schedule, hc, rqPop, hq] using hnext prev next rest hc hq
    | nil =>
      simp only [schedule, hc, rqPop, hq]
      refine iteInduction (fun _ => h) fun hp => ?_
      cases hi : s.idle c with
      | none => exact h
      | some next => exact hidle prev next hc hq hp hi

theorem spares_schedule (c : Fin n) : Spares g u s (s.schedule c) := by
  refine schedule_cases c (.refl u s) ?_ fun prev next _ _ _ _ => spares_switchTo prev next
  intro prev next rest _ _
  have h : Spares g u s { s with rq := rest } := .of_tasks rfl rfl .rfl le_rfl
  exact h.trans (spares_switchTo prev next)

theorem spares_taskBlock (h : u ≠ t) : Spares g u s (s.taskBlock c t) := by
  refine iteInduction (fun _ => spares_setTask_of_ne h) fun _ => ?_
  exact (spares_setTask_of_ne h).trans (spares_schedule c)

theorem spares_taskSleepMs (h : u ≠ t) (ms now : Nat) : Spares g u s (s.taskSleepMs c t ms now) := by
  refine iteInduction (fun _ => spares_setTask_of_ne h) fun _ => ?_
  exact (spares_setTask_of_ne h).trans (spares_schedule c)

structure Left (x : TaskState) (t : Nat) (s s' : Sched n) : Prop where
  live : t ∈ s'.allTasks ↔ t ∈ s.allTasks
  idle : s'.isIdle t ↔ s.isIdle t
  next : s.nextId ≤ s'.nextId
  state : if (s.task t).wakePending then s'.stateOf t = s.stateOf t
    else s'.stateOf t = x ∨ s'.stateOf t = .ready ∨ s'.stateOf t = .running
  sig : ∀ i, i ≠ sigalrm - 1 → (s'.task t).sigPending.getLsbD i = (s.task t).sigPending.getLsbD i
  group : (s'.task t).groupExit = (s.task t).groupExit ∧ (s'.task t).exitCode = (s.task t).exitCode
  identity : (s'.task t).identity = (s.task t).identity
  reaped : (s.task t).reaped = true → (s'.task t).reaped = true

theorem Left.user (h : Left x t s s') : (s'.task t).isUser = (s.task t).isUser :=
  congrArg (·.2.2.2) h.identity

theorem left_of_schedule (hw : (s.task t).wakePending = false)
    (hf : (f (s.task t)).state = x) (hx : x ≠ .zombie) (hs : (f (s.task t)).sigPending = (s.task t).sigPending)
    (hg : (f (s.task t)).groupExit = (s.task t).groupExit ∧ (f (s.task t)).exitCode = (s.task t).exitCode)
    (hi : (f (s.task t)).identity = (s.task t).identity) (hr : (f (s.task t)).reaped = (s.task t).reaped) :
    Left x t s ((s.setTask t f).schedule c) := by
  have ht : (s.setTask t f).task t = f (s.task t) := by rw [task_setTask, if_pos rfl]
  have hsp : Spares False t (s.setTask t f) ((s.setTask t f).schedule c) := spares_schedule c
  have hz : (s.setTask t f).stateOf t ≠ .zombie := by
    rw [stateOf, ht, hf]
    exact hx
  have hp := hsp.task
  rw [ht] at hp
  have hgr := hp.group.resolve_right fun hn => hn.1
  refine ⟨⟨hsp.old, fun h => hsp.live h hz⟩, hsp.idle, hsp.next, ?_, fun i hi => (hp.sig i hi).trans (by rw [hs]),
    ⟨hgr.1.trans hg.1, hgr.2.trans hg.2⟩, hp.identity.trans hi, fun hk => hp.reaped (hr.trans hk)⟩
  rw [hw, if_neg (by simp)]
  exact hp.state.imp_left fun he => he.trans hf

theorem left_of_pending (hw : (s.task t).wakePending = true) :
    Left x t s (s.setTask t fun k => { k with wakePending := false }) := by
  have ht : (s.setTask t fun k => { k with wakePending := false }).task t =
    { s.task t with wakePending := false } := by
    rw [task_setTask, if_pos rfl]
  refine ⟨.rfl, .rfl, le_rfl, ?_, fun i _ => by rw [ht], by rw [ht]; exact ⟨rfl, rfl⟩, by rw [ht]; rfl,
    by rw [ht]; exact id⟩
  rw [if_pos hw, stateOf, ht, stateOf]

theorem left_taskBlock : Left .blocked t s (s.taskBlock c t) := by
  refine iteInduction (fun hw => left_of_pending hw) fun hw => ?_
  exact left_of_schedule (by simpa using hw) rfl nofun rfl ⟨rfl, rfl⟩ rfl rfl

theorem left_taskSleepMs (ms now : Nat) : Left .sleeping t s (s.taskSleepMs c t ms now) := by
  refine iteInduction (fun hw => left_of_pending hw) fun hw => ?_
  exact left_of_schedule (by simpa using hw) rfl nofun rfl ⟨rfl, rfl⟩ rfl rfl

theorem spares_taskWake (t : Nat) : Spares g u s (s.taskWake t) := by
  unfold taskWake
  refine iteInduction (fun _ => .refl u s) fun _ => ?_
  refine iteInduction (fun _ => spares_rqPush t) fun _ => ?_
  exact iteInduction (fun _ => spares_addWake) fun _ => .refl u s

theorem taskWake_of_asleep (h : s.stateOf t = .blocked ∨ s.stateOf t = .sleeping) :
    s.taskWake t = s.rqPush t := by
  have hn : s.stateOf t ≠ .stopped := by grind
  rw [taskWake, if_neg hn, if_pos h]

theorem taskWake_of_runnable (h : s.stateOf t = .ready ∨ s.stateOf t = .running) :
    s.taskWake t = s.setTask t fun k => { k with wakePending := true } := by
  have hn : s.stateOf t ≠ .stopped := by grind
  have ha : ¬ (s.stateOf t = .blocked ∨ s.stateOf t = .sleeping) := by grind
  have hz : s.stateOf t ≠ .zombie := by grind
  rw [taskWake, if_neg hn, if_neg ha, if_pos hz]

theorem stateOf_rqPush : (s.rqPush t).stateOf t = .ready := by
  simp [stateOf, rqPush, setState, setTask]

theorem spares_taskContinue (t : Nat) : Spares g u s (s.taskContinue t) := by
  unfold taskContinue
  refine iteInduction (fun _ => ?_) fun _ => .refl u s
  exact .trans (spares_setTask fun _ => .of_state (.inl rfl) rfl rfl rfl id) (spares_rqPush t)

theorem spares_wakeSleeper (now t : Nat) : Spares g u s (wakeSleeper now s t) := by
  unfold wakeSleeper
  extract_lets s₁ k s₂
  have h₁ : Spares g u s s₁ := iteInduction (fun _ => spares_rqPush t) fun _ => .refl u s
  refine iteInduction (fun _ => ?_) fun _ => h₁
  have h₂ : Spares g u s₁ s₂ := by
    refine spares_setTask fun _ => ⟨.inl rfl, id, fun i hi => ?_, .inl ⟨rfl, rfl⟩, rfl, id⟩
    rw [BitVec.getLsbD_or, getLsbD_sigBit, decide_eq_false hi, Bool.and_false, Bool.or_false]
  exact h₁.trans (h₂.trans (iteInduction (fun _ => spares_rqPush t) fun _ => spares_addWake))

theorem spares_schedTick (t now : Nat) : Spares g u s (s.schedTick t now) := by
  unfold schedTick
  extract_lets s₁ s₂
  have h₁ : Spares g u s s₁ :=
    invariant_foldl (P := Spares g u s) (fun _ v h => h.trans (spares_wakeSleeper now v)) _
      (spares_setTask fun _ => .of_state (.inl rfl) rfl rfl rfl id)
  have h₂ : Spares g u s s₂ := h₁.trans (spares_setTask fun _ => .of_state (.inl rfl) rfl rfl rfl id)
  refine iteInduction (fun _ => ?_) fun _ => h₂
  exact h₂.trans (spares_setTask fun _ => .of_state (.inl rfl) rfl rfl rfl id)

theorem spares_groupExitCb (self t : Nat)
    (hg : u = t → (s.task u).groupExit = false → (s.task u).tgid = (s.task self).tgid → g) :
    Spares g u s (groupExitCb self s t) := by
  unfold groupExitCb
  extract_lets k me s₁
  refine iteInduction (fun _ => .refl u s) fun hn => ?_
  by_cases hut : u = t
  · subst hut
    have hg : g := by
      apply hg rfl <;> grind
    refine iteInduction (fun hk => ?_) fun _ => ?_
    · refine ⟨⟨.inr (.inl ?_), fun hw => ?_, fun _ _ => ?_, .inr ⟨hg, ?_, ?_, .inr hk.symm⟩, ?_, ?_⟩,
        fun h _ => h, id, .rfl, le_rfl⟩ <;> simp_all [s₁, rqPush, setState, setTask, Task.identity]
    · refine ⟨⟨.inl ?_, fun hw => ?_, fun _ _ => ?_, .inr ⟨hg, ?_, ?_, .inl ?_⟩, ?_, ?_⟩,
        fun h _ => h, id, .rfl, le_rfl⟩ <;> simp_all [s₁, setTask, k, Task.identity]
  · have h₁ : Spares g u s s₁ := spares_setTask_of_ne hut
    exact h₁.trans (iteInduction (fun _ => spares_rqPush t) fun _ => spares_addWake)

theorem mem_rq_groupExitCb (self t : Nat) (h : u ∈ s.rq) : u ∈ (groupExitCb self s t).rq := by
  refine iteInduction (motive := fun s' : Sched n => u ∈ s'.rq) (fun _ => h) fun _ => ?_
  exact iteInduction (motive := fun s' : Sched n => u ∈ s'.rq) (fun _ => List.mem_append_left _ h) fun _ => h

theorem spares_killOthers (self : Nat)
    (hg : (s.task u).groupExit = false → (s.task u).tgid = (s.task self).tgid → g) :
    Spares g u s (s.taskKillOtherThreads self) := by
  have hstep (s' : Sched n) (t : Nat) (h : Spares g u s s' ∧ Spares True self s s') :
      Spares g u s (groupExitCb self s' t) ∧ Spares True self s (groupExitCb self s' t) := by
    refine ⟨h.1.trans (spares_groupExitCb self t fun _ hx ht => hg ?_ ?_),
      h.2.trans (spares_groupExitCb self t fun _ _ _ => trivial)⟩
    · have := h.1.task.group
      grind
    · rw [← h.1.task.tgid, ht, h.2.task.tgid]
  exact (invariant_foldl hstep s.allTasks ⟨.refl u s, .refl self s⟩).1

theorem spares_reparentChild (self t : Nat) : Spares g u s (reparentChild self s t) := by
  unfold reparentChild
  refine iteInduction (fun _ => ?_) fun _ => .refl u s
  refine spares_setTask fun _ => .of_state (.inl rfl) rfl rfl rfl fun hr => ?_
  simp [hr]

theorem spares_collect (cur : Nat) (pid : Int) (w : Bool) : Spares g u s (s.taskCollectChildOpts cur pid w) := by
  unfold taskCollectChildOpts
  extract_lets child found
  split
  · exact .refl u s
  refine iteInduction (fun _ => ?_) fun _ => ?_
  · exact spares_setTask fun _ => .of_state (.inl rfl) rfl rfl rfl fun _ => rfl
  · exact spares_setTask fun _ => .of_state (.inl rfl) rfl rfl rfl id

theorem spares_reap : Spares g u s s.taskReapZombies := by
  refine ⟨.refl _, fun h hz => List.mem_filter.mpr ⟨h, ?_⟩, fun h => (List.mem_filter.mp h).1, .rfl, le_rfl⟩
  simp [hz]

theorem spares_enter (h : u ≠ t) {next : Nat} (hn : s.nextId ≤ next) :
    Spares g u s { s.setTask t f with nextId := next, allTasks := t :: s.allTasks } :=
  ⟨(spares_setTask_of_ne h).task, fun hu _ => List.mem_cons_of_mem _ hu, List.mem_of_ne_of_mem h, .rfl, hn⟩

theorem spares_initAp (h : u ≠ t) (hc : s.idle c = none) : Spares g u s (s.schedInitAp c t) := by
  have hs : Spares g u s ((s.makeIdle t).setState t .running) :=
    .trans (spares_enter h (Nat.le_succ _)) (spares_setTask_of_ne h)
  have hidle (i : Fin n) : (s.schedInitAp c t).idle i = some u ↔ s.idle i = some u := by
    by_cases hic : i = c
    · subst hic
      simp [idle, schedInitAp] at hc ⊢
      simp [hc, Ne.symm h]
    · simp [idle, schedInitAp, hic, setState, setTask, makeIdle]
  exact ⟨hs.task, hs.live, hs.old, exists_congr hidle, hs.next⟩

theorem spares_step (s : Sched n) (e : SchedEvent n)
    (hg : ∀ c self, e = .killOthers c → s.current c = some self → (s.task u).groupExit = false →
      (s.task u).tgid = (s.task self).tgid → g) (hnew : u ∈ s.allTasks ∨ e.newTask ≠ some u)
    (hown : ∀ c, e.leaver = some c → s.current c = some u → s.isIdle u) : Spares g u s (s.step e) := by
  have hne {c : Fin n} {t : Nat} (hc : e.leaver = some c) (ht : s.current c = some t) (hi : ¬ s.isIdle t) :
    u ≠ t := by
    rintro rfl
    exact hi (hown c hc ht)
  cases e with
  | yield c => exact spares_schedule c
  | sleep c ms now => exact byTask_cases (.refl u s) fun t ht hi => spares_taskSleepMs (hne rfl ht hi) ms now
  | block c => exact byTask_cases (.refl u s) fun t ht hi => spares_taskBlock (hne rfl ht hi)
  | wake t => exact spares_taskWake t
  | cont t => exact spares_taskContinue t
  | stop c sig => exact byTask_cases (.refl u s) fun t ht hi => spares_setTask_of_ne (hne rfl ht hi)
  | tick c now => exact byCurrent_cases (.refl u s) fun t _ => spares_schedTick t now
  | preempt c w =>
    exact byCurrent_cases (.refl u s) fun t _ => iteInduction (fun _ => spares_schedule c) fun _ => .refl u s
  | exit c code =>
    exact byTask_cases (.refl u s) fun t ht hi => (spares_setTask_of_ne (hne rfl ht hi)).trans (spares_schedule c)
  | killOthers c => exact byTask_cases (.refl u s) fun t ht _ => spares_killOthers t (hg c t rfl ht)
  | reparent c =>
    refine byTask_cases (.refl u s) fun t _ _ => ?_
    exact invariant_foldl (P := Spares g u s) (fun _ v h => h.trans (spares_reparentChild t v)) _ (.refl u s)
  | reap => exact spares_reap
  | collect c pid w => exact byTask_cases (.refl u s) fun t _ _ => spares_collect t pid w
  | start t k =>
    refine iteInduction (fun _ => .refl u s) fun ht => ?_
    have hne : u ≠ t := by
      rintro rfl
      exact hnew.elim ht fun h => h rfl
    exact (spares_enter hne (Nat.le_succ _)).trans (spares_rqPush t)
  | initAp c t =>
    refine iteInduction (fun h => spares_initAp ?_ h.2.1) fun _ => .refl u s
    rintro rfl
    exact hnew.elim h.2.2 fun h => h rfl

structure PlacedBut (x : Option Nat) (s : Sched n) : Prop where
  ready : ∀ t ∈ s.allTasks, some t ≠ x → ¬ s.isIdle t → s.stateOf t = .ready → t ∈ s.rq
  running : ∀ t ∈ s.allTasks, s.stateOf t = .running → s.busy t

abbrev Placed (s : Sched n) : Prop := PlacedBut none s

theorem Placed.runnable (h : Placed s) (ht : t ∈ s.allTasks) (hi : ¬ s.isIdle t)
    (hs : s.stateOf t = .ready ∨ s.stateOf t = .running) : t ∈ s.rq ∨ s.busy t :=
  hs.imp (h.ready t ht nofun hi) (h.running t ht)

namespace PlacedBut

variable {x : Option Nat}

theorem setTask (h : PlacedBut x s) {f : Task → Task}
    (hf : (f (s.task t)).state = s.stateOf t ∨ (f (s.task t)).state ≠ .running ∧
      ((f (s.task t)).state = .ready → s.isIdle t)) : PlacedBut x (s.setTask t f) := by
  have hs (u : Nat) := stateOf_setTask (s := s) (t := t) (u := u) f
  refine ⟨fun u hu hx hi hr => h.ready u hu hx hi ?_, fun u hu hr => h.running u hu ?_⟩
  · have hi' : ¬ s.isIdle u := hi
    grind
  · grind

theorem rqPush (h : PlacedBut x s) (t : Nat) : PlacedBut x (s.rqPush t) := by
  have hs (u : Nat) : (s.rqPush t).stateOf u = if u = t then .ready else s.stateOf u :=
    stateOf_setTask (s := s) fun k => { k with state := .ready }
  refine ⟨fun u hu hx hi hr => List.mem_append.mpr ?_, fun u hu hr => h.running u hu ?_⟩
  · have hi' : ¬ s.isIdle u := hi
    have := h.ready u hu hx hi'
    grind
  · grind

theorem dispatch {prev next : Nat} (h : PlacedBut (some next) s) (hc : s.current c = some prev)
    (hp : s.stateOf prev ≠ .running) {f : Task → Task} (hf : (f (s.task next)).state = .running) :
    Placed { s.setTask next f with cpus := Function.update s.cpus c { s.cpus c with current := some next } } := by
  generalize hs' : { s.setTask next f with
    cpus := Function.update s.cpus c { s.cpus c with current := some next } } = s'
  have hst (u : Nat) : s'.stateOf u = if u = next then .running else s.stateOf u := by
    rw [← hs', ← hf]
    exact stateOf_setTask (s := s) f
  have hall : s'.allTasks = s.allTasks := by rw [← hs']; rfl
  have hq : s'.rq = s.rq := by rw [← hs']; rfl
  have hcur (i : Fin n) : s'.current i = if i = c then some next else s.current i := by
    by_cases hi : i = c <;> simp [← hs', current, hi]
  have hidle (i : Fin n) : s'.idle i = s.idle i := by
    rw [← hs']
    exact idle_setCurrent (s := s) _ i
  refine ⟨fun u hu _ hi hr => ?_, fun u hu hr => ?_⟩
  · rw [hst] at hr
    have hne : u ≠ next := by grind
    rw [hq]
    refine h.ready u (hall ▸ hu) (by simpa using hne) ?_ (by rwa [if_neg hne] at hr)
    rintro ⟨i, hu'⟩
    exact hi ⟨i, (hidle i).trans hu'⟩
  · by_cases hne : u = next
    · exact ⟨c, by rw [hcur, if_pos rfl, hne]⟩
    · rw [hst, if_neg hne] at hr
      obtain ⟨i, hi⟩ := h.running u (hall ▸ hu) hr
      have hic : i ≠ c := by
        rintro rfl
        exact hp (Option.some.inj (hi.symm.trans hc) ▸ hr)
      exact ⟨i, by rw [hcur, if_neg hic, hi]⟩

theorem switchTo {prev next : Nat} (h : PlacedBut (some next) s) (hc : s.current c = some prev) :
    Placed (s.switchTo c prev next) := by
  let s₁ : Sched n := { s with picked := (next, s.stateOf next) :: s.picked }
  have h₁ : PlacedBut (some next) s₁ := ⟨h.ready, h.running⟩
  unfold Sched.switchTo
  dsimp only
  split_ifs with hr hid
  · have h₂ : PlacedBut (some next) (s₁.setState prev .ready) := h₁.setTask (.inr ⟨nofun, fun _ => hid⟩)
    exact h₂.dispatch hc (by simp [setState, stateOf_setTask]) rfl
  · exact (h₁.rqPush prev).dispatch hc (by simp [stateOf, Sched.rqPush, setState, Sched.setTask]) rfl
  · exact h₁.dispatch hc hr rfl

theorem schedule (h : Placed s) (c : Fin n) : Placed (s.schedule c) := by
  refine schedule_cases c h (fun prev next rest hc hq => ?_) fun prev next hc _ _ _ => ?_
  · have h' : PlacedBut (some next) { s with rq := rest } := by
      refine ⟨fun u hu hx hi hr => ?_, h.running⟩
      have hmem := h.ready u hu nofun hi hr
      rw [hq] at hmem
      exact (List.mem_cons.mp hmem).resolve_left fun he => hx (congrArg some he)
    exact h'.switchTo hc
  · have h' : PlacedBut (some next) s := ⟨fun u hu _ => h.ready u hu nofun, h.running⟩
    exact h'.switchTo hc

end PlacedBut

theorem Placed.leave (h : Placed s) (c : Fin n)
    (hf : (f (s.task t)).state ≠ .ready ∧ (f (s.task t)).state ≠ .running) :
    Placed ((s.setTask t f).schedule c) :=
  (h.setTask (.inr ⟨hf.2, fun hr => absurd hr hf.1⟩)).schedule c

theorem Placed.block (h : Placed s) (c : Fin n) (t : Nat) : Placed (s.taskBlock c t) :=
  iteInduction (fun _ => h.setTask (.inl rfl)) fun _ => h.leave c ⟨nofun, nofun⟩

theorem Placed.sleepMs (h : Placed s) (c : Fin n) (t ms now : Nat) : Placed (s.taskSleepMs c t ms now) :=
  iteInduction (fun _ => h.setTask (.inl rfl)) fun _ => h.leave c ⟨nofun, nofun⟩

theorem Placed.wakeSleeper (h : Placed s) (now t : Nat) : Placed (Sched.wakeSleeper now s t) := by
  unfold Sched.wakeSleeper
  extract_lets s₁ k s₂
  have h₁ : Placed s₁ := iteInduction (fun _ => h.rqPush t) fun _ => h
  refine iteInduction (fun _ => ?_) fun _ => h₁
  have h₂ : Placed s₂ := h₁.setTask (.inl rfl)
  exact iteInduction (fun _ => h₂.rqPush t) fun _ => h₂.setTask (.inl rfl)

theorem Placed.tick (h : Placed s) (t now : Nat) : Placed (s.schedTick t now) := by
  unfold schedTick
  extract_lets s₁ s₂
  have h₁ : Placed s₁ :=
    invariant_foldl (P := Placed) (fun _ v hs => hs.wakeSleeper now v) _ (h.setTask (.inl rfl))
  have h₂ : Placed s₂ := h₁.setTask (.inl rfl)
  exact iteInduction (fun _ => h₂.setTask (.inl rfl)) fun _ => h₂

theorem Placed.wake (h : Placed s) (t : Nat) : Placed (s.taskWake t) := by
  unfold taskWake
  refine iteInduction (fun _ => h) fun _ => ?_
  refine iteInduction (fun _ => h.rqPush t) fun _ => ?_
  exact iteInduction (fun _ => h.setTask (.inl rfl)) fun _ => h

theorem Placed.cont (h : Placed s) (t : Nat) : Placed (s.taskContinue t) := by
  unfold taskContinue
  refine iteInduction (fun _ => ?_) fun _ => h
  have h₁ : Placed (s.setTask t fun k => { k with stopSig := 0, stopReported := false }) := h.setTask (.inl rfl)
  exact h₁.rqPush t

theorem Placed.groupExitCb (h : Placed s) (self t : Nat) : Placed (Sched.groupExitCb self s t) := by
  unfold Sched.groupExitCb
  extract_lets k me s₁
  refine iteInduction (fun _ => h) fun _ => ?_
  have h₁ : Placed s₁ := h.setTask (.inl rfl)
  exact iteInduction (fun _ => h₁.rqPush t) fun _ => h₁.setTask (.inl rfl)

theorem Placed.reparentChild (h : Placed s) (self t : Nat) : Placed (Sched.reparentChild self s t) := by
  unfold Sched.reparentChild
  exact iteInduction (fun _ => h.setTask (.inl rfl)) fun _ => h

theorem Placed.collect (h : Placed s) (cur : Nat) (pid : Int) (w : Bool) :
    Placed (s.taskCollectChildOpts cur pid w) := by
  unfold taskCollectChildOpts
  extract_lets child found
  split
  · exact h
  · exact iteInduction (fun _ => h.setTask (.inl rfl)) fun _ => h.setTask (.inl rfl)

theorem Placed.reap (h : Placed s) : Placed s.taskReapZombies :=
  ⟨fun u hu => h.ready u (List.mem_filter.mp hu).1, fun u hu => h.running u (List.mem_filter.mp hu).1⟩

theorem Placed.start (h : Placed s) (t : Nat) (k : Task) : Placed (s.taskStart t k) := by
  have hs (u : Nat) : (s.taskStart t k).stateOf u = if u = t then .ready else s.stateOf u := by
    by_cases hu : u = t <;> simp [stateOf, taskStart, Sched.rqPush, setState, Sched.setTask, hu]
  refine ⟨fun u hu _ hi hr => List.mem_append.mpr ?_, fun u hu hr => ?_⟩
  · by_cases he : u = t
    · exact .inr (List.mem_singleton.mpr he)
    · rw [hs, if_neg he] at hr
      exact .inl (h.ready u (List.mem_of_ne_of_mem he hu) (Option.some_ne_none u) hi hr)
  · have he : u ≠ t := by grind
    rw [hs, if_neg he] at hr
    exact h.running u (List.mem_of_ne_of_mem he hu) hr

theorem Placed.initAp (h : Placed s) (hc : s.current c = none) (hidle : s.idle c = none) (t : Nat) :
    Placed (s.schedInitAp c t) := by
  have hs (u : Nat) : (s.schedInitAp c t).stateOf u = if u = t then .running else s.stateOf u := by
    by_cases hu : u = t <;> simp [stateOf, schedInitAp, makeIdle, setState, Sched.setTask, hu]
  have hcpu (i : Fin n) : (s.schedInitAp c t).cpus i = if i = c then ⟨some t, some t⟩ else s.cpus i := by
    by_cases hi : i = c <;> simp [schedInitAp, makeIdle, setState, Sched.setTask, hi]
  refine ⟨fun u hu _ hi hr => ?_, fun u hu hr => ?_⟩
  · have he : u ≠ t := by grind
    rw [hs, if_neg he] at hr
    refine h.ready u (List.mem_of_ne_of_mem he hu) (Option.some_ne_none u) ?_ hr
    rintro ⟨i, hu'⟩
    have hic : i ≠ c := by grind
    exact hi ⟨i, by rw [idle, hcpu, if_neg hic]; exact hu'⟩
  · by_cases he : u = t
    · exact ⟨c, by rw [current, hcpu, if_pos rfl, he]⟩
    · rw [hs, if_neg he] at hr
      obtain ⟨i, hi⟩ := h.running u (List.mem_of_ne_of_mem he hu) hr
      have hic : i ≠ c := by grind
      exact ⟨i, by rw [current, hcpu, if_neg hic]; exact hi⟩

theorem placed_step (s : Sched n) (e : SchedEvent n) (h : Placed s) : Placed (s.step e) := by
  cases e with
  | yield c => exact h.schedule c
  | sleep c ms now => exact byTask_cases h fun t _ _ => h.sleepMs c t ms now
  | block c => exact byTask_cases h fun t _ _ => h.block c t
  | wake t => exact h.wake t
  | cont t => exact h.cont t
  | stop c sig => exact byTask_cases h fun t _ _ => h.setTask (.inr ⟨nofun, nofun⟩)
  | tick c now => exact byCurrent_cases h fun t _ => h.tick t now
  | preempt c w => exact byCurrent_cases h fun t _ => iteInduction (fun _ => h.schedule c) fun _ => h
  | exit c code => exact byTask_cases h fun t _ _ => h.leave c ⟨nofun, nofun⟩
  | killOthers c =>
    exact byTask_cases h fun t _ _ => invariant_foldl (P := Placed) (fun _ u hs => hs.groupExitCb t u) _ h
  | reparent c =>
    exact byTask_cases h fun t _ _ => invariant_foldl (P := Placed) (fun _ u hs => hs.reparentChild t u) _ h
  | reap => exact h.reap
  | collect c pid w => exact byTask_cases h fun t _ _ => h.collect t pid w
  | start t k => exact iteInduction (fun _ => h) fun _ => h.start t k
  | initAp c t => exact iteInduction (fun hf => h.initAp hf.1 hf.2.1 t) fun _ => h

theorem placed_schedInit (n : Nat) : Placed (schedInit n) := by
  have hs (t : Nat) : (schedInit n).stateOf t = if t = 0 then .running else .ready := by
    rcases t with _ | _ | t <;> simp [stateOf, schedInit, makeIdle, Sched.setTask]
  refine ⟨fun u hu _ hi hr => ?_, fun u _ hr => ⟨0, ?_⟩⟩
  · have hmem : u = 1 ∨ u = 0 := by simpa [schedInit, makeIdle, Sched.setTask] using hu
    rcases hmem with rfl | rfl
    · exact absurd ⟨0, rfl⟩ hi
    · simp [hs] at hr
  · have hu : u = 0 := by
      rw [hs] at hr
      grind
    rw [hu]
    rfl

theorem stateOf_newTask {e : SchedEvent n} (hnew : e.newTask = some t) (ht : t ∉ s.allTasks)
    (hl : t ∈ (s.step e).allTasks) : (s.step e).stateOf t = .ready ∨ (s.step e).stateOf t = .running := by
  cases e <;> cases hnew
  · rw [step, if_neg ht]
    exact .inl stateOf_rqPush
  · next c =>
    by_cases hf : s.current c = none ∧ s.idle c = none ∧ t ∉ s.allTasks
    · rw [step, if_pos hf]
      right
      simp [stateOf, schedInitAp, setState, setTask]
    · rw [step, if_neg hf] at hl
      exact absurd hl ht

def KernelIdle (s : Sched n) : Prop :=
  ∀ t, s.isIdle t → t ∈ s.allTasks ∧ s.stateOf t ≠ .zombie ∧ (s.task t).isUser = false

theorem KernelIdle.spares (h : KernelIdle s) (hs : Spares g t s s') (ht : s'.isIdle t) :
    t ∈ s'.allTasks ∧ s'.stateOf t ≠ .zombie ∧ (s'.task t).isUser = false := by
  obtain ⟨hl, hz, hu⟩ := h t (hs.idle.mp ht)
  refine ⟨hs.live hl hz, ?_, hs.task.user.trans hu⟩
  have := hs.task.state
  grind [stateOf]

theorem isIdle_of_leaver {e : SchedEvent n} (he : e.leaver = some c) (hu : (s.step e).isIdle u) : s.isIdle u := by
  have hsched (f : Task → Task) (c : Fin n) (t : Nat) : ((s.setTask t f).schedule c).isIdle u → s.isIdle u :=
    (spares_schedule (g := True) (s := s.setTask t f) (u := u) c).idle.mp
  revert hu
  cases e <;> cases he <;>
    refine byTask_cases (P := fun s' => s'.isIdle u → s.isIdle u) id fun t _ _ => ?_
  · exact iteInduction (motive := fun s' : Sched n => s'.isIdle u → s.isIdle u) (fun _ => id) fun _ =>
      hsched _ c t
  · exact iteInduction (motive := fun s' : Sched n => s'.isIdle u → s.isIdle u) (fun _ => id) fun _ =>
      hsched _ c t
  · exact id
  · exact hsched _ c t

theorem kernelIdle_step (s : Sched n) (e : SchedEvent n) (h : KernelIdle s) : KernelIdle (s.step e) := by
  intro u hu
  by_cases hnew : u ∈ s.allTasks ∨ e.newTask ≠ some u
  · refine h.spares (spares_step (g := True) s e (fun _ _ _ _ _ _ => trivial) hnew fun c hc _ => ?_) hu
    exact isIdle_of_leaver hc hu
  push Not at hnew
  obtain ⟨hu', hnew⟩ := hnew
  have hid : ¬ s.isIdle u := fun hi => hu' (h u hi).1
  cases e <;> cases hnew
  · rw [step, if_neg hu'] at hu
    exact absurd hu hid
  · next c =>
    by_cases hf : s.current c = none ∧ s.idle c = none ∧ u ∉ s.allTasks
    · rw [step, if_pos hf]
      refine ⟨by simp [schedInitAp, setState, setTask, makeIdle], ?_, ?_⟩ <;>
        simp [stateOf, schedInitAp, setState, setTask, makeIdle]
    · rw [step, if_neg hf] at hu
      exact absurd hu hid

theorem kernelIdle_schedInit (n : Nat) : KernelIdle (schedInit n) := by
  rintro t ⟨i, hi⟩
  by_cases h : i = 0
  · subst h
    cases hi
    refine ⟨by simp [schedInit, makeIdle], ?_, ?_⟩ <;> simp [stateOf, schedInit, setTask, makeIdle]
  · simp [idle, schedInit, makeIdle, setTask, h] at hi

end Sched

end Sic
