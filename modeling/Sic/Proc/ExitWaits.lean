import Sic.Proc.ExitRun

/-! A dead child is kept for its parent: nothing frees it or writes to its record
before `wait4` has reported it or the parent itself begins to exit. -/

namespace Sic

namespace Sched

variable {n : Nat} {s s' s'' : Sched n} {c : Fin n} {t u : Nat}

structure Untouched (u : Nat) (s s' : Sched n) : Prop where
  task : s'.task u = s.task u
  live : u ∈ s.allTasks → u ∈ s'.allTasks

theorem Untouched.refl (u : Nat) (s : Sched n) : Untouched u s s := ⟨rfl, id⟩

theorem Untouched.trans (h : Untouched u s s') (h' : Untouched u s' s'') : Untouched u s s'' :=
  ⟨h'.task.trans h.task, h'.live ∘ h.live⟩

theorem Untouched.stateOf (h : Untouched u s s') : s'.stateOf u = s.stateOf u := by
  rw [Sched.stateOf, h.task, Sched.stateOf]

theorem untouched_setTask {f : Task → Task} (h : u ≠ t) : Untouched u s (s.setTask t f) :=
  ⟨(task_setTask f).trans (if_neg h), id⟩

theorem untouched_rqPush (h : u ≠ t) : Untouched u s (s.rqPush t) := by
  have h₁ : Untouched u s (s.setState t .ready) := untouched_setTask h
  exact ⟨h₁.task, id⟩

theorem untouched_switchTo {prev next : Nat} (hr : s.stateOf u ≠ .running) (hn : u ≠ next) :
    Untouched u s (s.switchTo c prev next) := by
  unfold switchTo
  extract_lets s₁ s₂ s₃
  have h₁ : Untouched u s s₁ := ⟨rfl, id⟩
  have h₂ : Untouched u s₁ s₂ := by
    refine iteInduction (fun hp => ?_) fun _ => .refl u s₁
    have hne : u ≠ prev := by
      rintro rfl
      exact hr hp
    exact iteInduction (fun _ => untouched_setTask hne) fun _ => untouched_rqPush hne
  have h₃ : Untouched u s₂ s₃ := untouched_setTask hn
  exact h₁.trans (h₂.trans (h₃.trans ⟨rfl, id⟩))

/-- The switch writes to the task that leaves the CPU, if it is running, and to
one that was queued or idle. -/
theorem untouched_schedule (hr : s.stateOf u ≠ .running) (hq : u ∉ s.rq) (hi : ¬ s.isIdle u) :
    Untouched u s (s.schedule c) := by
  refine schedule_cases c (.refl u s) (fun prev next rest _ he => ?_) fun prev next _ _ _ he => ?_
  · have h₁ : Untouched u s { s with rq := rest } := ⟨rfl, id⟩
    refine h₁.trans (untouched_switchTo hr ?_)
    rintro rfl
    exact hq (by rw [he]; exact List.mem_cons_self)
  · refine untouched_switchTo hr ?_
    rintro rfl
    exact hi ⟨c, he⟩

theorem untouched_leave {f : Task → Task} (ht : u ≠ t) (hr : s.stateOf u ≠ .running) (hq : u ∉ s.rq)
    (hi : ¬ s.isIdle u) : Untouched u s ((s.setTask t f).schedule c) := by
  have h₁ : Untouched u s (s.setTask t f) := untouched_setTask ht
  exact h₁.trans (untouched_schedule (by rwa [h₁.stateOf]) hq hi)

theorem untouched_wakeSleeper {now : Nat} (hz : s.stateOf u = .zombie) : Untouched u s (wakeSleeper now s t) := by
  by_cases hut : u = t
  · subst hut
    have hs : ¬ (s.stateOf u = .sleeping ∧ (s.task u).wakeAt ≤ now) := by simp [hz]
    have hk : (s.task u).state = .zombie := hz
    simp only [wakeSleeper, if_neg hs, hk]
    exact ⟨by simp, by simp⟩
  · unfold wakeSleeper
    extract_lets s₁ k s₂
    have h₁ : Untouched u s s₁ := iteInduction (fun _ => untouched_rqPush hut) fun _ => .refl u s
    refine iteInduction (fun _ => ?_) fun _ => h₁
    have h₂ : Untouched u s₁ s₂ := untouched_setTask hut
    exact h₁.trans (h₂.trans (iteInduction (fun _ => untouched_rqPush hut) fun _ => untouched_setTask hut))

theorem untouched_schedTick {now : Nat} (ht : u ≠ t) (hz : s.stateOf u = .zombie) :
    Untouched u s (s.schedTick t now) := by
  unfold schedTick
  extract_lets s₁ s₂
  have h₁ : Untouched u s s₁ :=
    invariant_foldl (P := Untouched u s) (fun _ v h => h.trans (untouched_wakeSleeper (h.stateOf.trans hz))) _
      (untouched_setTask ht)
  have h₂ : Untouched u s s₂ := h₁.trans (untouched_setTask ht)
  exact iteInduction (fun _ => h₂.trans (untouched_setTask ht)) fun _ => h₂

theorem untouched_taskWake (hz : s.stateOf u = .zombie) : Untouched u s (s.taskWake t) := by
  by_cases hut : u = t
  · subst hut
    simp [taskWake, hz, Untouched.refl]
  refine iteInduction (fun _ => .refl u s) fun _ => ?_
  refine iteInduction (fun _ => untouched_rqPush hut) fun _ => ?_
  exact iteInduction (fun _ => untouched_setTask hut) fun _ => .refl u s

theorem untouched_taskContinue (hz : s.stateOf u = .zombie) : Untouched u s (s.taskContinue t) := by
  refine iteInduction (fun hs => ?_) fun _ => .refl u s
  have hut : u ≠ t := by
    rintro rfl
    cases hz.symm.trans hs
  exact (untouched_setTask hut).trans (untouched_rqPush hut)

theorem untouched_groupExitCb {self : Nat} (hz : s.stateOf u = .zombie) :
    Untouched u s (groupExitCb self s t) := by
  refine iteInduction (fun _ => .refl u s) fun hn => ?_
  have hut : u ≠ t := by
    rintro rfl
    exact hn (.inr (.inr (.inl hz)))
  exact (untouched_setTask hut).trans
    (iteInduction (fun _ => untouched_rqPush hut) fun _ => untouched_setTask hut)

theorem untouched_reparent {self : Nat} (hp : (s.task u).parentId ≠ (s.task self).tgid) :
    Untouched u s (s.reparentChildren self) := by
  refine (invariant_foldl (P := fun s' => Untouched u s s' ∧ Spares False self s s') (fun s' v h => ?_) s.allTasks
    ⟨.refl u s, .refl self s⟩).1
  refine ⟨h.1.trans (iteInduction (fun he => untouched_setTask ?_) fun _ => .refl u s'),
    h.2.trans (spares_reparentChild self v)⟩
  rintro rfl
  rw [h.1.task, h.2.task.tgid] at he
  exact hp he

theorem untouched_reap (hw : s.waitingParent u = true) : Untouched u s s.taskReapZombies :=
  ⟨rfl, fun h => List.mem_filter.mpr ⟨h, by simp [hw]⟩⟩

theorem Core.dead (h : Inv s) (hz : s.stateOf u = .zombie) :
    u ∉ s.rq ∧ ¬ s.isIdle u ∧ ∀ c, s.current c ≠ some u := by
  refine ⟨fun hq => ?_, fun ⟨c, hc⟩ => ?_, fun c hc => ?_⟩
  · cases hz.symm.trans (h.rqReady u hq)
  · have := h.idleState c u hc
    grind
  · have := h.curState c u (by simp) hc
    grind

theorem untouched_step (h : Inv s) (e : SchedEvent n) (he : e.plain = true) (hl : u ∈ s.allTasks)
    (hz : s.stateOf u = .zombie) (hw : s.waitingParent u = true) : Untouched u s (s.step e) := by
  obtain ⟨hq, hi, hcur⟩ := h.dead hz
  have hr : s.stateOf u ≠ .running := by simp [hz]
  have hne {c : Fin n} {t : Nat} (hc : s.current c = some t) : u ≠ t := by
    rintro rfl
    exact hcur c hc
  have hold {t : Nat} (ht : t ∉ s.allTasks) : u ≠ t := by
    rintro rfl
    exact ht hl
  cases e with
  | yield c => exact untouched_schedule hr hq hi
  | sleep c ms now =>
    refine byTask_cases (.refl u s) fun t ht _ => ?_
    exact iteInduction (fun _ => untouched_setTask (hne ht)) fun _ => untouched_leave (hne ht) hr hq hi
  | block c =>
    refine byTask_cases (.refl u s) fun t ht _ => ?_
    exact iteInduction (fun _ => untouched_setTask (hne ht)) fun _ => untouched_leave (hne ht) hr hq hi
  | wake t => exact untouched_taskWake hz
  | cont t => exact untouched_taskContinue hz
  | stop c sig => exact byTask_cases (.refl u s) fun t ht _ => untouched_setTask (hne ht)
  | tick c now => exact byCurrent_cases (.refl u s) fun t ht => untouched_schedTick (hne ht) hz
  | preempt c w =>
    exact byCurrent_cases (.refl u s) fun t _ =>
      iteInduction (fun _ => untouched_schedule hr hq hi) fun _ => .refl u s
  | exit | killOthers | reparent | collect => cases he
  | reap => exact untouched_reap hw
  | start t k =>
    refine iteInduction (fun _ => .refl u s) fun ht => ?_
    have h₁ : Untouched u s (s.taskStart t k) := ⟨?_, List.mem_cons_of_mem _⟩
    · exact h₁
    · simp [taskStart, rqPush, setState, setTask, hold ht]
  | initAp c t =>
    refine iteInduction (fun ht => ⟨?_, List.mem_cons_of_mem _⟩) fun _ => .refl u s
    simp [schedInitAp, makeIdle, setState, setTask, hold ht.2.2]

structure Waits (t p : Nat) (s : Sched n) : Prop where
  child : t ∈ s.allTasks ∧ s.stateOf t = .zombie
  process : (s.task t).isUser = true ∧ (s.task t).isThread = false ∧ (s.task t).reaped = false
  parent : p ∈ s.allTasks ∧ s.stateOf p ≠ .zombie ∧ (s.task p).isThread = false
  kin : (s.task t).parentId = (s.task p).id

theorem Waits.waitingParent {p : Nat} (h : Waits t p s) : s.waitingParent t = true := by
  obtain ⟨hu, ht, hr⟩ := h.process
  obtain ⟨hl, hz, _⟩ := h.parent
  simp only [Sched.waitingParent, hu, ht, hr, h.kin, Bool.not_false, Bool.and_self, Bool.true_and,
    List.any_eq_true]
  exact ⟨p, hl, by simp [hz]⟩

theorem Waits.carry {p : Nat} (h : Waits t p s) (ht : Untouched t s s') (hs : Same p s s')
    (hz : s'.stateOf p = .zombie → s.stateOf p = .zombie)
    (hl : p ∈ s.allTasks → s.stateOf p ≠ .zombie → p ∈ s'.allTasks) : Waits t p s' := by
  obtain ⟨hp, hpz, hth⟩ := h.parent
  refine ⟨⟨ht.live h.child.1, ht.stateOf.trans h.child.2⟩, ht.task ▸ h.process, ⟨hl hp hpz, hpz ∘ hz, ?_⟩, ?_⟩
  · exact (congrArg (·.2.2.1) hs.identity).trans hth
  · rw [ht.task, h.kin]
    exact (congrArg (·.1) hs.identity).symm

end Sched

namespace ExitState

open Sched (Untouched Waits)

variable {n : Nat} {s s' : ExitState n} {c : Fin n} {t u p : Nat}

/-- No task is continued between its stop and the switch away from it. -/
def ContinueSettled (s : ExitState n) : ExitEvent n → Prop
  | .sched e => s.sched.ContinueSettled e
  | _ => True

theorem call_adds (s : ExitState n) (t : Nat) (a : ExitCall) :
    (s.call t a).sched = s.sched ∧ s.acts ⊆ (s.call t a).acts ∧ (s.call t a).reports = s.reports := by
  cases a <;> simp only [call, taskExitCode, taskExitGroup, record, setPhase] <;> split_ifs <;> simp

theorem core_step (s : ExitState n) (e : ExitEvent n) (h : s.sched.Inv) (hok : s.ContinueSettled e) :
    (s.step e).sched.Inv := by
  cases e with
  | sched e =>
    exact iteInduction (motive := fun s' : ExitState n => s'.sched.Inv)
      (fun _ => Sched.inv_step s.sched e h hok) fun _ => h
  | call c a =>
    refine Sched.byExecuting_cases (P := fun s' : ExitState n => s'.sched.Inv) h fun t _ => ?_
    rwa [(call_adds s t a).1]
  | next c =>
    refine Sched.byExecuting_cases (P := fun s' : ExitState n => s'.sched.Inv) h fun t ht => ?_
    obtain ⟨hc, _, hi, _⟩ := Sched.executing_eq_some.mp ht
    unfold next
    split
    · exact h
    · dsimp only
      exact h.setTask rfl
    · dsimp only
      exact h.setTask rfl
    · exact invariant_foldl (P := Sched.Inv) (fun _ u hs => hs.groupExitCb t u) _ h
    · exact invariant_foldl (P := Sched.Inv) (fun _ u hs => hs.reparentChild t u) _ h
    · exact h.leave hc hi (by simp)
    · exact h.leave hc hi (by simp)
  | wait4 c pid untraced =>
    refine Sched.byExecuting_cases (P := fun s' : ExitState n => s'.sched.Inv) h fun t _ => ?_
    unfold wait4
    extract_lets pid' sched
    have hs : sched.Inv := h.collect t pid' untraced
    split
    · exact h
    · split_ifs <;> exact hs

def Kept (t p child parent : Nat) (s : ExitState n) : Prop :=
  child ∈ s.reports.map Prod.fst ∨ (∃ cause, (parent, cause) ∈ s.acts) ∨
    (s.sched.Waits t p ∧ (s.sched.task t).id = child ∧ (s.sched.task p).id = parent)

theorem Kept.of_waits (h : s.sched.Waits t p) (ht : Untouched t s.sched s'.sched)
    (hs : Sched.Same p s.sched s'.sched) (hz : s'.sched.stateOf p = .zombie → s.sched.stateOf p = .zombie)
    (hl : p ∈ s.sched.allTasks → s.sched.stateOf p ≠ .zombie → p ∈ s'.sched.allTasks) :
    Kept t p (s.sched.task t).id (s.sched.task p).id s' :=
  .inr (.inr ⟨h.carry ht hs hz hl, congrArg Task.id ht.task, congrArg (·.1) hs.identity⟩)

theorem Kept.of_steady (h : s.sched.Waits t p) (ht : Untouched t s.sched s'.sched)
    (hs : Sched.Steady p s.sched s'.sched) : Kept t p (s.sched.task t).id (s.sched.task p).id s' :=
  .of_waits h ht hs.toSame hs.zombie hs.live

theorem kept_edit (h : s.sched.Waits t p) {me : Nat} (hne : t ≠ me) {f : Task → Task} {ph : ExitPhase}
    (hi : (f (s.sched.task me)).identity = (s.sched.task me).identity)
    (hr : (f (s.sched.task me)).reaped = (s.sched.task me).reaped)
    (hst : (f (s.sched.task me)).state = s.sched.stateOf me) :
    Kept t p (s.sched.task t).id (s.sched.task p).id { s.setPhase me ph with sched := s.sched.setTask me f } := by
  refine .of_waits h (Sched.untouched_setTask hne) (same_setTask hi hr p) (fun hz => ?_) fun hl _ => hl
  rw [Sched.stateOf_setTask, hst] at hz
  split at hz
  · next he => rwa [he]
  · exact hz

theorem kept_end (h : s.Inv) (hi : s.sched.Inv) (hw : s.sched.Waits t p) {me : Nat}
    (hme : s.sched.executing c = some me) {code : Int}
    (hact : (s.sched.task me).isThread = false → s.Acted me code) :
    Kept t p (s.sched.task t).id (s.sched.task p).id
      { s.setPhase me .run with sched := s.sched.taskExit c me code } := by
  obtain ⟨hc, hl, hidle, _⟩ := Sched.executing_eq_some.mp hme
  obtain ⟨hq, hti, hcur⟩ := hi.dead hw.child.2
  by_cases hp : p = me
  · subst hp
    obtain ⟨cause, _, hm, _⟩ := hact hw.parent.2.2
    have htgid := (h.table.leader p hl hw.parent.2.2).resolve_right hidle
    exact .inr (.inl ⟨cause, htgid ▸ hm⟩)
  · refine .of_steady hw (Sched.untouched_leave ?_ (by simp [hw.child.2]) hq hti) ?_
    · rintro rfl
      exact hcur c hc
    · exact ((Sched.spares_setTask_of_ne hp).trans (Sched.spares_schedule c)).steady

theorem kept_next (h : s.Inv) (hi : s.sched.Inv) (hw : s.sched.Waits t p) {me : Nat}
    (hme : s.sched.executing c = some me) : Kept t p (s.sched.task t).id (s.sched.task p).id (s.next c me) := by
  have hne : t ≠ me := by
    rintro rfl
    exact (hi.dead hw.child.2).2.2 c (Sched.executing_eq_some.mp hme).1
  unfold next
  split <;> rename_i hph
  · exact .of_steady hw (.refl t _) (.refl p _)
  · exact kept_edit hw hne rfl rfl rfl
  · exact kept_edit hw hne rfl rfl rfl
  · have htell := (telling_killOthers s.sched me p).spares
    refine .of_waits hw ?_ htell.same htell.zombie htell.live
    exact invariant_foldl (P := Untouched t s.sched)
      (fun _ v hv => hv.trans (Sched.untouched_groupExitCb (hv.stateOf.trans hw.child.2))) _ (.refl t _)
  · -- The children given away are those of the process that exits.
    by_cases hkin : (s.sched.task t).parentId = (s.sched.task me).tgid
    · obtain ⟨cause, _, hm, _⟩ := ((h.sound me).told (.inr (.inl hph))).2
      exact .inr (.inl ⟨cause, by rw [← hw.kin, hkin]; exact hm⟩)
    · exact .of_steady hw (Sched.untouched_reparent hkin) (steady_reparent s.sched me p)
  · exact kept_end h hi hw hme fun _ => ((h.sound me).told (.inr (.inr hph))).2
  · exact kept_end h hi hw hme fun hth => (h.sound me).alone _ hph hth

theorem kept_wait4 (hw : s.sched.Waits t p) (cur : Nat) (pid : Int) (untraced : Bool) :
    Kept t p (s.sched.task t).id (s.sched.task p).id (s.wait4 cur pid untraced) := by
  unfold wait4
  extract_lets pid' sched
  have hst : Sched.Steady p s.sched sched := (Sched.spares_collect cur pid' untraced).steady
  split
  · exact .of_steady hw (.refl t _) (.refl p _)
  next u hfind =>
  by_cases hut : t = u
  · subst hut
    rw [if_pos hw.child.2]
    exact .inl List.mem_cons_self
  · have ht : Untouched t s.sched sched := by
      rw [show sched = _ from collect_of_find hfind]
      split_ifs <;> exact Sched.untouched_setTask hut
    split_ifs <;> exact .of_steady hw ht hst

def Before (s s' : ExitState n) : Prop := s.acts ⊆ s'.acts ∧ s.reports ⊆ s'.reports

theorem before_step (s : ExitState n) (e : ExitEvent n) : s.Before (s.step e) := by
  have hrefl : s.Before s := ⟨fun _ => id, fun _ => id⟩
  cases e with
  | sched e =>
    simp only [step]
    split_ifs <;> exact hrefl
  | call c a =>
    refine Sched.byExecuting_cases (P := s.Before) hrefl fun t _ => ?_
    obtain ⟨_, ha, hr⟩ := call_adds s t a
    exact ⟨ha, hr ▸ fun _ => id⟩
  | next c =>
    refine Sched.byExecuting_cases (P := s.Before) hrefl fun t _ => ?_
    unfold next
    split <;> exact hrefl
  | wait4 c pid untraced =>
    refine Sched.byExecuting_cases (P := s.Before) hrefl fun t _ => ?_
    unfold wait4
    dsimp only
    split
    · exact hrefl
    · split_ifs <;> exact ⟨fun _ => id, by simp⟩

theorem kept_step {child parent : Nat} (e : ExitEvent n) (h : s.Inv) (hi : s.sched.Inv)
    (hk : s.Kept t p child parent) : (s.step e).Kept t p child parent := by
  obtain ⟨hacts, hreports⟩ := before_step s e
  rcases hk with hk | ⟨cause, hk⟩ | ⟨hw, rfl, rfl⟩
  · exact .inl (List.map_subset _ hreports hk)
  · exact .inr (.inl ⟨cause, hacts hk⟩)
  have hsame : Kept t p (s.sched.task t).id (s.sched.task p).id s := .inr (.inr ⟨hw, rfl, rfl⟩)
  cases e with
  | sched e =>
    refine iteInduction (fun he => ?_) fun _ => hsame
    refine .of_steady hw (Sched.untouched_step hi e he hw.child.1 hw.child.2 hw.waitingParent) ?_
    exact Sched.steady_step s.sched e he (.inl hw.parent.1)
  | call c a =>
    refine Sched.byExecuting_cases hsame fun me _ => ?_
    have hs := (call_adds s me a).1
    exact .of_steady hw (hs ▸ .refl t _) (hs ▸ .refl p _)
  | next c => exact Sched.byExecuting_cases hsame fun me hme => kept_next h hi hw hme
  | wait4 c pid untraced => exact Sched.byExecuting_cases hsame fun cur _ => kept_wait4 hw cur pid untraced

theorem kept_run (h : s.Inv) (hi : s.sched.Inv) (hw : s.sched.Waits t p) {es : List (ExitEvent n)}
    (hok : Along ContinueSettled step s es) :
    (run step s es).Kept t p (s.sched.task t).id (s.sched.task p).id := by
  refine (invariant_run (P := fun s' => (s'.Inv ∧ s'.sched.Inv) ∧
    s'.Kept t p (s.sched.task t).id (s.sched.task p).id)
    (fun s' e hs he => ?_) ⟨⟨h, hi⟩, .inr (.inr ⟨hw, rfl, rfl⟩)⟩ hok).2
  exact ⟨⟨inv_step s' e hs.1.1, core_step s' e hs.1.2 he⟩, kept_step e hs.1.1 hs.1.2 hs.2⟩

theorem wait4_collects (h : s.Inv) {cur : Nat} (hl : t ∈ s.sched.allTasks) (hz : s.sched.stateOf t = .zombie)
    (hr : (s.sched.task t).reaped = false) (hth : (s.sched.task t).isThread = false) (hne : t ≠ cur)
    (hp : (s.sched.task t).parentId = (s.sched.task cur).tgid) (hid : 0 < (s.sched.task t).id) (untraced : Bool) :
    (s.sched.task t).id ∈ (s.wait4 cur (s.sched.task t).id untraced).reports.map Prod.fst := by
  have hpid : ¬ (((s.sched.task t).id : Int) = 0 ∨ ((s.sched.task t).id : Int) < -1) := by omega
  have hcollects : s.sched.collects cur (s.sched.task t).id untraced t = true := by
    simp [Sched.collects, hp, hr, hne, hth, hz]
  unfold wait4
  simp only [if_neg hpid]
  obtain ⟨u, hfind⟩ := Option.isSome_iff_exists.mp (List.find?_isSome.mpr ⟨t, hl, hcollects⟩)
  have hu := List.find?_some hfind
  have hut : u = t := by
    refine h.table.uniq u (List.mem_of_find?_eq_some hfind) t hl ?_
    simp only [Sched.collects, Bool.and_eq_true, Bool.or_eq_true, decide_eq_true_eq, beq_iff_eq] at hu
    omega
  subst hut
  simp only [hfind, if_pos hz]
  simp

/-- In every run: no process is reported twice; what is reported of a process is
the code of something that one of its threads has done to end it, and the
status word decodes to that cause exactly if the cause is a clear one; a parent
that waits for a dead child is told; and however the run goes on, a dead child
that has not been reported is there to be asked for as long as its parent has
not begun to exit. -/
theorem wait4_reports_cause (n : Nat) (es : List (ExitEvent (n + 1))) :
    let s := run step (init n) es
    (s.reports.map Prod.fst).Nodup ∧
    (∀ r ∈ s.reports, ∃ cause : Cause, cause.Real ∧ (r.1, cause) ∈ s.acts ∧ r.2 = wait4Status cause.code ∧
      (decodeStatus r.2 = some cause ↔ cause.Clear)) ∧
    (∀ c cur t untraced, s.sched.executing c = some cur → t ∈ s.sched.allTasks → s.sched.stateOf t = .zombie →
      (s.sched.task t).reaped = false → (s.sched.task t).isThread = false → t ≠ cur →
      (s.sched.task t).parentId = (s.sched.task cur).tgid → 0 < (s.sched.task t).id →
      (s.sched.task t).id ∈ (s.step (.wait4 c (s.sched.task t).id untraced)).reports.map Prod.fst) ∧
    ∀ t p es', s.sched.Waits t p → Along ContinueSettled step (init n) (es ++ es') →
      (run step s es').Kept t p (s.sched.task t).id (s.sched.task p).id := by
  intro s
  have h : s.Inv := invariant_foldl inv_step es (inv_init n)
  refine ⟨h.once, fun r hr => ?_, fun c cur t untraced hc hl hz hr hth hne hp hid => ?_, fun t p es' hw hok => ?_⟩
  · obtain ⟨cause, hreal, hm, he⟩ := (h.reported r hr).cause
    exact ⟨cause, hreal, hm, he, by rw [he]; exact decode_wait4Status cause hreal⟩
  · rw [step, Sched.byExecuting, hc]
    exact wait4_collects h hl hz hr hth hne hp hid untraced
  obtain ⟨hes, hes'⟩ := hok.split
  have hi : s.sched.Inv :=
    invariant_run (P := fun s' : ExitState (n + 1) => s'.sched.Inv) core_step (Sched.inv_schedInit n) hes
  exact kept_run h hi hw hes'

def exit137 : List (ExitEvent 1) :=
  [.sched (.start 3 { isUser := true }), .sched (.start 4 { isUser := true, parentId := 2 }), .sched (.yield 0),
    .sched (.yield 0), .call 0 (.exit 137), .next 0, .next 0, .next 0, .next 0, .next 0, .sched (.yield 0),
    .wait4 0 3 false]

/-- The parent is told that SIGKILL killed the child. -/
theorem wait4_confuses_exit_with_signal :
    ¬ ∀ es : List (ExitEvent 1), let s := run step (init 0) es
      ∀ r ∈ s.reports, ∃ cause : Cause, (r.1, cause) ∈ s.acts ∧ decodeStatus r.2 = some cause := by
  intro h
  obtain ⟨cause, hm, hd⟩ := h exit137 (3, 9) (by decide)
  have hacts : (run step (init 0) exit137).acts = [(3, .exited 137)] := by decide
  rw [hacts, List.mem_singleton] at hm
  cases hm
  revert hd
  decide

end ExitState

end Sic
