import Sic.Proc.Sched

/-! Exclusivity of the scheduler over whole runs. Only `task_continue` on a task
that is stopped but still current can break it. -/

namespace Sic

/-- The critical sections, on the CPU that enters them; `start` and `initAp`
carry the address of the new task. -/
inductive SchedEvent (n : Nat) where
  | yield (c : Fin n)
  | sleep (c : Fin n) (ms now : Nat)
  | block (c : Fin n)
  | wake (t : Nat)
  | cont (t : Nat)
  | stop (c : Fin n) (sig : Nat)
  | tick (c : Fin n) (now : Nat)
  | preempt (c : Fin n) (idleWaiting : Bool)
  | exit (c : Fin n) (code : Int)
  | killOthers (c : Fin n)
  | reparent (c : Fin n)
  | reap
  | collect (c : Fin n) (pid : Int) (untraced : Bool)
  | start (t : Nat) (k : Task)
  | initAp (c : Fin n) (t : Nat)

namespace Sched

variable {n : Nat} {s s' : Sched n} {c : Fin n} {t u : Nat}

/-- What the running task of a CPU does. An idle task only yields and reaps. -/
def byTask (s : Sched n) (c : Fin n) (f : Nat → Sched n) : Sched n :=
  match s.current c with
  | none => s
  | some t => if s.isIdle t then s else f t

def byCurrent (s : Sched n) (c : Fin n) (f : Nat → Sched n) : Sched n :=
  match s.current c with
  | none => s
  | some t => f t

def step (s : Sched n) : SchedEvent n → Sched n
  | .yield c => s.schedule c
  | .sleep c ms now => s.byTask c fun t => s.taskSleepMs c t ms now
  | .block c => s.byTask c fun t => s.taskBlock c t
  | .wake t => s.taskWake t
  | .cont t => s.taskContinue t
  | .stop c sig => s.byTask c fun t => s.taskStop t sig
  | .tick c now => s.byCurrent c fun t => s.schedTick t now
  | .preempt c w => s.byCurrent c fun t => s.schedPreempt c t w
  | .exit c code => s.byTask c fun t => s.taskExit c t code
  | .killOthers c => s.byTask c fun t => s.taskKillOtherThreads t
  | .reparent c => s.byTask c fun t => s.reparentChildren t
  | .reap => s.taskReapZombies
  | .collect c pid w => s.byTask c fun t => s.taskCollectChildOpts t pid w
  | .start t k => if t ∈ s.allTasks then s else s.taskStart t k
  | .initAp c t =>
    if s.current c = none ∧ s.idle c = none ∧ t ∉ s.allTasks then s.schedInitAp c t else s

def schedInit (n : Nat) : Sched (n + 1) :=
  makeIdle
    { cpus := fun c => if c = 0 then ⟨some 0, some 1⟩ else ⟨none, none⟩
      task := fun t => if t = 0 then { state := .running, sliceLeft := timeSlice } else { }
      allTasks := [0]
      rq := []
      nextId := 1
      picked := [] } 1

def Exclusive (s : Sched n) : Prop :=
  (∀ c c' t, s.current c = some t → s.current c' = some t → c = c') ∧
    s.rq.Nodup ∧ (∀ c t, s.current c = some t → t ∉ s.rq) ∧
    ∀ p ∈ s.picked, p.2 ≠ .stopped ∧ p.2 ≠ .zombie

/-- No task is continued between its stop and the switch away from it. -/
def ContinueSettled (s : Sched n) : SchedEvent n → Prop
  | .cont t => s.stateOf t = .stopped → ¬ s.busy t
  | _ => True

structure Core (x : Option (Fin n)) (s : Sched n) : Prop where
  curUnique : ∀ c c' t, s.current c = some t → s.current c' = some t → c = c'
  rqNodup : s.rq.Nodup
  rqReady : ∀ t ∈ s.rq, s.stateOf t = .ready
  rqNotIdle : ∀ t ∈ s.rq, ¬ s.isIdle t
  curState : ∀ c t, some c ≠ x → s.current c = some t →
    s.stateOf t = .running ∨ s.stateOf t = .stopped
  curIdle : ∀ c t, s.current c = some t → s.idle c ≠ none
  idleState : ∀ c t, s.idle c = some t → s.stateOf t = .ready ∨ s.stateOf t = .running
  idleCur : ∀ c c' t, s.idle c = some t → s.current c' = some t → c' = c
  idleUnique : ∀ c c' t, s.idle c = some t → s.idle c' = some t → c = c'
  rqLive : ∀ t ∈ s.rq, t ∈ s.allTasks
  curLive : ∀ c t, s.current c = some t → t ∈ s.allTasks
  idleLive : ∀ c t, s.idle c = some t → t ∈ s.allTasks
  deadState : ∀ t, t ∉ s.allTasks → s.stateOf t = .ready ∨ s.stateOf t = .zombie
  picked : ∀ p ∈ s.picked, p.2 ≠ .stopped ∧ p.2 ≠ .zombie

abbrev Inv (s : Sched n) : Prop := Core none s

theorem stateOf_setTask (f : Task → Task) :
    (s.setTask t f).stateOf u = if u = t then (f (s.task t)).state else s.stateOf u := by
  by_cases h : u = t
  · subst h
    simp [stateOf, setTask]
  · simp [stateOf, setTask, h]

variable {f : Task → Task}

theorem Core.setTask {x : Option (Fin n)} (h : Core x s)
    (hf : (f (s.task t)).state = s.stateOf t) : Core x (s.setTask t f) := by
  have hs : (s.setTask t f).stateOf = s.stateOf := by
    funext u
    rw [stateOf_setTask]
    split
    · rename_i he
      rw [hf, he]
    · rfl
  exact ⟨h.curUnique, h.rqNodup, hs ▸ h.rqReady, h.rqNotIdle, hs ▸ h.curState, h.curIdle,
    hs ▸ h.idleState, h.idleCur, h.idleUnique, h.rqLive, h.curLive, h.idleLive, hs ▸ h.deadState, h.picked⟩

theorem Core.rqPush {x : Option (Fin n)} (h : Core x s) (hlive : t ∈ s.allTasks) (hq : t ∉ s.rq)
    (hidle : ¬ s.isIdle t) (hcur : ∀ c, some c ≠ x → s.current c ≠ some t) :
    Core x (s.rqPush t) := by
  have hs (u : Nat) : (s.rqPush t).stateOf u = if u = t then .ready else s.stateOf u :=
    stateOf_setTask (s := s) fun k => { k with state := .ready }
  have hi (c : Fin n) (he : s.idle c = some t) : False := hidle ⟨c, he⟩
  refine ⟨h.curUnique, ?_, ?_, ?_, ?_, h.curIdle, ?_, h.idleCur, h.idleUnique, ?_, h.curLive,
    h.idleLive, ?_, h.picked⟩
  · exact List.nodup_append.mpr ⟨h.rqNodup, List.nodup_singleton t, by grind⟩
  · intro u hu
    have hmem : u ∈ s.rq ∨ u = t := by simpa [Sched.rqPush] using hu
    have := h.rqReady u
    grind
  · intro u hu
    have hmem : u ∈ s.rq ∨ u = t := by simpa [Sched.rqPush] using hu
    rcases hmem with hmem | rfl
    · exact h.rqNotIdle u hmem
    · exact hidle
  · intro c u hc hu
    have hne : u ≠ t := by
      rintro rfl
      exact hcur c hc hu
    rw [hs, if_neg hne]
    exact h.curState c u hc hu
  · intro c u hu
    have hne : u ≠ t := by
      rintro rfl
      exact hi c hu
    rw [hs, if_neg hne]
    exact h.idleState c u hu
  · intro u hu
    have hmem : u ∈ s.rq ∨ u = t := by simpa [Sched.rqPush] using hu
    rcases hmem with hmem | rfl
    · exact h.rqLive u hmem
    · exact hlive
  · intro u hu
    have hne : u ≠ t := by
      rintro rfl
      exact hu hlive
    rw [hs, if_neg hne]
    exact h.deadState u hu

theorem Core.wakeable (h : Inv s) (ht : s.stateOf t = .sleeping ∨ s.stateOf t = .blocked) :
    Inv (s.rqPush t) := by
  apply h.rqPush
  · by_contra hd
    have := h.deadState t hd
    grind
  · intro hq
    have := h.rqReady t hq
    grind
  · rintro ⟨c, hc⟩
    have := h.idleState c t hc
    grind
  · intro c hx hc
    have := h.curState c t hx hc
    grind

theorem Core.setReady (h : Core (some c) s) (hc : s.current c = some t) :
    Core (some c) (s.setState t .ready) := by
  have hs (u : Nat) : (s.setState t .ready).stateOf u = if u = t then .ready else s.stateOf u :=
    stateOf_setTask _
  refine ⟨h.curUnique, h.rqNodup, ?_, h.rqNotIdle, ?_, h.curIdle, ?_, h.idleCur, h.idleUnique, h.rqLive,
    h.curLive, h.idleLive, ?_, h.picked⟩
  · intro u hu
    have := h.rqReady u hu
    grind
  · intro c' u hx hu
    have hne : u ≠ t := by
      rintro rfl
      exact hx (congrArg some (h.curUnique c' c u hu hc))
    rw [hs, if_neg hne]
    exact h.curState c' u hx hu
  · intro c' u hu
    have := h.idleState c' u hu
    grind
  · intro u hu
    have := h.deadState u hu
    grind

theorem Core.dispatch (h : Core (some c) s) (hf : (f (s.task t)).state = .running)
    (hlive : t ∈ s.allTasks) (hq : t ∉ s.rq) (hcur : ∀ c', s.current c' = some t → c' = c)
    (hidle : ∀ c', s.idle c' = some t → c' = c) (hc : s.idle c ≠ none) :
    Inv { s.setTask t f with cpus := Function.update s.cpus c { s.cpus c with current := some t } } := by
  generalize hs' : ({ s.setTask t f with
    cpus := Function.update s.cpus c { s.cpus c with current := some t } } : Sched n) = s'
  have hs (u : Nat) : s'.stateOf u = if u = t then .running else s.stateOf u := by
    rw [← hs', ← hf]
    exact stateOf_setTask f
  have hcu (c' : Fin n) : s'.current c' = if c' = c then some t else s.current c' := by
    rw [← hs']
    by_cases he : c' = c
    · subst he
      simp [current]
    · simp [current, he]
  have hid (c' : Fin n) : s'.idle c' = s.idle c' := by
    rw [← hs']
    by_cases he : c' = c
    · subst he
      simp [idle]
    · simp [idle, he]
  have hrq : s'.rq = s.rq := by rw [← hs']; rfl
  have hall : s'.allTasks = s.allTasks := by rw [← hs']; rfl
  have hpick : s'.picked = s.picked := by rw [← hs']; rfl
  refine ⟨?_, hrq ▸ h.rqNodup, ?_, ?_, ?_, ?_, ?_, ?_, ?_, ?_, ?_, ?_, ?_, hpick ▸ h.picked⟩
  · intro c₁ c₂ u h₁ h₂
    have := h.curUnique c₁ c₂ u
    have := hcur c₁
    have := hcur c₂
    grind
  · intro u hu
    have := h.rqReady u
    grind
  · rintro u hu ⟨c', he⟩
    exact h.rqNotIdle u (hrq ▸ hu) ⟨c', hid c' ▸ he⟩
  · intro c' u _ hu
    have := h.curState c' u
    grind
  · intro c' u hu
    have := h.curIdle c' u
    grind
  · intro c' u hu
    have := h.idleState c' u
    grind
  · intro c₁ c₂ u h₁ h₂
    have := h.idleCur c₁ c₂ u
    have := hidle c₁
    grind
  · intro c₁ c₂ u h₁ h₂
    exact h.idleUnique c₁ c₂ u (hid c₁ ▸ h₁) (hid c₂ ▸ h₂)
  · intro u hu
    rw [hall]
    exact h.rqLive u (hrq ▸ hu)
  · intro c' u hu
    have := h.curLive c' u
    grind
  · intro c' u hu
    rw [hall]
    exact h.idleLive c' u (hid c' ▸ hu)
  · intro u hu
    have := h.deadState u
    grind

theorem Core.close (h : Core (some c) s)
    (hc : ∀ t, s.current c = some t → s.stateOf t = .running ∨ s.stateOf t = .stopped) : Inv s := by
  refine { h with curState := ?_ }
  intro c' t _ ht
  by_cases he : c' = c
  · subst he
    exact hc t ht
  · exact h.curState c' t (by simpa using he) ht

theorem Core.except (h : Inv s) (c : Fin n) : Core (some c) s :=
  { h with curState := fun c' t _ => h.curState c' t (by simp) }

theorem Core.setCurrent (h : Inv s) (hc : s.current c = some t) (hidle : ¬ s.isIdle t)
    (f : Task → Task) : Core (some c) (s.setTask t f) := by
  have hs (u : Nat) (hne : u ≠ t) : (s.setTask t f).stateOf u = s.stateOf u := by
    rw [stateOf_setTask, if_neg hne]
  have hrun := h.curState c t (by simp) hc
  refine ⟨h.curUnique, h.rqNodup, ?_, h.rqNotIdle, ?_, h.curIdle, ?_, h.idleCur, h.idleUnique, h.rqLive,
    h.curLive, h.idleLive, ?_, h.picked⟩
  · intro u hu
    have hr := h.rqReady u hu
    rw [hs u (by grind)]
    exact hr
  · intro c' u hx hu
    have hne : u ≠ t := by
      rintro rfl
      exact hx (congrArg some (h.curUnique c' c u hu hc))
    rw [hs u hne]
    exact h.curState c' u (by simp) hu
  · intro c' u hu
    have hne : u ≠ t := by
      rintro rfl
      exact hidle ⟨c', hu⟩
    rw [hs u hne]
    exact h.idleState c' u hu
  · intro u hu
    have hne : u ≠ t := by
      rintro rfl
      exact hu (h.curLive c u hc)
    rw [hs u hne]
    exact h.deadState u hu

theorem Core.switchTo (h : Core (some c) s) (hc : s.current c = some t) (hprev : s.stateOf t ≠ .ready)
    {next : Nat} (hne : next ≠ t) (hstate : s.stateOf next ≠ .stopped ∧ s.stateOf next ≠ .zombie)
    (hlive : next ∈ s.allTasks) (hq : next ∉ s.rq) (hcur : ∀ c', s.current c' = some next → c' = c)
    (hidle : ∀ c', s.idle c' = some next → c' = c) : Inv (s.switchTo c t next) := by
  let s₁ : Sched n := { s with picked := (next, s.stateOf next) :: s.picked }
  have h₁ : Core (some c) s₁ := by
    refine { h with picked := ?_ }
    intro p hp
    rcases List.mem_cons.mp hp with rfl | hp
    · exact hstate
    · exact h.picked p hp
  have htq : t ∉ s.rq := fun hm => hprev (h.rqReady t hm)
  have hi : s.idle c ≠ none := h.curIdle c t hc
  let f : Task → Task := fun k => { k with state := .running, sliceLeft := timeSlice, lastCpu := c.val }
  unfold Sched.switchTo
  dsimp only
  split_ifs with hr hid
  · exact (h₁.setReady hc).dispatch (f := f) rfl hlive hq hcur hidle hi
  · have h₂ : Core (some c) (s₁.rqPush t) := by
      apply h₁.rqPush (h.curLive c t hc) htq hid
      intro c' hx hu
      exact hx (congrArg some (h.curUnique c' c t hu hc))
    have hq₂ : next ∉ (s₁.rqPush t).rq := by
      simp only [Sched.rqPush, List.mem_append, List.mem_singleton, not_or]
      exact ⟨hq, hne⟩
    exact h₂.dispatch (f := f) rfl hlive hq₂ hcur hidle hi
  · exact h₁.dispatch (f := f) rfl hlive hq hcur hidle hi

theorem Core.schedule (h : Core (some c) s) (hc : s.current c = some t)
    (hprev : s.stateOf t ≠ .ready) : Inv (s.schedule c) := by
  simp only [Sched.schedule, hc]
  cases hrq : s.rq with
  | cons next rest =>
    simp only [rqPop, hrq]
    have hnd := List.nodup_cons.mp (hrq ▸ h.rqNodup)
    have hmem : next ∈ s.rq := by simp [hrq]
    have hready := h.rqReady next hmem
    have hsub (u : Nat) (hu : u ∈ rest) : u ∈ s.rq := by simp [hrq, hu]
    have h₁ : Core (some c) ({ s with rq := rest } : Sched n) :=
      { h with
        rqNodup := hnd.2
        rqReady := fun u hu => h.rqReady u (hsub u hu)
        rqNotIdle := fun u hu => h.rqNotIdle u (hsub u hu)
        rqLive := fun u hu => h.rqLive u (hsub u hu) }
    refine h₁.switchTo hc hprev ?_ ?_ (h.rqLive next hmem) hnd.1 ?_ ?_
    · rintro rfl
      exact hprev hready
    · change s.stateOf next ≠ .stopped ∧ s.stateOf next ≠ .zombie
      simp [hready]
    · intro c' hu
      by_contra hx
      have := h.curState c' next (by simpa using hx) hu
      grind
    · intro c' hu
      exact absurd ⟨c', hu⟩ (h.rqNotIdle next hmem)
  | nil =>
    simp only [rqPop, hrq]
    split
    · rename_i hr
      apply h.close
      intro u hu
      obtain rfl : t = u := Option.some.inj (hc.symm.trans hu)
      exact .inl hr
    · rename_i hr
      obtain ⟨next, hi⟩ := Option.ne_none_iff_exists'.mp (h.curIdle c t hc)
      simp only [hi]
      have hstate := h.idleState c next hi
      apply h.switchTo hc hprev _ _ (h.idleLive c next hi) (by simp [hrq])
        (fun c' => h.idleCur c c' next hi)
      · intro c' hu
        exact h.idleUnique c' c next hu hi
      · grind
      · grind

/-! ### The steps -/

theorem Core.yield (h : Inv s) (c : Fin n) : Inv (s.schedule c) := by
  cases hc : s.current c with
  | none => simpa only [Sched.schedule, hc] using h
  | some t =>
    apply (h.except c).schedule hc
    have := h.curState c t (by simp) hc
    grind

theorem Core.leave (h : Inv s) (hc : s.current c = some t) (hidle : ¬ s.isIdle t)
    (hf : (f (s.task t)).state ≠ .ready) : Inv ((s.setTask t f).schedule c) := by
  apply (h.setCurrent hc hidle f).schedule hc
  rw [stateOf_setTask, if_pos rfl]
  exact hf

theorem Core.stop (h : Inv s) (hc : s.current c = some t) (hidle : ¬ s.isIdle t) (sig : Nat) :
    Inv (s.taskStop t sig) := by
  apply (h.setCurrent hc hidle _).close
  intro u hu
  obtain rfl : t = u := Option.some.inj (hc.symm.trans hu)
  exact .inr (by rw [stateOf_setTask, if_pos rfl])

theorem Core.wakeSleeper (h : Inv s) (now t : Nat) : Inv (Sched.wakeSleeper now s t) := by
  unfold Sched.wakeSleeper
  dsimp only
  have h₁ : Inv (if s.stateOf t = .sleeping ∧ (s.task t).wakeAt ≤ now then s.rqPush t else s) := by
    split
    · rename_i hs
      exact h.wakeable (.inl hs.1)
    · exact h
  generalize (if s.stateOf t = .sleeping ∧ (s.task t).wakeAt ≤ now then s.rqPush t else s) = s₁ at h₁ ⊢
  split
  · split
    · rename_i hs
      apply Core.wakeable (h₁.setTask rfl)
      rw [stateOf_setTask, if_pos rfl]
      exact hs
    · exact (h₁.setTask rfl).setTask rfl
  · exact h₁

theorem Core.groupExitCb (h : Inv s) (self t : Nat) : Inv (Sched.groupExitCb self s t) := by
  unfold Sched.groupExitCb
  dsimp only
  split
  · exact h
  split
  · rename_i hs
    apply Core.wakeable (h.setTask rfl)
    rw [stateOf_setTask, if_pos rfl]
    exact hs
  · exact (h.setTask rfl).setTask rfl

theorem Core.reparentChild (h : Inv s) (self t : Nat) : Inv (Sched.reparentChild self s t) := by
  unfold Sched.reparentChild
  split
  · exact h.setTask rfl
  · exact h

theorem Core.wakeSleepers (h : Inv s) (now : Nat) : Inv (s.wakeSleepers now) :=
  invariant_foldl (P := Inv) (fun _ t hs => hs.wakeSleeper now t) s.allTasks h

theorem Core.tick (h : Inv s) (t now : Nat) : Inv (s.schedTick t now) := by
  unfold schedTick
  dsimp only
  have h₁ : Inv (s.setTask t fun k => { k with runtime := k.runtime + 1 }) := h.setTask rfl
  have h₂ := h₁.wakeSleepers now
  split
  · exact (h₂.setTask rfl).setTask rfl
  · exact h₂.setTask rfl

theorem Core.wake (h : Inv s) (t : Nat) : Inv (s.taskWake t) := by
  unfold taskWake
  split
  · exact h
  split
  · rename_i hs
    exact h.wakeable hs.symm
  split
  · exact h.setTask rfl
  · exact h

theorem Core.cont (h : Inv s) (hok : s.stateOf t = .stopped → ¬ s.busy t) : Inv (s.taskContinue t) := by
  unfold taskContinue
  split
  · rename_i hs
    apply Core.rqPush (h.setTask rfl)
    · by_contra hd
      have := h.deadState t hd
      grind
    · intro hq
      have := h.rqReady t hq
      grind
    · rintro ⟨c, hc⟩
      have := h.idleState c t hc
      grind
    · intro c _ hc
      exact hok hs ⟨c, hc⟩
  · exact h

theorem Core.collect (h : Inv s) (cur : Nat) (pid : Int) (w : Bool) :
    Inv (s.taskCollectChildOpts cur pid w) := by
  unfold taskCollectChildOpts
  dsimp only
  split
  · exact h
  split
  · exact h.setTask rfl
  · exact h.setTask rfl

theorem Core.reap (h : Inv s) : Inv s.taskReapZombies := by
  have hkeep (t : Nat) (ht : t ∈ s.allTasks) (hs : s.stateOf t ≠ .zombie) :
      t ∈ s.taskReapZombies.allTasks := by
    simp [taskReapZombies, ht, hs]
  refine { h with rqLive := ?_, curLive := ?_, idleLive := ?_, deadState := ?_ }
  · intro t ht
    exact hkeep t (h.rqLive t ht) (by simp [h.rqReady t ht])
  · intro c t hc
    have := h.curState c t (by simp) hc
    exact hkeep t (h.curLive c t hc) (by grind)
  · intro c t hc
    have := h.idleState c t hc
    exact hkeep t (h.idleLive c t hc) (by grind)
  · intro t ht
    by_cases hm : t ∈ s.allTasks
    · right
      by_contra hs
      exact ht (hkeep t hm hs)
    · exact h.deadState t hm

theorem Core.enter (h : Inv s) (ht : t ∉ s.allTasks) (next : Nat) :
    Inv { s.setTask t f with nextId := next, allTasks := t :: s.allTasks } := by
  have hs (u : Nat) (hne : u ≠ t) : (s.setTask t f).stateOf u = s.stateOf u := by
    rw [stateOf_setTask, if_neg hne]
  have hne (u : Nat) (hu : u ∈ s.allTasks) : u ≠ t := by
    rintro rfl
    exact ht hu
  refine ⟨h.curUnique, h.rqNodup, ?_, h.rqNotIdle, ?_, h.curIdle, ?_, h.idleCur, h.idleUnique, ?_, ?_,
    ?_, ?_, h.picked⟩
  · intro u hu
    exact (hs u (hne u (h.rqLive u hu))).trans (h.rqReady u hu)
  · intro c u hx hu
    have hr := h.curState c u hx hu
    rw [← hs u (hne u (h.curLive c u hu))] at hr
    exact hr
  · intro c u hu
    have hr := h.idleState c u hu
    rw [← hs u (hne u (h.idleLive c u hu))] at hr
    exact hr
  · exact fun u hu => List.mem_cons_of_mem t (h.rqLive u hu)
  · exact fun c u hu => List.mem_cons_of_mem t (h.curLive c u hu)
  · exact fun c u hu => List.mem_cons_of_mem t (h.idleLive c u hu)
  · intro u hu
    have hu' : u ≠ t ∧ u ∉ s.allTasks := by simpa using hu
    have hr := h.deadState u hu'.2
    rw [← hs u hu'.1] at hr
    exact hr

theorem Core.start (h : Inv s) (ht : t ∉ s.allTasks) (k : Task) : Inv (s.taskStart t k) := by
  apply Core.rqPush (h.enter ht _)
  · simp
  · exact fun hq => ht (h.rqLive t hq)
  · rintro ⟨c, hc⟩
    exact ht (h.idleLive c t hc)
  · intro c _ hc
    exact ht (h.curLive c t hc)

theorem Core.initAp (h : Inv s) (hcur : s.current c = none) (hidle : s.idle c = none)
    (ht : t ∉ s.allTasks) : Inv (s.schedInitAp c t) := by
  generalize hs' : s.schedInitAp c t = s'
  have hs (u : Nat) : s'.stateOf u = if u = t then .running else s.stateOf u := by
    rw [← hs']
    by_cases he : u = t
    · subst he
      simp [stateOf, schedInitAp, setState, Sched.setTask]
    · simp [stateOf, schedInitAp, makeIdle, setState, Sched.setTask, he]
  have hcu (c' : Fin n) : s'.current c' = if c' = c then some t else s.current c' := by
    rw [← hs']
    by_cases he : c' = c
    · subst he
      simp [current, schedInitAp]
    · simp [current, schedInitAp, makeIdle, setState, Sched.setTask, he]
  have hid (c' : Fin n) : s'.idle c' = if c' = c then some t else s.idle c' := by
    rw [← hs']
    by_cases he : c' = c
    · subst he
      simp [idle, schedInitAp]
    · simp [idle, schedInitAp, makeIdle, setState, Sched.setTask, he]
  have hrq : s'.rq = s.rq := by rw [← hs']; rfl
  have hall : s'.allTasks = t :: s.allTasks := by rw [← hs']; rfl
  have hpick : s'.picked = s.picked := by rw [← hs']; rfl
  have hlive (c' : Fin n) (u : Nat) := h.curLive c' u
  have hilive (c' : Fin n) (u : Nat) := h.idleLive c' u
  have hqlive (u : Nat) := h.rqLive u
  refine ⟨?_, hrq ▸ h.rqNodup, ?_, ?_, ?_, ?_, ?_, ?_, ?_, ?_, ?_, ?_, ?_, hpick ▸ h.picked⟩
  · intro c₁ c₂ u h₁ h₂
    have := h.curUnique c₁ c₂ u
    grind
  · intro u hu
    have := h.rqReady u
    grind
  · rintro u hu ⟨c', he⟩
    have hn : ¬ s.idle c' = some u := fun hh => h.rqNotIdle u (hrq ▸ hu) ⟨c', hh⟩
    grind
  · intro c' u _ hu
    have := h.curState c' u
    grind
  · intro c' u hu
    have := h.curIdle c' u
    grind
  · intro c' u hu
    have := h.idleState c' u
    grind
  · intro c₁ c₂ u h₁ h₂
    have := h.idleCur c₁ c₂ u
    grind
  · intro c₁ c₂ u h₁ h₂
    have := h.idleUnique c₁ c₂ u
    grind
  · grind
  · grind
  · grind
  · intro u hu
    have := h.deadState u
    grind

theorem byTask_cases {P : Sched n → Prop} (h : P s) {f : Nat → Sched n}
    (hf : ∀ t, s.current c = some t → ¬ s.isIdle t → P (f t)) : P (s.byTask c f) := by
  unfold byTask
  split
  · exact h
  rename_i t hc
  split
  · exact h
  · rename_i hi
    exact hf t hc hi

theorem byCurrent_cases {P : Sched n → Prop} (h : P s) {f : Nat → Sched n}
    (hf : ∀ t, s.current c = some t → P (f t)) : P (s.byCurrent c f) := by
  unfold byCurrent
  split
  · exact h
  · next t ht => exact hf t ht

theorem inv_step (s : Sched n) (e : SchedEvent n) (h : Inv s) (hok : ContinueSettled s e) :
    Inv (s.step e) := by
  cases e with
  | yield c => exact h.yield c
  | sleep c ms now =>
    apply byTask_cases h
    intro t hc hi
    unfold taskSleepMs
    split
    · exact h.setTask rfl
    · exact h.leave hc hi (by simp)
  | block c =>
    apply byTask_cases h
    intro t hc hi
    unfold taskBlock
    split
    · exact h.setTask rfl
    · exact h.leave hc hi (by simp)
  | wake t => exact h.wake t
  | cont t => exact h.cont hok
  | stop c sig => exact byTask_cases h fun t hc hi => h.stop hc hi sig
  | tick c now => exact byCurrent_cases h fun t _ => h.tick t now
  | preempt c w =>
    apply byCurrent_cases h
    intro t _
    unfold schedPreempt
    exact iteInduction (fun _ => h.yield c) (fun _ => h)
  | exit c code => exact byTask_cases h fun t hc hi => h.leave hc hi (by simp)
  | killOthers c =>
    exact byTask_cases h fun t _ _ =>
      invariant_foldl (P := Inv) (fun _ u hs => hs.groupExitCb t u) s.allTasks h
  | reparent c =>
    exact byTask_cases h fun t _ _ =>
      invariant_foldl (P := Inv) (fun _ u hs => hs.reparentChild t u) s.allTasks h
  | reap => exact h.reap
  | collect c pid w => exact byTask_cases h fun t _ _ => h.collect t pid w
  | start t k =>
    by_cases ht : t ∈ s.allTasks
    · simpa only [step, if_pos ht] using h
    · simpa only [step, if_neg ht] using h.start ht k
  | initAp c t =>
    by_cases ht : s.current c = none ∧ s.idle c = none ∧ t ∉ s.allTasks
    · simpa only [step, if_pos ht] using h.initAp ht.1 ht.2.1 ht.2.2
    · simpa only [step, if_neg ht] using h

theorem inv_schedInit (n : Nat) : Inv (schedInit n) := by
  have hcu (c : Fin (n + 1)) : (schedInit n).current c = if c = 0 then some 0 else none := by
    by_cases he : c = 0 <;> simp [current, schedInit, makeIdle, Sched.setTask, he]
  have hid (c : Fin (n + 1)) : (schedInit n).idle c = if c = 0 then some 1 else none := by
    by_cases he : c = 0 <;> simp [idle, schedInit, makeIdle, Sched.setTask, he]
  have hs (t : Nat) : (schedInit n).stateOf t = if t = 0 then .running else .ready := by
    rcases t with _ | _ | t <;> simp [stateOf, schedInit, makeIdle, Sched.setTask]
  have hrq : (schedInit n).rq = [] := rfl
  have hall : (schedInit n).allTasks = [1, 0] := rfl
  have hpick : (schedInit n).picked = [] := rfl
  constructor <;> grind [isIdle]

theorem Core.exclusive (h : Inv s) : Exclusive s := by
  refine ⟨h.curUnique, h.rqNodup, ?_, h.picked⟩
  intro c t hc hq
  have := h.curState c t (by simp) hc
  have := h.rqReady t hq
  grind

/-- Every interleaving of the critical sections, on any number of CPUs, in
which no task is continued before it has been switched out. -/
theorem sched_exclusive (n : Nat) (es : List (SchedEvent (n + 1)))
    (h : Along ContinueSettled step (schedInit n) es) : Exclusive (run step (schedInit n) es) :=
  (invariant_run inv_step (inv_schedInit n) h).exclusive

def stopThenContinue : List (SchedEvent 2) :=
  [.initAp 1 2, .start 3 { isUser := true }, .preempt 1 true, .stop 1 19, .yield 1, .cont 3, .yield 0]

theorem sched_exclusive_stopThenContinue :
    Along ContinueSettled step (schedInit 1) stopThenContinue ∧
      Exclusive (run step (schedInit 1) stopThenContinue) := by
  have h : Along ContinueSettled step (schedInit 1) stopThenContinue := by
    simp only [stopThenContinue, Along, ContinueSettled]
    decide
  exact ⟨h, sched_exclusive 1 stopThenContinue h⟩

/-- The same run with the continue in the window before the stopped task's
yield: the other CPU takes the task up while it is still current. -/
theorem continue_in_stop_window_shares_task :
    ¬ ∀ es : List (SchedEvent 2), Exclusive (run step (schedInit 1) es) := by
  intro h
  have hcur := (h [.initAp 1 2, .start 3 { isUser := true }, .preempt 1 true, .stop 1 19, .cont 3,
    .yield 0]).1 0 1 3 (by decide) (by decide)
  exact absurd hcur (by decide)

end Sched

end Sic
