import Sic.Proc.Signal

/-! A killed task is made runnable, and it neither blocks nor stops again with
the kill pending, unless the kill finds it stopped, or `kill(-1)` finds it
blocked, or it arrives while the task is about to stop. -/

namespace Sic

def Task.KillPending (k : Task) : Prop := k.groupExit = true ∨ k.sigPending.getLsbD (sigkill - 1) = true

instance (k : Task) : Decidable k.KillPending :=
  inferInstanceAs (Decidable (_ ∨ _))

def Task.groupTarget (self k : Task) : Bool := k.tgid == self.tgid && !k.groupExit

theorem Task.KillPending.signalPending {k : Task} (h : k.KillPending) : k.signalPending = true := by
  rcases h with h | h
  · simp [Task.signalPending, h]
  have hun : uncatchable.getLsbD (sigkill - 1) = true := by decide
  have hb : (k.sigPending &&& ~~~(k.sigBlocked &&& ~~~uncatchable)).getLsbD (sigkill - 1) = true := by
    rw [BitVec.getLsbD_and, h, BitVec.getLsbD_not, BitVec.getLsbD_and, BitVec.getLsbD_not, hun]
    cases k.sigBlocked.getLsbD (sigkill - 1) <;> decide
  have hne : k.sigPending &&& ~~~(k.sigBlocked &&& ~~~uncatchable) ≠ 0#64 := by
    intro h0
    rw [h0] at hb
    simp at hb
  simp [Task.signalPending, hne]

theorem Task.KillPending.of_clear {k : Task} {m : U64}
    (h : Task.KillPending { k with sigPending := k.sigPending &&& m }) : k.KillPending := by
  rcases h with h | h
  · exact .inl h
  · rw [BitVec.getLsbD_and] at h
    exact .inr (by grind)

namespace SignalState

open Sched (Spares Placed KernelIdle)

variable {n : Nat} {s s' : SignalState n} {c : Fin n} {t u : Nat}

/-- The event does not leave a killed task blocked or stopped: a kill does not
find its target stopped, `kill(-1)` does not find it blocked, and no task stops
with a kill pending. -/
def Wakeable (s : SignalState n) : SignalEvent n → Prop
  | .wakePosted t => (s.sched.task t).KillPending → s.sched.stateOf t ≠ .stopped
  | .killAll c sig => sig = sigkill → ∀ self ∈ s.sched.executing c, ∀ t ∈ s.sched.allTasks,
      (s.sched.task self).killAllTarget (s.sched.task t) = true →
        s.sched.stateOf t ≠ .blocked ∧ s.sched.stateOf t ≠ .stopped
  | .sched (.killOthers c) => ∀ self ∈ s.sched.current c, ∀ t ∈ s.sched.allTasks,
      (s.sched.task self).groupTarget (s.sched.task t) = true → s.sched.stateOf t ≠ .stopped
  | .stop c => ∀ t ∈ s.sched.executing c, ¬ (s.sched.task t).KillPending
  | _ => True

structure Sound (t : Nat) (s : SignalState n) : Prop where
  armed : s.phase t = .armed → t ∈ s.sched.allTasks ∧
    (s.sched.stateOf t = .ready ∨ s.sched.stateOf t = .running)
  told : s.phase t = .armed → (s.sched.task t).KillPending → s.due t = 0 → (s.sched.task t).wakePending = true
  safe : t ∈ s.sched.allTasks → (s.sched.task t).isUser = true → (s.sched.task t).KillPending → s.due t = 0 →
    s.sched.stateOf t ≠ .blocked ∧ s.sched.stateOf t ≠ .stopped

structure Inv (s : SignalState n) : Prop where
  placed : Placed s.sched
  idle : KernelIdle s.sched
  sound : ∀ t, s.Sound t

theorem Sound.spares (h : s.Sound t) (hs : Spares (s.sched.stateOf t ≠ .stopped) t s.sched s'.sched)
    (hp : s'.phase t = s.phase t) (hd : s'.due t = s.due t) : s'.Sound t := by
  have hst := hs.task.state
  have hw := hs.task.wake
  have hsig := hs.task.sig (sigkill - 1) (by decide)
  have hg := hs.task.group
  have hu := hs.task.user
  have harm := h.armed
  have htold := h.told
  have hsafe := h.safe
  have hlive := hs.live
  constructor
  · intro ha
    obtain ⟨hm, hr⟩ := harm (hp ▸ ha)
    refine ⟨hlive hm ?_, ?_⟩ <;> grind [Sched.stateOf]
  · intro ha hk hd0
    obtain ⟨hm, hr⟩ := harm (hp ▸ ha)
    have := htold (hp ▸ ha)
    grind [Sched.stateOf, Task.KillPending]
  · intro hm hu' hk hd0
    have := hsafe (hs.old hm)
    grind [Sched.stateOf, Task.KillPending]

theorem Inv.own (h : s.Inv) (hp : Placed s'.sched)
    (hother : ∀ u, u ≠ t → Spares (s.sched.stateOf u ≠ .stopped) u s.sched s'.sched)
    (hphase : ∀ u, u ≠ t → s'.phase u = s.phase u) (hdue : ∀ u, u ≠ t → s'.due u = s.due u)
    (hidle : s'.sched.isIdle t → t ∈ s'.sched.allTasks ∧ s'.sched.stateOf t ≠ .zombie ∧
      (s'.sched.task t).isUser = false) (hself : s'.Sound t) : s'.Inv := by
  refine ⟨hp, fun u hu => ?_, fun u => ?_⟩
  · by_cases hut : u = t
    · subst hut
      exact hidle hu
    · exact h.idle.spares (hother u hut) hu
  · by_cases hut : u = t
    · subst hut
      exact hself
    · exact (h.sound u).spares (hother u hut) (hphase u hut) (hdue u hut)

theorem inv_sched (h : s.Inv) (e : SchedEvent n) (he : e.leaver = none) (hok : s.Wakeable (.sched e)) :
    Inv { s with sched := s.sched.step e } := by
  refine ⟨Sched.placed_step _ e h.placed, Sched.kernelIdle_step _ e h.idle, fun t => ?_⟩
  have hown (c : Fin n) (hc : e.leaver = some c) : s.sched.current c = some t → s.sched.isIdle t := by
    rw [he] at hc
    cases hc
  by_cases hl : t ∈ s.sched.allTasks
  · refine (h.sound t).spares (Sched.spares_step _ e ?_ (.inl hl) hown) rfl rfl
    rintro c self rfl hc hg htg
    exact hok self hc t hl (by simp [Task.groupTarget, hg, htg])
  · have harm : s.phase t ≠ .armed := fun ha => hl ((h.sound t).armed ha).1
    refine ⟨fun ha => absurd ha harm, fun ha => absurd ha harm, fun hl' _ _ _ => ?_⟩
    by_cases hnew : e.newTask = some t
    · have := Sched.stateOf_newTask hnew hl hl'
      grind
    · exact absurd ((Sched.spares_step (g := True) _ e (fun _ _ _ _ _ _ => trivial) (.inr hnew) hown).old hl') hl

theorem Sound.mono (h : s.Sound t) (hl : s'.sched.allTasks = s.sched.allTasks)
    (hst : s'.sched.stateOf t = s.sched.stateOf t) (hp : s'.phase t = .armed → s.phase t = .armed)
    (hw : (s.sched.task t).wakePending = true → (s'.sched.task t).wakePending = true)
    (hu : (s'.sched.task t).isUser = (s.sched.task t).isUser)
    (hk : s'.due t = 0 → (s'.sched.task t).KillPending → s.due t = 0 ∧ (s.sched.task t).KillPending) :
    s'.Sound t := by
  refine ⟨fun ha => ?_, fun ha hk' hd => ?_, fun hm hu' hk' hd => ?_⟩
  · rw [hl, hst]
    exact h.armed (hp ha)
  · obtain ⟨hd, hk⟩ := hk hd hk'
    exact hw (h.told (hp ha) hk hd)
  obtain ⟨hd, hk⟩ := hk hd hk'
  rw [hst]
  exact h.safe (hl ▸ hm) (hu ▸ hu') hk hd

theorem Inv.touch (h : s.Inv) {f : Task → Task} (hs : s'.sched = s.sched.setTask t f)
    (hst : (f (s.sched.task t)).state = (s.sched.task t).state)
    (hu : (f (s.sched.task t)).isUser = (s.sched.task t).isUser)
    (hw : (s.sched.task t).wakePending = true → (f (s.sched.task t)).wakePending = true)
    (hphase : ∀ u, u ≠ t → s'.phase u = s.phase u) (hdue : ∀ u, u ≠ t → s'.due u = s.due u)
    (hp : s'.phase t = .armed → s.phase t = .armed)
    (hk : s'.due t = 0 → (f (s.sched.task t)).KillPending → s.due t = 0 ∧ (s.sched.task t).KillPending) :
    s'.Inv := by
  have ht : s'.sched.task t = f (s.sched.task t) := by rw [hs, Sched.task_setTask, if_pos rfl]
  have hst' : s'.sched.stateOf t = s.sched.stateOf t := by rw [Sched.stateOf, ht, hst, Sched.stateOf]
  refine h.own (hs ▸ h.placed.setTask (.inl hst)) (fun u hut => hs ▸ Sched.spares_setTask_of_ne hut) hphase hdue
    (fun hi => ?_) ?_
  · obtain ⟨hl, hz, hk⟩ := h.idle t (by rwa [hs] at hi)
    exact ⟨by rw [hs]; exact hl, hst' ▸ hz, by rw [ht, hu, hk]⟩
  · exact (h.sound t).mono (by rw [hs]; rfl) hst' hp (ht ▸ hw) (ht ▸ hu) (ht ▸ hk)

theorem inv_setPhase (h : s.Inv) {p : SigPhase} (hself : Sound t (s.setPhase t p)) : Inv (s.setPhase t p) :=
  h.own h.placed (fun u _ => .refl u _) (fun _ hut => Function.update_of_ne hut _ _) (fun _ _ => rfl)
    (fun hi => h.idle t hi) hself

theorem inv_discard (h : s.Inv) (sig : Nat) :
    Inv { s with
      sched := s.sched.setTask t fun k => { k with sigPending := k.sigPending &&& ~~~sigBit sig } } := by
  refine h.touch (t := t) (f := fun k => { k with sigPending := k.sigPending &&& ~~~sigBit sig }) rfl rfl rfl id
    (fun _ _ => rfl) (fun _ _ => rfl) id ?_
  exact fun hd hk => ⟨hd, hk.of_clear⟩

theorem inv_post (h : s.Inv) (t sig : Nat) : (s.step (.post t sig)).Inv := by
  refine h.touch (t := t) (f := fun k => { k with sigPending := k.sigPending ||| sigBit sig }) rfl rfl rfl id
    (fun _ _ => rfl) (fun _ hut => Function.update_of_ne hut _ _) id ?_
  intro hd
  simp [step] at hd

theorem inv_wakePosted (h : s.Inv) (t : Nat) (hok : s.Wakeable (.wakePosted t)) :
    (s.step (.wakePosted t)).Inv := by
  refine iteInduction (fun _ => h) fun _ => ?_
  have hsp : Spares False t s.sched (s.sched.taskWake t) := Sched.spares_taskWake t
  have hs := h.sound t
  refine h.own (t := t) (h.placed.wake t) (fun u _ => Sched.spares_taskWake t) (fun _ _ => rfl)
    (fun _ hut => Function.update_of_ne hut _ _) (fun hi => h.idle.spares hsp hi) ?_
  have hkill : ((s.sched.taskWake t).task t).KillPending → (s.sched.task t).KillPending := by
    have := hsp.task.sig (sigkill - 1) (by decide)
    have := hsp.task.group
    grind [Task.KillPending]
  have hst := hsp.task.state
  refine ⟨fun ha => ?_, fun ha _ _ => ?_, fun hm _ hk _ => ?_⟩
  · obtain ⟨hm, hr⟩ := hs.armed ha
    refine ⟨hsp.live hm ?_, ?_⟩ <;> grind [Sched.stateOf]
  · obtain ⟨hm, hr⟩ := hs.armed ha
    change ((s.sched.taskWake t).task t).wakePending = true
    rw [Sched.taskWake_of_runnable hr, Sched.task_setTask, if_pos rfl]
  · have hn := hok (hkill hk)
    change (s.sched.taskWake t).stateOf t ≠ .blocked ∧ (s.sched.taskWake t).stateOf t ≠ .stopped
    by_cases ha : s.sched.stateOf t = .blocked ∨ s.sched.stateOf t = .sleeping
    · rw [Sched.taskWake_of_asleep ha, Sched.stateOf_rqPush]
      exact ⟨by simp, by simp⟩
    · grind [Sched.stateOf]

structure Marked (p : Prop) (k k' : Task) : Prop where
  state : k'.state = k.state
  user : k'.isUser = k.isUser
  thread : k'.isThread = k.isThread
  tgid : k'.tgid = k.tgid
  group : k'.groupExit = k.groupExit
  wake : k.wakePending = true → k'.wakePending = true
  sig : k'.sigPending.getLsbD (sigkill - 1) = k.sigPending.getLsbD (sigkill - 1) ∨ (p ∧ k'.wakePending = true)

theorem Marked.mark {p : Prop} {k k' : Task} (h : Marked p k k') {sig : Nat} (hp : sig = sigkill → p) :
    Marked p k { k' with sigPending := k'.sigPending ||| sigBit sig, wakePending := true } := by
  refine { h with wake := fun _ => rfl, sig := ?_ }
  by_cases hk : sig = sigkill
  · exact .inr ⟨hp hk, rfl⟩
  have hbit : (sigBit sig).getLsbD (sigkill - 1) = false := by
    rw [getLsbD_sigBit]
    have : sigkill - 1 ≠ sig - 1 := by
      simp only [sigkill] at hk ⊢
      omega
    simp [this]
  dsimp only
  rw [BitVec.getLsbD_or, hbit, Bool.or_false]
  exact h.sig.imp_right fun hx => ⟨hx.1, rfl⟩

structure KillingAll (me sig : Nat) (s s' : Sched n) : Prop where
  all : s'.allTasks = s.allTasks
  cpus : s'.cpus = s.cpus
  placed : Placed s'
  task : ∀ u, Marked (sig = sigkill ∧ (s.task me).killAllTarget (s.task u) = true) (s.task u) (s'.task u)

theorem killingAll_cb {me sig : Nat} {s : Sched n} (s' : Sched n) (t : Nat) (h : KillingAll me sig s s') :
    KillingAll me sig s (killAllCb me sig s' t) := by
  refine iteInduction (fun ht => ?_) fun _ => h
  refine iteInduction (fun _ => ?_) fun _ => h
  refine ⟨h.all, h.cpus, h.placed.setTask (.inl rfl), fun u => ?_⟩
  rw [Sched.task_setTask]
  refine iteInduction (fun hut => ?_) fun _ => h.task u
  subst hut
  refine (h.task u).mark fun hk => ⟨hk, ?_⟩
  have hu := h.task u
  simpa only [Task.killAllTarget, hu.user, hu.thread, hu.tgid, hu.state, (h.task me).tgid] using ht

theorem inv_killAll (h : s.Inv) (c : Fin n) (sig : Nat) (hok : s.Wakeable (.killAll c sig)) :
    (s.step (.killAll c sig)).Inv := by
  refine Sched.byExecuting_cases h fun me hme => ?_
  have hloop : KillingAll me sig s.sched (s.sched.allTasks.foldl (killAllCb me sig) s.sched) :=
    invariant_foldl killingAll_cb s.sched.allTasks
      ⟨rfl, rfl, h.placed, fun u => ⟨rfl, rfl, rfl, rfl, rfl, id, .inl rfl⟩⟩
  generalize s.sched.allTasks.foldl (killAllCb me sig) s.sched = sc at hloop
  refine ⟨hloop.placed, fun u hu => ?_, fun u => ?_⟩
  · have hu' : s.sched.isIdle u := by
      simpa only [Sched.isIdle, Sched.idle, hloop.cpus] using hu
    obtain ⟨hl, hz, hk⟩ := h.idle u hu'
    have hm := hloop.task u
    exact ⟨hloop.all ▸ hl, by rw [Sched.stateOf, hm.state]; exact hz, hm.user.trans hk⟩
  · have hs := h.sound u
    have hm := hloop.task u
    have hst : sc.stateOf u = s.sched.stateOf u := hm.state
    have hkill (hk : (sc.task u).KillPending) : (s.sched.task u).KillPending ∨ (sig = sigkill ∧
        (s.sched.task me).killAllTarget (s.sched.task u) = true ∧ (sc.task u).wakePending = true) := by
      have := hm.group
      have := hm.sig
      grind [Task.KillPending]
    refine ⟨fun ha => ?_, fun ha hk hd => ?_, fun hl hu hk hd => ?_⟩
    · obtain ⟨hl, hr⟩ := hs.armed ha
      exact ⟨hloop.all ▸ hl, by rwa [hst]⟩
    · rcases hkill hk with hk | ⟨_, _, hw⟩
      · exact hm.wake (hs.told ha hk hd)
      · exact hw
    · have hl : u ∈ s.sched.allTasks := hloop.all ▸ hl
      rw [hst]
      rcases hkill hk with hk | ⟨hsig, ht, _⟩
      · exact hs.safe hl (hm.user ▸ hu) hk hd
      · exact hok hsig me hme u hl ht

theorem inv_check (h : s.Inv) (c : Fin n) : (s.step (.check c)).Inv := by
  refine Sched.byExecuting_cases h fun t ht => iteInduction (fun hp => inv_setPhase h ?_) fun _ => h
  obtain ⟨_, hl, _, hr⟩ := Sched.executing_eq_some.mp ht
  refine ⟨fun _ => ⟨hl, .inr hr⟩, fun _ hk _ => ?_, (h.sound t).safe⟩
  have hk : (s.sched.task t).KillPending := hk
  rw [hk.signalPending] at hp
  cases hp.2

theorem Sound.of_safe (hp : s.phase t ≠ .armed) (hs : t ∈ s.sched.allTasks → (s.sched.task t).isUser = true →
    (s.sched.task t).KillPending → s.due t = 0 → s.sched.stateOf t ≠ .blocked ∧ s.sched.stateOf t ≠ .stopped) :
    s.Sound t :=
  ⟨fun ha => absurd ha hp, fun ha => absurd ha hp, hs⟩

theorem inv_leave (h : s.Inv) {sc : Sched n} (ht : s.sched.executing c = some t) (hp : Placed sc)
    (hother : ∀ u, u ≠ t → Spares (s.sched.stateOf u ≠ .stopped) u s.sched sc)
    (hidle : sc.isIdle t → s.sched.isIdle t)
    (hsafe : (sc.task t).isUser = true → (sc.task t).KillPending → s.due t = 0 →
      sc.stateOf t ≠ .blocked ∧ sc.stateOf t ≠ .stopped) : Inv { s.setPhase t .free with sched := sc } := by
  refine h.own hp hother (fun _ hut => Function.update_of_ne hut _ _) (fun _ _ => rfl) (fun hi => ?_) ?_
  · exact absurd (hidle hi) (Sched.executing_eq_some.mp ht).2.2.1
  refine Sound.of_safe ?_ fun _ => hsafe
  have hph : (s.setPhase t .free).phase t = .free := Function.update_self _ _ _
  exact fun ha => nomatch hph.symm.trans ha

theorem inv_left (h : s.Inv) {x : TaskState} {sc : Sched n} (ht : s.sched.executing c = some t) (hp : Placed sc)
    (hother : ∀ u, u ≠ t → Spares (s.sched.stateOf u ≠ .stopped) u s.sched sc) (hl : Sched.Left x t s.sched sc)
    (hx : x ≠ .stopped) (hb : x = .blocked → (s.sched.task t).isUser = true → s.phase t = .armed) :
    Inv { s.setPhase t .free with sched := sc } := by
  refine inv_leave h ht hp hother hl.idle.mp fun hu hk hd => ?_
  have hr := (Sched.executing_eq_some.mp ht).2.2.2
  have hk' : (s.sched.task t).KillPending := by
    have := hl.sig (sigkill - 1) (by decide)
    have := hl.group
    grind [Task.KillPending]
  have hst := hl.state
  have htold (hx : x = .blocked) := (h.sound t).told (hb hx (hl.user ▸ hu)) hk' hd
  grind

theorem inv_block (h : s.Inv) (c : Fin n) : (s.step (.block c)).Inv := by
  refine Sched.byExecuting_cases h fun t ht => iteInduction (fun hp => ?_) fun _ => h
  refine inv_left h ht (h.placed.block c t) (fun u hut => Sched.spares_taskBlock hut)
    Sched.left_taskBlock nofun fun _ hu => ?_
  exact hp.resolve_right fun hf => by simp [hu] at hf

theorem inv_sleep (h : s.Inv) (c : Fin n) (ms now : Nat) : (s.step (.sleep c ms now)).Inv := by
  refine Sched.byExecuting_cases h fun t ht => iteInduction (fun hp => ?_) fun _ => h
  exact inv_left h ht (h.placed.sleepMs c t ms now) (fun u hut => Sched.spares_taskSleepMs hut ms now)
    (Sched.left_taskSleepMs ms now) nofun nofun

theorem inv_deliver (h : s.Inv) (c : Fin n) : (s.step (.deliver c)).Inv := by
  refine Sched.byExecuting_cases h fun t ht => iteInduction (fun hp => inv_setPhase h ?_) fun _ => h
  refine Sound.of_safe ?_ (h.sound t).safe
  simp [setPhase]

theorem inv_take (h : s.Inv) (c : Fin n) (d : Disposition) : (s.step (.take c d)).Inv := by
  refine Sched.byExecuting_cases h fun t ht => iteInduction (fun _ => h) fun hp => ?_
  split
  · exact h
  next sig _ =>
  have h' := inv_discard (t := t) h sig
  extract_lets s₁ d'
  have hphase (p : SigPhase) (hp : p ≠ .armed) : Inv (s₁.setPhase t p) := by
    refine inv_setPhase h' (Sound.of_safe ?_ (h'.sound t).safe)
    simpa [setPhase] using hp
  refine iteInduction (fun _ => h') fun _ => ?_
  exact iteInduction (fun _ => hphase _ nofun) fun _ => hphase _ nofun

theorem inv_stop (h : s.Inv) (c : Fin n) (hok : s.Wakeable (.stop c)) : (s.step (.stop c)).Inv := by
  refine Sched.byExecuting_cases h fun t ht => ?_
  split
  · next sig _ =>
    refine inv_leave h ht (h.placed.setTask (.inr ⟨nofun, nofun⟩))
      (fun u hut => Sched.spares_setTask_of_ne hut) id ?_
    intro _ hk _
    refine absurd ?_ (hok t ht)
    simpa [Sched.taskStop, Sched.setTask, Task.KillPending] using hk
  · exact h

theorem inv_exit (h : s.Inv) (c : Fin n) (code : Int) : (s.step (.exit c code)).Inv := by
  refine Sched.byExecuting_cases h fun t ht => iteInduction (fun hp => ?_) fun _ => h
  let f : Task → Task := fun k => { k with exitCode := code, state := .zombie }
  have hsp : Spares False t (s.sched.setTask t f) ((s.sched.setTask t f).schedule c) := Sched.spares_schedule c
  refine inv_leave h ht (h.placed.leave c ⟨nofun, nofun⟩)
    (fun u hut => (Sched.spares_setTask_of_ne hut).trans (Sched.spares_schedule c)) hsp.idle.mp fun _ _ _ => ?_
  have hst := hsp.task.state
  have hz : ((s.sched.setTask t f).task t).state = .zombie := by rw [Sched.task_setTask, if_pos rfl]
  change ((s.sched.setTask t f).schedule c).stateOf t ≠ .blocked ∧
    ((s.sched.setTask t f).schedule c).stateOf t ≠ .stopped
  grind [Sched.stateOf]

theorem inv_step (s : SignalState n) (e : SignalEvent n) (h : s.Inv) (hok : s.Wakeable e) : (s.step e).Inv := by
  cases e with
  | sched e => exact iteInduction (fun he => inv_sched h e he hok) fun _ => h
  | discard t sig => exact iteInduction (fun _ => inv_discard h sig) fun _ => h
  | post t sig => exact inv_post h t sig
  | wakePosted t => exact inv_wakePosted h t hok
  | killAll c sig => exact inv_killAll h c sig hok
  | check c => exact inv_check h c
  | block c => exact inv_block h c
  | sleep c ms now => exact inv_sleep h c ms now
  | deliver c => exact inv_deliver h c
  | take c d => exact inv_take h c d
  | stop c => exact inv_stop h c hok
  | exit c code => exact inv_exit h c code

theorem inv_init (n : Nat) : (init n).Inv := by
  refine ⟨Sched.placed_schedInit n, Sched.kernelIdle_schedInit n, fun t => Sound.of_safe nofun fun _ _ _ _ => ?_⟩
  have hs : (Sched.schedInit n).stateOf t = if t = 0 then .running else .ready := by
    rcases t with _ | _ | t <;> simp [Sched.stateOf, Sched.schedInit, Sched.makeIdle, Sched.setTask]
  change (Sched.schedInit n).stateOf t ≠ .blocked ∧ (Sched.schedInit n).stateOf t ≠ .stopped
  grind

def Reached (t : Nat) (s : Sched n) : Prop := t ∈ s.rq ∨ (s.task t).wakePending = true

theorem reached_taskWake {s : Sched n} (hn : s.stateOf t ≠ .stopped) (hz : s.stateOf t ≠ .zombie) :
    Reached t (s.taskWake t) := by
  by_cases ha : s.stateOf t = .blocked ∨ s.stateOf t = .sleeping
  · rw [Sched.taskWake_of_asleep ha]
    exact .inl (List.mem_append_right _ (List.mem_singleton_self t))
  have hr : s.stateOf t = .ready ∨ s.stateOf t = .running := by
    cases h : s.stateOf t <;> simp [h] at hn hz ha ⊢
  rw [Sched.taskWake_of_runnable hr]
  exact .inr (by rw [Sched.task_setTask, if_pos rfl])

theorem reached_killAll {s : Sched n} {me : Nat} (hp : Placed s) (ht : t ∈ s.allTasks)
    (htarget : (s.task me).killAllTarget (s.task t) = true) :
    Reached t (s.allTasks.foldl (killAllCb me sigkill) s) := by
  let I (rest : List Nat) (s' : Sched n) : Prop :=
    KillingAll me sigkill s s' ∧ (t ∈ rest ∨ (s'.task t).wakePending = true)
  have hstep (u : Nat) (rest : List Nat) (s' : Sched n) (h : I (u :: rest) s') :
    I rest (killAllCb me sigkill s' u) := by
    refine ⟨killingAll_cb s' u h.1, ?_⟩
    have htask : (killAllCb me sigkill s' u).task t = s'.task t ∨
        ((killAllCb me sigkill s' u).task t).wakePending = true := by
      refine iteInduction (motive := fun x : Sched n => x.task t = s'.task t ∨ (x.task t).wakePending = true)
        (fun _ => ?_) fun _ => .inl rfl
      rw [if_pos (by decide), Sched.task_setTask]
      split
      · exact .inr rfl
      · exact .inl rfl
    rcases h.2 with hm | hw
    · rcases List.mem_cons.mp hm with rfl | hm
      · have hu := h.1.task t
        have ht' : (s'.task me).killAllTarget (s'.task t) = true := by
          simpa only [Task.killAllTarget, hu.user, hu.thread, hu.tgid, hu.state, (h.1.task me).tgid] using htarget
        right
        rw [killAllCb, if_pos ht', if_pos (by decide), Sched.task_setTask, if_pos rfl]
      · exact .inl hm
    · exact .inr (htask.elim (fun he => he ▸ hw) id)
  have hloop : I [] (s.allTasks.foldl (killAllCb me sigkill) s) :=
    loop_foldl hstep s.allTasks ⟨⟨rfl, rfl, hp, fun u => ⟨rfl, rfl, rfl, rfl, rfl, id, .inl rfl⟩⟩, .inl ht⟩
  exact .inr (hloop.2.resolve_left (List.not_mem_nil))

theorem reached_killOthers {s : Sched n} {me : Nat} (ht : t ∈ s.allTasks) (hne : t ≠ me)
    (hz : s.stateOf t ≠ .zombie) (htarget : (s.task me).groupTarget (s.task t) = true) :
    Reached t (s.taskKillOtherThreads me) := by
  simp only [Task.groupTarget, Bool.and_eq_true, beq_iff_eq, Bool.not_eq_true'] at htarget
  let I (rest : List Nat) (s' : Sched n) : Prop := Spares True t s s' ∧ Spares True me s s' ∧
    (Reached t s' ∨ (t ∈ rest ∧ (s'.task t).groupExit = false))
  have hstep (u : Nat) (rest : List Nat) (s' : Sched n) (h : I (u :: rest) s') :
    I rest (Sched.groupExitCb me s' u) := by
    obtain ⟨hsp, hme, hd⟩ := h
    have hcb (v : Nat) : Spares True v s' (Sched.groupExitCb me s' u) :=
      Sched.spares_groupExitCb me u fun _ _ _ => trivial
    refine ⟨hsp.trans (hcb t), hme.trans (hcb me), ?_⟩
    rcases hd with hr | ⟨hm, hg⟩
    · exact .inl (hr.imp (Sched.mem_rq_groupExitCb me u) (hcb t).task.wake)
    by_cases hut : t = u
    · subst hut
      have hn : ¬ (t = me ∨ (s'.task t).tgid ≠ (s'.task me).tgid ∨ (s'.task t).state = .zombie ∨
          (s'.task t).groupExit = true) := by
        have := hsp.task.state
        have := hsp.task.tgid
        have := hme.task.tgid
        grind [Sched.stateOf]
      refine .inl ?_
      rw [Sched.groupExitCb, if_neg hn]
      refine iteInduction (fun _ => .inl ?_) fun _ => .inr ?_
      · exact List.mem_append_right _ (List.mem_singleton_self t)
      · rw [Sched.task_setTask, if_pos rfl]
    · refine .inr ⟨List.mem_of_ne_of_mem hut hm, ?_⟩
      have := (Sched.spares_groupExitCb (g := False) me u fun h _ _ => hut h : Spares False t s' _).task.group
      grind
  have hloop : I [] (s.taskKillOtherThreads me) :=
    loop_foldl hstep s.allTasks ⟨.refl t s, .refl me s, .inr ⟨ht, htarget.2⟩⟩
  exact hloop.2.2.resolve_right fun h => List.not_mem_nil h.1

def Kills (s : SignalState n) (t : Nat) : SignalEvent n → Prop
  | .wakePosted u => u = t ∧ s.due t ≠ 0 ∧ (s.sched.task t).KillPending
  | .killAll c sig => sig = sigkill ∧ ∃ me, s.sched.executing c = some me ∧
      (s.sched.task me).killAllTarget (s.sched.task t) = true
  | .sched (.killOthers c) => ∃ me, s.sched.current c = some me ∧ ¬ s.sched.isIdle me ∧ t ≠ me ∧
      (s.sched.task me).groupTarget (s.sched.task t) = true
  | _ => False

theorem reached_of_kills (h : s.Inv) {e : SignalEvent n} (hok : s.Wakeable e) (hl : t ∈ s.sched.allTasks)
    (hz : s.sched.stateOf t ≠ .zombie) (hk : s.Kills t e) : Reached t (s.step e).sched := by
  cases e with
  | wakePosted u =>
    obtain ⟨rfl, hd, hk⟩ := hk
    rw [step, if_neg hd]
    exact reached_taskWake (hok hk) hz
  | killAll c sig =>
    obtain ⟨rfl, me, hme, ht⟩ := hk
    rw [step, Sched.byExecuting, hme]
    exact reached_killAll h.placed hl ht
  | sched e =>
    cases e with
    | killOthers c =>
      obtain ⟨me, hme, hi, hne, ht⟩ := hk
      have hleaver : (SchedEvent.killOthers c).leaver = none := rfl
      rw [step, if_pos hleaver]
      simp only [Sched.step, Sched.byTask, hme, if_neg hi]
      exact reached_killOthers hl hne hz ht
    | _ => exact hk.elim
  | _ => exact hk.elim

/-- In every run in which no kill finds its target stopped, no `kill(-1)` finds
one blocked, and no task stops with a kill pending: a user task that has been
killed is neither blocked nor stopped, but on the run queue, on a CPU or in a
sleep with a timeout; and the event that completes the kill leaves it on the run
queue or leaves a wake on record. -/
theorem kill_reaches_task (n : Nat) (es : List (SignalEvent (n + 1))) (h : Along Wakeable step (init n) es)
    (s : SignalState (n + 1)) (hs : s = run step (init n) es) (t : Nat) (hl : t ∈ s.sched.allTasks)
    (hu : (s.sched.task t).isUser = true) (hz : s.sched.stateOf t ≠ .zombie) :
    ((s.sched.task t).KillPending → s.due t = 0 → s.sched.stateOf t ≠ .blocked ∧ s.sched.stateOf t ≠ .stopped ∧
      (t ∈ s.sched.rq ∨ s.sched.busy t ∨ s.sched.stateOf t = .sleeping)) ∧
    ∀ e, s.Wakeable e → s.Kills t e →
      t ∈ (s.step e).sched.rq ∨ ((s.step e).sched.task t).wakePending = true := by
  have hinv : s.Inv := hs ▸ invariant_run inv_step (inv_init n) h
  refine ⟨fun hk hd => ?_, fun e hok hk => reached_of_kills hinv hok hl hz hk⟩
  obtain ⟨hb, hn⟩ := (hinv.sound t).safe hl hu hk hd
  have hidle : ¬ s.sched.isIdle t := by
    intro hi
    simp [(hinv.idle t hi).2.2] at hu
  refine ⟨hb, hn, ?_⟩
  by_cases hsl : s.sched.stateOf t = .sleeping
  · exact .inr (.inr hsl)
  have hr : s.sched.stateOf t = .ready ∨ s.sched.stateOf t = .running := by
    cases h : s.sched.stateOf t <;> simp [h] at hb hn hz hsl ⊢
  exact (hinv.placed.runnable hl hidle hr).elim .inl fun hx => .inr (.inl hx)

def blockThenKill : List (SignalEvent 1) :=
  let boot : Fin 1 := ⟨0, Nat.one_pos⟩
  [.sched (.start 3 { isUser := true }), .sched (.yield boot), .check boot, .block boot, .post 3 sigkill,
    .wakePosted 3]

theorem kill_reaches_task_blockThenKill :
    (run step (init 0) (blockThenKill.take 5)).sched.stateOf 3 = .blocked ∧
      let s := run step (init 0) blockThenKill
      (s.sched.task 3).KillPending ∧ s.sched.stateOf 3 ≠ .blocked ∧ s.sched.stateOf 3 ≠ .stopped ∧
        (3 ∈ s.sched.rq ∨ s.sched.busy 3 ∨ s.sched.stateOf 3 = .sleeping) := by
  refine ⟨by decide, by decide, ?_⟩
  refine (kill_reaches_task 0 blockThenKill ?_ _ rfl 3 (by decide) (by decide) (by decide)).1 (by decide)
    (by decide)
  simp only [blockThenKill, Along, Wakeable, true_and, and_true]
  decide

/-- A user task takes SIGSTOP and stops; SIGKILL then leaves it stopped, off the
run queue and every CPU, and with no wake on record. -/
theorem kill_of_stopped_task_has_no_effect :
    ¬ ∀ es : List (SignalEvent 1), let s := run step (init 0) es
      ∀ t ∈ s.sched.allTasks, (s.sched.task t).isUser = true → s.sched.stateOf t ≠ .zombie →
        (s.sched.task t).KillPending → s.due t = 0 →
        s.sched.stateOf t ≠ .stopped ∨ t ∈ s.sched.rq ∨ s.sched.busy t ∨ (s.sched.task t).wakePending = true := by
  intro h
  have hs := h [.sched (.start 3 { isUser := true }), .sched (.yield 0), .post 3 sigstop, .wakePosted 3,
    .sleep 0 1 0, .take 0 .dfl, .stop 0, .sched (.yield 0), .post 3 sigkill, .wakePosted 3] 3
    (by decide) (by decide) (by decide) (by decide) (by decide)
  exact absurd hs (by decide)

end SignalState

end Sic
