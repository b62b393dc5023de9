import Sic.Proc.Exit

/-! Each process is reported once, with the code of something that ended it; the
status word says so exactly if the code is not one of those `wait4` confuses. -/

namespace Sic

instance (c : Cause) : Decidable c.Real := by
  cases c <;> unfold Cause.Real <;> infer_instance

instance (c : Cause) : Decidable c.Clear := by
  cases c <;> unfold Cause.Clear <;> infer_instance

theorem decode_wait4Status (c : Cause) (h : c.Real) : decodeStatus (wait4Status c.code) = some c ↔ c.Clear := by
  cases c with
  | exited code =>
    have hall : ∀ code : Fin 256, decodeStatus (wait4Status (Cause.exited code).code) = some (.exited code) ↔
        (Cause.exited code).Clear := by decide +kernel
    exact hall ⟨code, h⟩
  | killed sig =>
    have hall : ∀ sig : Fin 65, 1 ≤ sig.val →
        (decodeStatus (wait4Status (Cause.killed sig).code) = some (.killed sig) ↔ (Cause.killed sig).Clear) := by
      decide +kernel
    exact hall ⟨sig, Nat.lt_succ_of_le h.2⟩ h.1

namespace Sched

variable {n : Nat} {s s' : Sched n} {c : Fin n} {t u : Nat}

structure Same (u : Nat) (s s' : Sched n) : Prop where
  identity : (s'.task u).identity = (s.task u).identity
  reaped : (s.task u).reaped = true → (s'.task u).reaped = true
  old : u ∈ s'.allTasks → u ∈ s.allTasks
  idle : s'.isIdle u ↔ s.isIdle u
  next : s.nextId ≤ s'.nextId

structure Steady (u : Nat) (s s' : Sched n) : Prop extends Same u s s' where
  group : (s'.task u).groupExit = (s.task u).groupExit ∧ (s'.task u).exitCode = (s.task u).exitCode
  zombie : s'.stateOf u = .zombie → s.stateOf u = .zombie
  live : u ∈ s.allTasks → s.stateOf u ≠ .zombie → u ∈ s'.allTasks

theorem Steady.refl (u : Nat) (s : Sched n) : Steady u s s :=
  ⟨⟨rfl, id, id, .rfl, le_rfl⟩, ⟨rfl, rfl⟩, id, fun h _ => h⟩

theorem Spares.same {g : Prop} (h : Spares g u s s') : Same u s s' :=
  ⟨h.task.identity, h.task.reaped, h.old, h.idle, h.next⟩

theorem Spares.zombie {g : Prop} (h : Spares g u s s') (hz : s'.stateOf u = .zombie) : s.stateOf u = .zombie := by
  have := h.task.state
  grind [stateOf]

theorem Spares.steady (h : Spares False u s s') : Steady u s s' :=
  ⟨h.same, h.task.group.resolve_right fun hn => hn.1, h.zombie, h.live⟩

theorem Left.steady {x : TaskState} (h : Left x t s s') (hx : x ≠ .zombie) : Steady t s s' := by
  refine ⟨⟨h.identity, h.reaped, h.live.mp, h.idle, h.next⟩, h.group, fun hz => ?_, fun hl _ => h.live.mpr hl⟩
  have := h.state
  grind

theorem steady_step (s : Sched n) (e : SchedEvent n) (he : e.plain = true)
    (hnew : u ∈ s.allTasks ∨ e.newTask ≠ some u) : Steady u s (s.step e) := by
  by_cases hown : ∀ c, e.leaver = some c → s.current c = some u → s.isIdle u
  · refine Spares.steady (spares_step s e ?_ hnew hown)
    rintro c self rfl
    cases he
  · push Not at hown
    obtain ⟨c, hc, hcur, hi⟩ := hown
    cases e <;> cases hc <;> simp only [step, byTask, hcur, if_neg hi]
    · exact (left_taskSleepMs _ _).steady (by simp)
    · exact left_taskBlock.steady (by simp)
    · refine ⟨⟨?_, ?_, id, .rfl, le_rfl⟩, ?_, fun hz => ?_, fun hl _ => hl⟩ <;>
        simp_all [taskStop, setTask, Task.identity, stateOf]
    · cases he

structure Table (s : Sched n) : Prop where
  ids : ∀ t ∈ s.allTasks, (s.task t).id < s.nextId
  uniq : ∀ t ∈ s.allTasks, ∀ u ∈ s.allTasks, (s.task t).id = (s.task u).id → t = u
  leader : ∀ t ∈ s.allTasks, (s.task t).isThread = false → (s.task t).tgid = (s.task t).id ∨ s.isIdle t
  idle : KernelIdle s

theorem Table.of_same (h : Table s) (hs : ∀ u, Same u s s') (hi : KernelIdle s') : Table s' := by
  have hid (u : Nat) : (s'.task u).id = (s.task u).id := congrArg (·.1) (hs u).identity
  refine ⟨fun t ht => ?_, fun t ht u hu he => ?_, fun t ht hth => ?_, hi⟩
  · rw [hid]
    exact (h.ids t ((hs t).old ht)).trans_le (hs t).next
  · rw [hid, hid] at he
    exact h.uniq t ((hs t).old ht) u ((hs u).old hu) he
  have htgid : (s'.task t).tgid = (s.task t).tgid := congrArg (·.2.1) (hs t).identity
  have hthread : (s'.task t).isThread = (s.task t).isThread := congrArg (·.2.2.1) (hs t).identity
  rw [htgid, hid]
  exact (h.leader t ((hs t).old ht) (hthread ▸ hth)).imp_right (hs t).idle.mpr

theorem KernelIdle.steady (h : KernelIdle s) (hs : Steady t s s') (hi : s'.isIdle t) :
    t ∈ s'.allTasks ∧ s'.stateOf t ≠ .zombie ∧ (s'.task t).isUser = false := by
  obtain ⟨hl, hz, hu⟩ := h t (hs.idle.mp hi)
  exact ⟨hs.live hl hz, fun hz' => hz (hs.zombie hz'), (congrArg (·.2.2.2) hs.identity).trans hu⟩

theorem new_step {e : SchedEvent n} (he : e.plain = true) (hnew : e.newTask = some t) (ht : t ∉ s.allTasks)
    (hl : t ∈ (s.step e).allTasks) :
    ((s.step e).task t).id = s.nextId ∧ (s.step e).nextId = s.nextId + 1 ∧
      ((s.step e).task t).groupExit = false ∧ ((s.step e).task t).reaped = false ∧
      (s.step e).stateOf t ≠ .zombie ∧ (((s.step e).task t).isThread = false →
        ((s.step e).task t).tgid = ((s.step e).task t).id ∨ (s.step e).isIdle t) := by
  cases e <;> cases hnew
  · next k =>
    rw [step, if_neg ht]
    simp only [SchedEvent.plain, Bool.and_eq_true, Bool.not_eq_true'] at he
    simp [taskStart, rqPush, setState, setTask, stateOf, he]
    grind
  · next c =>
    by_cases hf : s.current c = none ∧ s.idle c = none ∧ t ∉ s.allTasks
    · rw [step, if_pos hf]
      have hi : (s.schedInitAp c t).isIdle t := ⟨c, by simp [idle, schedInitAp]⟩
      simp [schedInitAp, makeIdle, setState, setTask, stateOf]
      exact .inr hi
    · rw [step, if_neg hf] at hl
      exact absurd hl ht

theorem step_of_not_added {e : SchedEvent n} (hnew : e.newTask = some t) (ht : t ∉ s.allTasks)
    (hl : t ∉ (s.step e).allTasks) : s.step e = s := by
  cases e <;> cases hnew
  · refine absurd ?_ hl
    rw [step, if_neg ht]
    simp [taskStart, rqPush, setState, setTask]
  · next c =>
    by_cases hf : s.current c = none ∧ s.idle c = none ∧ t ∉ s.allTasks
    · refine absurd ?_ hl
      rw [step, if_pos hf]
      simp [schedInitAp, makeIdle, setState, setTask]
    · rw [step, if_neg hf]

theorem step_cases (s : Sched n) (e : SchedEvent n) (he : e.plain = true) :
    (∃ t, e.newTask = some t ∧ t ∉ s.allTasks ∧ t ∈ (s.step e).allTasks ∧ ∀ u, u ≠ t → Steady u s (s.step e)) ∨
      ∀ u, Steady u s (s.step e) := by
  cases hnew : e.newTask with
  | none => exact .inr fun u => steady_step s e he (.inr (by rw [hnew]; exact nofun))
  | some t =>
    have hother (u : Nat) (hu : u ≠ t) : Steady u s (s.step e) := by
      refine steady_step s e he (.inr ?_)
      rw [hnew]
      exact fun hx => hu (Option.some.inj hx).symm
    by_cases ht : t ∈ s.allTasks
    · right
      intro u
      by_cases hu : u = t
      · exact steady_step s e he (.inl (hu ▸ ht))
      · exact hother u hu
    by_cases hl : t ∈ (s.step e).allTasks
    · exact .inl ⟨t, rfl, ht, hl, hother⟩
    refine .inr fun u => ?_
    rw [step_of_not_added hnew ht hl]
    exact .refl u s

theorem table_step (s : Sched n) (e : SchedEvent n) (h : Table s) (he : e.plain = true) : Table (s.step e) := by
  obtain ⟨t, hnew, ht, hl, hst⟩ | hst := step_cases s e he
  · obtain ⟨hid, hnext, _, _, _, hlead⟩ := new_step he hnew ht hl
    have hids (u : Nat) (hu : u ∈ (s.step e).allTasks) (hut : u ≠ t) : ((s.step e).task u).id < s.nextId := by
      rw [show ((s.step e).task u).id = (s.task u).id from congrArg (·.1) (hst u hut).identity]
      exact h.ids u ((hst u hut).old hu)
    refine ⟨fun u hu => ?_, fun u hu v hv he => ?_, fun u hu hth => ?_, kernelIdle_step s e h.idle⟩
    · by_cases hut : u = t
      · rw [hut, hid, hnext]
        exact Nat.lt_succ_self _
      · exact (hids u hu hut).trans_le (hst u hut).next
    · by_cases hut : u = t
      · by_contra hne
        have hv' := hids v hv fun hvt => hne (hut.trans hvt.symm)
        rw [hut, hid] at he
        omega
      · by_cases hvt : v = t
        · have hu' := hids u hu hut
          rw [hvt, hid] at he
          omega
        · have hsame (w : Nat) (hw : w ≠ t) : ((s.step e).task w).id = (s.task w).id :=
            congrArg (·.1) (hst w hw).identity
          rw [hsame u hut, hsame v hvt] at he
          exact h.uniq u ((hst u hut).old hu) v ((hst v hvt).old hv) he
    · by_cases hut : u = t
      · subst hut
        exact hlead hth
      · have hi := (hst u hut).identity
        have := h.leader u ((hst u hut).old hu)
        have := (hst u hut).idle
        simp only [Task.identity, Prod.mk.injEq] at hi
        grind
  · exact h.of_same (fun u => (hst u).toSame) (kernelIdle_step s e h.idle)

end Sched

namespace ExitState

open Sched (Steady)

variable {n : Nat} {s s' : ExitState n} {c : Fin n} {t u : Nat}

def Acted (s : ExitState n) (t : Nat) (code : Int) : Prop :=
  ∃ cause : Cause, cause.Real ∧ ((s.sched.task t).tgid, cause) ∈ s.acts ∧ code = cause.code

structure Sound (t : Nat) (s : ExitState n) : Prop where
  live : s.phase t ≠ .run → t ∈ s.sched.allTasks ∧ s.sched.stateOf t ≠ .zombie
  group : t ∈ s.sched.allTasks → (s.sched.task t).isThread = false → (s.sched.task t).groupExit = true →
    s.Acted t (s.sched.task t).exitCode
  mark : ∀ code, s.phase t = .mark code → s.Acted t code
  flag : s.phase t = .flag → s.Acted t (s.sched.task t).exitCode
  told : s.phase t = .tell ∨ s.phase t = .reparent ∨ s.phase t = .die →
    (s.sched.task t).groupExit = true ∧ s.Acted t (s.sched.task t).exitCode
  alone : ∀ code, s.phase t = .alone code → (s.sched.task t).isThread = false → s.Acted t code
  dead : t ∈ s.sched.allTasks → s.sched.stateOf t = .zombie → (s.sched.task t).isThread = false →
    s.Acted t (s.sched.task t).exitCode

structure Reported (s : ExitState n) (r : Nat × U32) : Prop where
  past : r.1 < s.sched.nextId
  reaped : ∀ t ∈ s.sched.allTasks, (s.sched.task t).id = r.1 → (s.sched.task t).reaped = true
  cause : ∃ cause : Cause, cause.Real ∧ (r.1, cause) ∈ s.acts ∧ r.2 = wait4Status cause.code

structure Inv (s : ExitState n) : Prop where
  table : s.sched.Table
  sound : ∀ t, s.Sound t
  reported : ∀ r ∈ s.reports, s.Reported r
  once : (s.reports.map Prod.fst).Nodup

theorem Acted.mono {code : Int} (h : s.Acted t code) (ht : (s'.sched.task t).tgid = (s.sched.task t).tgid)
    (ha : s.acts ⊆ s'.acts) : s'.Acted t code := by
  obtain ⟨cause, hr, hm, hc⟩ := h
  exact ⟨cause, hr, ha (ht ▸ hm), hc⟩

theorem Sound.of_same (h : s.Sound t) (hs : Sched.Same t s.sched s'.sched) (hp : s'.phase t = s.phase t)
    (ha : s.acts ⊆ s'.acts) (hz : s'.sched.stateOf t = .zombie → s.sched.stateOf t = .zombie)
    (hl : t ∈ s.sched.allTasks → s.sched.stateOf t ≠ .zombie → t ∈ s'.sched.allTasks)
    (hc : ((s'.sched.task t).groupExit = (s.sched.task t).groupExit ∧
      (s'.sched.task t).exitCode = (s.sched.task t).exitCode) ∨
      ((s'.sched.task t).groupExit = true ∧ s'.Acted t (s'.sched.task t).exitCode)) : s'.Sound t := by
  have htgid : (s'.sched.task t).tgid = (s.sched.task t).tgid := congrArg (·.2.1) hs.identity
  have hth : (s'.sched.task t).isThread = (s.sched.task t).isThread := congrArg (·.2.2.1) hs.identity
  have hact {code : Int} (h : s.Acted t code) : s'.Acted t code := h.mono htgid ha
  have hcode (h : s.Acted t (s.sched.task t).exitCode) : s'.Acted t (s'.sched.task t).exitCode := by
    rcases hc with ⟨_, hc⟩ | ⟨_, hc⟩
    · exact hc ▸ hact h
    · exact hc
  refine ⟨fun hx => ?_, fun hm ht hg => ?_, fun code hx => hact (h.mark code (hp ▸ hx)),
    fun hx => hcode (h.flag (hp ▸ hx)),
    fun hx => ?_, fun code hx ht => hact (h.alone code (hp ▸ hx) (hth ▸ ht)), fun hm hz' ht => ?_⟩
  · obtain ⟨hm, hnz⟩ := h.live (hp ▸ hx)
    exact ⟨hl hm hnz, fun hz' => hnz (hz hz')⟩
  · rcases hc with ⟨hg', hc⟩ | ⟨_, hc⟩
    · exact hcode (h.group (hs.old hm) (hth ▸ ht) (hg' ▸ hg))
    · exact hc
  · obtain ⟨hg, hx⟩ := h.told (hp ▸ hx)
    exact ⟨hc.elim (fun he => he.1.trans hg) And.left, hcode hx⟩
  · exact hcode (h.dead (hs.old hm) (hz hz') (hth ▸ ht))

theorem Sound.steady (h : s.Sound t) (hs : Steady t s.sched s'.sched) (hp : s'.phase t = s.phase t)
    (ha : s.acts ⊆ s'.acts) : s'.Sound t :=
  h.of_same hs.toSame hp ha hs.zombie hs.live (.inl hs.group)

theorem Reported.of_same {r : Nat × U32} (h : s.Reported r) (hs : ∀ u, Sched.Same u s.sched s'.sched)
    (ha : s.acts ⊆ s'.acts) : s'.Reported r := by
  refine ⟨h.past.trans_le (hs 0).next, fun u hu he => ?_, ?_⟩
  · have hid : (s'.sched.task u).id = (s.sched.task u).id := congrArg (·.1) (hs u).identity
    exact (hs u).reaped (h.reaped u ((hs u).old hu) (hid ▸ he))
  · obtain ⟨cause, hr, hm, he⟩ := h.cause
    exact ⟨cause, hr, ha hm, he⟩

theorem Inv.of_same (h : s.Inv) (hs : ∀ u, Sched.Same u s.sched s'.sched) (hk : Sched.KernelIdle s'.sched)
    (ha : s.acts ⊆ s'.acts) (hr : s'.reports = s.reports) (hsound : ∀ u, s'.Sound u) : s'.Inv :=
  ⟨h.table.of_same hs hk, hsound, fun r hm => (h.reported r (hr ▸ hm)).of_same hs ha, hr ▸ h.once⟩

theorem Sound.of_run (hp : s.phase t = .run)
    (hg : (s.sched.task t).groupExit = true → (s.sched.task t).isThread = false →
      s.Acted t (s.sched.task t).exitCode)
    (hd : s.sched.stateOf t = .zombie → (s.sched.task t).isThread = false →
      s.Acted t (s.sched.task t).exitCode) : s.Sound t where
  live hx := absurd hp hx
  group _ ht hx := hg hx ht
  mark code hx := nomatch hp.symm.trans hx
  flag hx := nomatch hp.symm.trans hx
  told hx := by simp [hp] at hx
  alone code hx := nomatch hp.symm.trans hx
  dead _ hz ht := hd hz ht

theorem inv_sched (h : s.Inv) (e : SchedEvent n) (he : e.plain = true) :
    Inv { s with sched := s.sched.step e } := by
  obtain ⟨t, hnew, ht, hl, hst⟩ | hst := Sched.step_cases s.sched e he
  · obtain ⟨hid, hnext, hg, hr, hz, _⟩ := Sched.new_step he hnew ht hl
    have hrun : s.phase t = .run := by
      by_contra hp
      exact ht ((h.sound t).live hp).1
    refine ⟨Sched.table_step s.sched e h.table he, fun u => ?_, fun r hm => ?_, h.once⟩
    · by_cases hut : u = t
      · subst hut
        refine Sound.of_run hrun (fun hx => ?_) fun hx => absurd hx hz
        simp [hg] at hx
      · exact (h.sound u).steady (hst u hut) rfl fun _ => id
    · have hrep := h.reported r hm
      refine ⟨?_, fun u hu he => ?_, hrep.cause⟩
      · exact hrep.past.trans (by rw [hnext]; exact Nat.lt_succ_self _)
      have hut : u ≠ t := by
        rintro rfl
        have he : ((s.sched.step e).task u).id = r.1 := he
        have := hrep.past
        omega
      have hid : ((s.sched.step e).task u).id = (s.sched.task u).id := congrArg (·.1) (hst u hut).identity
      exact (hst u hut).reaped (hrep.reaped u ((hst u hut).old hu) (hid ▸ he))
  · exact h.of_same (fun u => (hst u).toSame) (Sched.kernelIdle_step s.sched e h.table.idle) (fun _ => id) rfl
      fun u => (h.sound u).steady (hst u) rfl fun _ => id

theorem Inv.leave (h : s.Inv) (hl : t ∈ s.sched.allTasks) (hr : s.sched.stateOf t = .running) {p : ExitPhase}
    (acts : List (Nat × Cause)) (ha : s.acts ⊆ acts)
    (hp : ∀ code, (p = .mark code ∨ (p = .alone code ∧ (s.sched.task t).isThread = false)) →
      Acted { s with acts := acts } t code)
    (hq : (∃ code, p = .mark code) ∨ ∃ code, p = .alone code) : Inv ({ s with acts := acts }.setPhase t p) := by
  have hself : ({ s with acts := acts }.setPhase t p).phase t = p := Function.update_self _ _ _
  have hother (u : Nat) (hu : u ≠ t) : ({ s with acts := acts }.setPhase t p).phase u = s.phase u :=
    Function.update_of_ne hu _ _
  have hst (u : Nat) : Steady u s.sched ({ s with acts := acts }.setPhase t p).sched := .refl u s.sched
  refine h.of_same (fun u => (hst u).toSame) h.table.idle ha rfl fun u => ?_
  by_cases hu : u = t
  · subst hu
    have hact {code : Int} (hx : s.Acted u code) : Acted ({ s with acts := acts }.setPhase u p) u code :=
      hx.mono rfl ha
    refine ⟨fun _ => ⟨hl, fun hz => nomatch hr.symm.trans hz⟩, fun hm ht hg => hact ((h.sound u).group hm ht hg),
      fun code hx => hp code (.inl (hself.symm.trans hx)),
      fun hx => ?_, fun hx => ?_, fun code hx ht => hp code (.inr ⟨hself.symm.trans hx, ht⟩),
      fun hm hz ht => hact ((h.sound u).dead hm hz ht)⟩
    · rw [hself] at hx
      rcases hq with ⟨_, rfl⟩ | ⟨_, rfl⟩ <;> cases hx
    · rw [hself] at hx
      rcases hq with ⟨_, rfl⟩ | ⟨_, rfl⟩ <;> simp at hx
  · exact (h.sound u).steady (hst u) (hother u hu) ha

theorem inv_taskExitGroup (h : s.Inv) (hl : t ∈ s.sched.allTasks) (hr : s.sched.stateOf t = .running)
    {cause : Cause}
    (hc : cause.Real) : (s.taskExitGroup t cause).Inv := by
  refine h.leave hl hr _ (List.subset_cons_self _ _) (fun code hx => ?_) (.inl ⟨_, rfl⟩)
  obtain hx | ⟨hx, _⟩ := hx
  · cases hx
    exact ⟨cause, hc, List.mem_cons_self, rfl⟩
  · cases hx

theorem inv_taskExitCode (h : s.Inv) (hl : t ∈ s.sched.allTasks) (hr : s.sched.stateOf t = .running)
    {cause : Cause}
    (hc : cause.Real) : (s.taskExitCode t cause).Inv := by
  refine iteInduction (fun _ => inv_taskExitGroup h hl hr hc) fun _ => ?_
  split
  · next hth =>
    refine h.leave hl hr s.acts (fun _ => id) (fun code hx => ?_) (.inr ⟨_, rfl⟩)
    obtain hx | ⟨_, hx⟩ := hx
    · cases hx
    · simp [hth] at hx
  · refine h.leave hl hr _ (List.subset_cons_self _ _) (fun code hx => ?_) (.inr ⟨_, rfl⟩)
    obtain hx | ⟨hx, _⟩ := hx
    · cases hx
    · cases hx
      exact ⟨cause, hc, List.mem_cons_self, rfl⟩

theorem inv_call (h : s.Inv) (hl : t ∈ s.sched.allTasks) (hr : s.sched.stateOf t = .running) (a : ExitCall) :
    (s.call t a).Inv := by
  refine iteInduction (fun _ => h) fun _ => ?_
  cases a with
  | exit code => exact inv_taskExitCode h hl hr (Nat.mod_lt _ (by decide))
  | exitGroup code => exact inv_taskExitGroup h hl hr (Nat.mod_lt _ (by decide))
  | fatal sig => exact iteInduction (fun hs => inv_taskExitGroup h hl hr hs) fun _ => h
  | fault sig => exact iteInduction (fun hs => inv_taskExitCode h hl hr hs) fun _ => h
  | groupExit =>
    refine iteInduction (fun hg => ?_) fun _ => h
    refine h.leave hl hr s.acts (fun _ => id) (fun code hx => ?_) (.inr ⟨_, rfl⟩)
    obtain hx | ⟨hx, ht⟩ := hx
    · cases hx
    · cases hx
      exact (h.sound t).group hl ht hg

structure Telling (me u : Nat) (s s' : Sched n) : Prop where
  spares : Sched.Spares True u s s'
  code : ((s'.task u).groupExit = (s.task u).groupExit ∧ (s'.task u).exitCode = (s.task u).exitCode) ∨
    (u ≠ me ∧ (s'.task u).groupExit = true ∧ (s.task u).tgid = (s.task me).tgid ∧
      (s'.task u).exitCode = (s.task me).exitCode)

theorem groupExitCb_code (s : Sched n) (me t u : Nat) :
    (((Sched.groupExitCb me s t).task u).groupExit = (s.task u).groupExit ∧
      ((Sched.groupExitCb me s t).task u).exitCode = (s.task u).exitCode) ∨
    (u ≠ me ∧ ((Sched.groupExitCb me s t).task u).groupExit = true ∧ (s.task u).tgid = (s.task me).tgid ∧
      ((Sched.groupExitCb me s t).task u).exitCode = (s.task me).exitCode) := by
  by_cases hskip : t = me ∨ (s.task t).tgid ≠ (s.task me).tgid ∨ (s.task t).state = .zombie ∨
      (s.task t).groupExit = true
  · rw [Sched.groupExitCb, if_pos hskip]
    exact .inl ⟨rfl, rfl⟩
  by_cases hut : u = t
  · subst hut
    right
    rw [Sched.groupExitCb, if_neg hskip]
    push Not at hskip
    refine ⟨hskip.1, ?_, hskip.2.1, ?_⟩ <;> split <;> simp [Sched.rqPush, Sched.setState, Sched.setTask]
  · left
    rw [Sched.groupExitCb, if_neg hskip]
    constructor <;> split <;> simp [Sched.rqPush, Sched.setState, Sched.setTask, hut]

theorem telling_cb {me : Nat} {s : Sched n} (s' : Sched n) (t : Nat) (h : ∀ u, Telling me u s s') (u : Nat) :
    Telling me u s (Sched.groupExitCb me s' t) := by
  refine ⟨(h u).spares.trans (Sched.spares_groupExitCb me t fun _ _ _ => trivial), ?_⟩
  have hme : (s'.task me).exitCode = (s.task me).exitCode := (h me).code.elim And.right fun hx => absurd rfl hx.1
  have hme' := (h me).spares.task.tgid
  have hu := (h u).spares.task.tgid
  have := (h u).code
  have := groupExitCb_code s' me t u
  grind

theorem telling_killOthers (s : Sched n) (me u : Nat) : Telling me u s (s.taskKillOtherThreads me) :=
  invariant_foldl (P := fun s' => ∀ u, Telling me u s s') telling_cb s.allTasks
    (fun u => ⟨.refl u s, .inl ⟨rfl, rfl⟩⟩) u

theorem Inv.advance (h : s.Inv) (hi : ¬ s.sched.isIdle t) (hs : ∀ u, Sched.Same u s.sched s'.sched)
    (hother : ∀ u, u ≠ t → Steady u s.sched s'.sched) (hphase : ∀ u, u ≠ t → s'.phase u = s.phase u)
    (ha : s'.acts = s.acts) (hr : s'.reports = s.reports) (hself : s'.Sound t) : s'.Inv := by
  have hsub : s.acts ⊆ s'.acts := fun _ hm => ha ▸ hm
  refine h.of_same hs (fun u hu => ?_) hsub hr fun u => ?_
  · have hut : u ≠ t := by
      rintro rfl
      exact hi ((hs u).idle.mp hu)
    exact h.table.idle.steady (hother u hut) hu
  · by_cases hut : u = t
    · exact hut ▸ hself
    · exact (h.sound u).steady (hother u hut) (hphase u hut) hsub

theorem same_setTask {s : Sched n} {f : Task → Task} (hi : (f (s.task t)).identity = (s.task t).identity)
    (hr : (f (s.task t)).reaped = (s.task t).reaped) (u : Nat) : Sched.Same u s (s.setTask t f) := by
  refine ⟨?_, ?_, id, .rfl, le_rfl⟩ <;> rw [Sched.task_setTask] <;> split
  · next hu => rw [hu, hi]
  · rfl
  · next hu =>
    rw [hu, hr]
    exact id
  · exact id

theorem inv_edit (h : s.Inv) (ht : s.sched.executing c = some t) {f : Task → Task} {p : ExitPhase}
    (hi : (f (s.sched.task t)).identity = (s.sched.task t).identity)
    (hr : (f (s.sched.task t)).reaped = (s.sched.task t).reaped)
    (hst : (f (s.sched.task t)).state = (s.sched.task t).state) (hact : s.Acted t (f (s.sched.task t)).exitCode)
    (hp : p = .flag ∨ (p = .tell ∧ (f (s.sched.task t)).groupExit = true)) :
    Inv { s.setPhase t p with sched := s.sched.setTask t f } := by
  obtain ⟨_, hl, hidle, hrun⟩ := Sched.executing_eq_some.mp ht
  refine h.advance hidle (same_setTask hi hr) (fun u hu => (Sched.spares_setTask_of_ne hu).steady)
    (fun u hu => Function.update_of_ne hu _ _) rfl rfl ?_
  generalize hs' : ({ s.setPhase t p with sched := s.sched.setTask t f } : ExitState n) = s'
  have htask : s'.sched.task t = f (s.sched.task t) := by
    rw [← hs']
    exact (Sched.task_setTask f).trans (if_pos rfl)
  have hself : s'.phase t = p := by
    rw [← hs']
    exact Function.update_self _ _ _
  have hz : s'.sched.stateOf t ≠ .zombie := by
    rw [Sched.stateOf, htask, hst]
    intro hz
    cases hrun.symm.trans hz
  have hact' : s'.Acted t (s'.sched.task t).exitCode := by
    rw [htask]
    refine hact.mono ?_ ?_
    · rw [htask]
      exact congrArg (·.2.1) hi
    · rw [← hs']
      exact fun _ => id
  refine ⟨fun _ => ⟨by rw [← hs']; exact hl, hz⟩, fun _ _ _ => hact', fun code hx => ?_, fun _ => hact',
    fun hx => ?_, fun code hx => ?_, fun _ hx => absurd hx hz⟩
  · rw [hself] at hx
    rcases hp with rfl | ⟨rfl, _⟩ <;> cases hx
  · rw [hself] at hx
    rcases hp with rfl | ⟨rfl, hg⟩
    · simp at hx
    · exact ⟨by rw [htask, hg], hact'⟩
  · rw [hself] at hx
    rcases hp with rfl | ⟨rfl, _⟩ <;> cases hx

theorem Inv.moveOn (h : s.Inv) {p : ExitPhase} (hp : s.phase t = .tell ∨ s.phase t = .reparent)
    (hp' : p = .reparent ∨ p = .die) : Inv (s.setPhase t p) := by
  have hs := h.sound t
  have hrun : s.phase t ≠ .run := by rcases hp with hp | hp <;> rw [hp] <;> exact nofun
  refine h.of_same (fun u => (Steady.refl u s.sched).toSame) h.table.idle (fun _ => id) rfl fun u => ?_
  by_cases hu : u = t
  · subst hu
    have hself : (s.setPhase u p).phase u = p := Function.update_self _ _ _
    refine ⟨fun _ => hs.live hrun, hs.group, fun code hx => ?_, fun hx => ?_, fun _ => hs.told ?_,
      fun code hx => ?_, hs.dead⟩
    · rw [hself] at hx
      rcases hp' with rfl | rfl <;> cases hx
    · rw [hself] at hx
      rcases hp' with rfl | rfl <;> cases hx
    · exact hp.imp_right .inl
    · rw [hself] at hx
      rcases hp' with rfl | rfl <;> cases hx
  · exact (h.sound u).steady (.refl u s.sched) (Function.update_of_ne hu _ _) fun _ => id

theorem inv_tell (h : s.Inv) (hact : s.Acted t (s.sched.task t).exitCode) :
    Inv { s with sched := s.sched.taskKillOtherThreads t } := by
  have htell (u : Nat) := telling_killOthers s.sched t u
  refine h.of_same (fun u => (htell u).spares.same) (fun u hu => h.table.idle.spares (htell u).spares hu)
    (fun _ => id) rfl fun u => ?_
  refine (h.sound u).of_same (htell u).spares.same rfl (fun _ => id) (htell u).spares.zombie
    (htell u).spares.live ?_
  refine (htell u).code.imp_right ?_
  rintro ⟨_, hg, htgid, hcode⟩
  obtain ⟨cause, hr, hm, hc⟩ := hact
  refine ⟨hg, cause, hr, ?_, hcode.trans hc⟩
  have hu : ((s.sched.taskKillOtherThreads t).task u).tgid = (s.sched.task u).tgid := (htell u).spares.task.tgid
  change (((s.sched.taskKillOtherThreads t).task u).tgid, cause) ∈ s.acts
  rwa [hu, htgid]

theorem inv_steady (h : s.Inv) {sc : Sched n} (hs : ∀ u, Steady u s.sched sc) : Inv { s with sched := sc } :=
  h.of_same (fun u => (hs u).toSame) (fun u hu => h.table.idle.steady (hs u) hu) (fun _ => id) rfl
    fun u => (h.sound u).steady (hs u) rfl fun _ => id

theorem steady_reparent (s : Sched n) (t u : Nat) : Steady u s (s.reparentChildren t) :=
  (invariant_foldl (P := Sched.Spares False u s) (fun _ v h => h.trans (Sched.spares_reparentChild t v)) _
    (.refl u _)).steady

theorem inv_end (h : s.Inv) (ht : s.sched.executing c = some t) {code : Int}
    (hact : (s.sched.task t).isThread = false → s.Acted t code) :
    Inv { s.setPhase t .run with sched := s.sched.taskExit c t code } := by
  obtain ⟨_, hl, hidle, hrun⟩ := Sched.executing_eq_some.mp ht
  let f : Task → Task := fun k => { k with exitCode := code, state := .zombie }
  have hsp (u : Nat) : Sched.Spares False u (s.sched.setTask t f) ((s.sched.setTask t f).schedule c) :=
    Sched.spares_schedule c
  have htask : (s.sched.setTask t f).task t = f (s.sched.task t) := by rw [Sched.task_setTask, if_pos rfl]
  have hp := (hsp t).task
  rw [htask] at hp
  have hcode := (hp.group.resolve_right fun hx => hx.1).2
  have hsame (u : Nat) : Sched.Same u s.sched ((s.sched.setTask t f).schedule c) := by
    have h₁ := same_setTask (s := s.sched) (t := t) (f := f) rfl rfl u
    have h₂ := (hsp u).same
    exact ⟨h₂.identity.trans h₁.identity, h₂.reaped ∘ h₁.reaped, h₁.old ∘ h₂.old, h₂.idle.trans h₁.idle,
      h₁.next.trans h₂.next⟩
  have hself : (s.setPhase t .run).phase t = .run := Function.update_self _ _ _
  have hact' (hth : (((s.sched.setTask t f).schedule c).task t).isThread = false) :
      Acted { s.setPhase t .run with sched := (s.sched.setTask t f).schedule c } t
        (((s.sched.setTask t f).schedule c).task t).exitCode := by
    have hth' : (((s.sched.setTask t f).schedule c).task t).isThread = (s.sched.task t).isThread :=
      congrArg (·.2.2.1) hp.identity
    rw [hcode]
    exact (hact (hth' ▸ hth)).mono (congrArg (·.2.1) hp.identity) fun _ => id
  refine h.advance hidle hsame (fun u hu => ?_) (fun u hu => Function.update_of_ne hu _ _) rfl rfl
    (Sound.of_run hself (fun _ => hact') fun _ => hact')
  exact ((Sched.spares_setTask_of_ne hu).trans (hsp u)).steady

theorem inv_next (h : s.Inv) (ht : s.sched.executing c = some t) : (s.next c t).Inv := by
  unfold next
  split <;> rename_i hp
  · exact h
  · exact inv_edit h ht rfl rfl rfl ((h.sound t).mark _ hp) (.inl rfl)
  · exact inv_edit h ht rfl rfl rfl ((h.sound t).flag hp) (.inr ⟨rfl, rfl⟩)
  · exact inv_tell (h.moveOn (.inl hp) (.inl rfl)) ((h.sound t).told (.inl hp)).2
  · exact inv_steady (h.moveOn (.inr hp) (.inr rfl)) (steady_reparent s.sched t)
  · exact inv_end h ht fun _ => ((h.sound t).told (.inr (.inr hp))).2
  · exact inv_end h ht fun hth => (h.sound t).alone _ hp hth

theorem collect_of_find {s : Sched n} {cur : Nat} {pid : Int} {untraced : Bool}
    (h : s.allTasks.find? (s.collects cur pid untraced) = some t) : s.taskCollectChildOpts cur pid untraced =
      if s.stateOf t = .zombie then s.setTask t fun k => { k with reaped := true }
      else s.setTask t fun k => { k with stopReported := true } := by
  unfold Sched.collects at h
  simp only [Sched.taskCollectChildOpts, h]

theorem inv_wait4 (h : s.Inv) (cur : Nat) (pid : Int) (untraced : Bool) : (s.wait4 cur pid untraced).Inv := by
  unfold wait4
  extract_lets pid' sched
  have hst (u : Nat) : Steady u s.sched sched := (Sched.spares_collect cur pid' untraced).steady
  have hinv : Inv { s with sched := sched } := inv_steady h hst
  split
  · exact h
  next t hfind =>
  refine iteInduction (fun hz => ?_) fun _ => hinv
  have hl := List.mem_of_find?_eq_some hfind
  have hcollects := List.find?_some hfind
  simp only [Sched.collects, Bool.and_eq_true, Bool.not_eq_true', bne_iff_ne, ne_eq] at hcollects
  obtain ⟨⟨⟨⟨⟨_, hreaped⟩, _⟩, hthread⟩, _⟩, _⟩ := hcollects
  have hnew : Reported { s with sched := sched }
    ((s.sched.task t).id, wait4Status (s.sched.task t).exitCode) := by
    refine ⟨(h.table.ids t hl).trans_le (hst t).next, fun u hu he => ?_, ?_⟩
    · have hid : (sched.task u).id = (s.sched.task u).id := congrArg (·.1) (hst u).identity
      obtain rfl := h.table.uniq u ((hst u).old hu) t hl (hid.symm.trans he)
      have hs : sched = s.sched.setTask u fun k => { k with reaped := true } :=
        (collect_of_find hfind).trans (if_pos hz)
      change (sched.task u).reaped = true
      rw [hs, Sched.task_setTask, if_pos rfl]
    · obtain ⟨cause, hr, hm, hc⟩ := (h.sound t).dead hl hz hthread
      have htgid := (h.table.leader t hl hthread).resolve_right fun hi => (h.table.idle t hi).2.1 hz
      exact ⟨cause, hr, htgid ▸ hm, by rw [hc]⟩
  refine ⟨hinv.table, fun u => ?_, fun r hm => ?_, List.nodup_cons.mpr ⟨fun hm => ?_, h.once⟩⟩
  · exact (hinv.sound u).steady (.refl u sched) rfl fun _ => id
  · rcases List.mem_cons.mp hm with rfl | hm
    · exact ⟨hnew.past, hnew.reaped, hnew.cause⟩
    · have hr := hinv.reported r hm
      exact ⟨hr.past, hr.reaped, hr.cause⟩
  · obtain ⟨r, hm, he⟩ := List.mem_map.mp hm
    have := (h.reported r hm).reaped t hl he.symm
    simp [hreaped] at this

theorem inv_step (s : ExitState n) (e : ExitEvent n) (h : s.Inv) : (s.step e).Inv := by
  cases e with
  | sched e => exact iteInduction (fun he => inv_sched h e he) fun _ => h
  | call c a =>
    refine Sched.byExecuting_cases h fun t ht => ?_
    obtain ⟨_, hl, _, hr⟩ := Sched.executing_eq_some.mp ht
    exact inv_call h hl hr a
  | next c => exact Sched.byExecuting_cases h fun t ht => inv_next h ht
  | wait4 c pid untraced => exact Sched.byExecuting_cases h fun t _ => inv_wait4 h t pid untraced

theorem inv_init (n : Nat) : (init n).Inv := by
  have htask (t : Nat) : ((Sched.schedInit n).task t).groupExit = false ∧
    (Sched.schedInit n).stateOf t ≠ .zombie := by
    rcases t with _ | _ | t <;> simp [Sched.stateOf, Sched.schedInit, Sched.makeIdle, Sched.setTask]
  refine ⟨⟨?_, ?_, ?_, Sched.kernelIdle_schedInit n⟩, fun t => Sound.of_run rfl (fun hg => ?_) fun hz => ?_,
    fun r hr => absurd hr List.not_mem_nil, ?_⟩
  · intro t ht
    have hmem : t = 1 ∨ t = 0 := by simpa [init, Sched.schedInit, Sched.makeIdle, Sched.setTask] using ht
    rcases hmem with rfl | rfl <;> simp [init, Sched.schedInit, Sched.makeIdle, Sched.setTask]
  · intro t ht u hu he
    have hmem {t : Nat} (ht : t ∈ (init n).sched.allTasks) : t = 1 ∨ t = 0 := by
      simpa [init, Sched.schedInit, Sched.makeIdle, Sched.setTask] using ht
    rcases hmem ht with rfl | rfl <;> rcases hmem hu with rfl | rfl <;>
      simp [init, Sched.schedInit, Sched.makeIdle, Sched.setTask] at he ⊢
  · intro t ht _
    have hmem : t = 1 ∨ t = 0 := by simpa [init, Sched.schedInit, Sched.makeIdle, Sched.setTask] using ht
    rcases hmem with rfl | rfl
    · exact .inr ⟨0, rfl⟩
    · exact .inl rfl
  · exact absurd hg (by simp [init, (htask t).1])
  · exact absurd hz (htask t).2
  · exact List.nodup_nil

end ExitState

end Sic
