import Sic.Arch.A64Translate
import Sic.Proc.FutexRun

/-! Futexes over address spaces that are cloned copy-on-write. The key of a waiter is the
physical address its word had when it began to wait, and stays the key of the address as
long as the page stays on its frame. -/

namespace Sic.FutexKey

open Futex A64

/-- `home` is the space and the address a wait is queued on: those of its own call, or of
the requeue that moved it. -/
structure System where
  mach : Machine
  futex : State := {}
  space : Nat → Nat := fun _ => 0
  home : Nat → Nat × U64 := fun _ => (0, 0)

namespace System

def key (s : System) (x : Nat × U64) : U64 := keyOf userBase userEnd x.2 (s.mach.vmmTranslateIn x.1 x.2)

def resolve (s : System) (t : Nat) (c : Call) : Call :=
  { c with
    phys := s.mach.vmmTranslateIn (s.space t) c.uaddr
    phys2 := s.mach.vmmTranslateIn (s.space t) c.uaddr2 }

end System

def keyAt (ws : List Waiter) (t : Nat) : Option U64 := (ws.find? fun w => w.task = t).map Waiter.key

def rehome (s : System) (t : Nat) (c : Call) (ws : List Waiter) (u : Nat) : Nat × U64 :=
  if u = t then (s.space t, c.uaddr)
  else if keyAt ws u ≠ keyAt s.futex.waiters u then (s.space t, c.uaddr2)
  else s.home u

/-- `enter` puts a task that is not in a call into a space: a clone or an exec. -/
inductive Event where
  | mem (e : A64.Event)
  | enter (t pgd : Nat)
  | call (t : Nat) (c : Call)
  | link (t : Nat) (word : U32)
  | turn (t : Nat) (signal : Bool) (now : U64)
  | unlink (t : Nat)
  | wakePhys (phys : U64) (n : Int)
deriving DecidableEq, Repr

def step (s : System) : Event → System
  | .mem e => { s with mach := (s.mach.step e).1 }
  | .enter t pgd => if s.futex.phase t = .idle then { s with space := Function.update s.space t pgd } else s
  | .call t c =>
    if s.futex.phase t = .idle then
      let f := sysFutex userBase userEnd s.futex t (s.resolve t c)
      { s with futex := f, home := rehome s t c f.waiters }
    else s
  | .link t word => { s with futex := link s.futex t word }
  | .turn t signal now => { s with futex := turn s.futex t signal now }
  | .unlink t => { s with futex := unlink s.futex t }
  | .wakePhys phys n => { s with futex := futexWake s.futex phys n }

def boot (p : Pmm) (mem : Nat → Nat → U8) : System := { mach := (A64.boot p mem).1 }

def System.Pending (s : System) (t : Nat) : Prop :=
  (∃ key val d, s.futex.phase t = .checking key val d) ∨ ∃ w ∈ s.futex.waiters, w.task = t ∧ w.woken = false

/-- No event takes a page from under a wait. -/
def Steady (s : System) : Event → Prop
  | .mem e => ∀ t, s.Pending t → Spares s.mach (s.home t).1 (s.home t).2 e
  | _ => True

structure Keyed (s : System) : Prop where
  inv : Inv s.futex
  checking : ∀ t key val d, s.futex.phase t = .checking key val d → key ≠ 0 ∧ key = s.key (s.home t)
  queued : ∀ w ∈ s.futex.waiters, w.woken = false → w.key ≠ 0 ∧ w.key = s.key (s.home w.task)

/-! ### What the calls do to keys -/

variable {s : System} {f : State} {t u : Nat}

theorem keyAt_of_mem {ws : List Waiter} (hnd : (ws.map Waiter.task).Nodup) {w : Waiter} (hw : w ∈ ws) :
    keyAt ws w.task = some w.key := by
  induction ws with
  | nil => exact (List.not_mem_nil hw).elim
  | cons x ws ih =>
    obtain ⟨hx, hnd⟩ := List.nodup_cons.mp hnd
    rcases List.mem_cons.mp hw with rfl | hw
    · simp [keyAt]
    have hne : x.task ≠ w.task := fun he => hx (he ▸ List.mem_map_of_mem hw)
    have := ih hnd hw
    simpa [keyAt, List.find?_cons, hne] using this

theorem sysFutex_requeued (base limit : U64) (f : State) (t : Nat) (c : Call) :
    ∃ k2, List.Forall₂ (Requeued (c.key base limit) k2) f.waiters (sysFutex base limit f t c).waiters ∧
      (k2 = c.key base limit ∨ (k2 = c.key2 base limit ∧ k2 ≠ 0)) := by
  have hsame : List.Forall₂ (Requeued (c.key base limit) (c.key base limit)) f.waiters f.waiters :=
    forall₂_refl ..
  have hwait : ∀ d, (futexWait f t (c.key base limit) c.val d).waiters = f.waiters := by
    intro d
    unfold futexWait
    split
    · rfl
    · cases d <;> rfl
  have hreq : ∀ cmp val3, ∃ k2, List.Forall₂ (Requeued (c.key base limit) k2) f.waiters
      (futexRequeue f (c.key base limit) (c.key2 base limit) c.val c.nrequeue cmp c.word val3).waiters ∧
        (k2 = c.key base limit ∨ (k2 = c.key2 base limit ∧ k2 ≠ 0)) := by
    intro cmp val3
    by_cases hk : c.key2 base limit = 0
    · refine ⟨c.key base limit, ?_, .inl rfl⟩
      rw [futexRequeue, if_pos (Or.inr hk)]
      exact hsame
    · exact ⟨c.key2 base limit, futexRequeue_requeued .., .inr ⟨rfl, hk⟩⟩
  unfold sysFutex
  split
  · exact ⟨_, (hwait _).symm ▸ hsame, .inl rfl⟩
  · exact ⟨_, (hwait _).symm ▸ hsame, .inl rfl⟩
  · split
    · exact ⟨_, hsame, .inl rfl⟩
    · exact ⟨_, wakeLoop_requeued .., .inl rfl⟩
  · split
    · exact ⟨_, hsame, .inl rfl⟩
    · exact ⟨_, wakeLoop_requeued .., .inl rfl⟩
  · exact hreq false 0
  · exact hreq true c.val3
  · exact ⟨_, hsame, .inl rfl⟩

theorem sysFutex_wake {base limit : U64} {c : Call} (h : c.cmd = 1 ∨ c.cmd = 10) :
    sysFutex base limit f t c =
      if c.key base limit = 0 then f else futexWake f (c.key base limit) c.val.toInt := by
  rcases h with h | h <;> simp [sysFutex, h]

variable {key d : U64} {val : U32}

theorem checking_of_update {ph : Phase} (h : Function.update f.phase t ph u = .checking key val d)
    (hph : ph ≠ .checking key val d) : f.phase u = .checking key val d := by
  by_cases hu : u = t
  · subst hu
    exact absurd ((Function.update_self ..).symm.trans h) hph
  · exact (Function.update_of_ne hu ..).symm.trans h

theorem futexWait_checking {k : U64} {val' : U32} {dl : Except Int U64}
    (h : (futexWait f t k val' dl).phase u = .checking key val d) :
    f.phase u = .checking key val d ∨ (u = t ∧ key = k ∧ key ≠ 0) := by
  unfold futexWait at h
  split at h
  · exact .inl (checking_of_update h nofun)
  next hk =>
  split at h
  · exact .inl (checking_of_update h nofun)
  by_cases hu : u = t
  · subst hu
    simp only [State.setPhase, Function.update_self, Phase.checking.injEq] at h
    exact .inr ⟨rfl, h.1.symm, h.1 ▸ hk⟩
  · exact .inl (by simpa [State.setPhase, hu] using h)

theorem futexRequeue_phase (f : State) (k1 k2 : U64) (nwake nrequeue : U32) (cmp : Bool) (word val3 : U32) :
    (futexRequeue f k1 k2 nwake nrequeue cmp word val3).phase = f.phase := by
  rw [futexRequeue]
  split
  · rfl
  split
  · rfl
  · dsimp only
    split <;> rfl

theorem sysFutex_checking {base limit : U64} {c : Call}
    (h : (sysFutex base limit f t c).phase u = .checking key val d) :
    f.phase u = .checking key val d ∨ (u = t ∧ key = c.key base limit ∧ key ≠ 0) := by
  unfold sysFutex at h
  split at h
  · exact futexWait_checking h
  · exact futexWait_checking h
  · split at h
    · exact .inl h
    · exact .inl h
  · split at h
    · exact .inl h
    · exact .inl h
  · rw [futexRequeue_phase] at h
    exact .inl h
  · rw [futexRequeue_phase] at h
    exact .inl h
  · exact .inl h

/-! ### The steps -/

theorem Keyed.mem (h : Keyed s) {e : A64.Event} (hok : Steady s (.mem e)) : Keyed (step s (.mem e)) := by
  have hkey : ∀ t, s.Pending t → s.key (s.home t) ≠ 0 → (step s (.mem e)).key (s.home t) = s.key (s.home t) := by
    intro t ht hne
    have htr : s.mach.vmmTranslateIn (s.home t).1 (s.home t).2 ≠ 0 := by
      intro hz
      rw [System.key, hz, keyOf] at hne
      split at hne <;> exact hne rfl
    simp only [System.key, step, translate_step (hok t ht) htr]
  refine ⟨h.inv, fun t key val d hph => ?_, fun w hw hwoken => ?_⟩
  · obtain ⟨hne, hk⟩ := h.checking t key val d hph
    exact ⟨hne, hk.trans (hkey t (.inl ⟨key, val, d, hph⟩) (hk ▸ hne)).symm⟩
  · obtain ⟨hne, hk⟩ := h.queued w hw hwoken
    exact ⟨hne, hk.trans (hkey w.task (.inr ⟨w, hw, rfl, hwoken⟩) (hk ▸ hne)).symm⟩

theorem Keyed.call (h : Keyed s) (t : Nat) (c : Call) : Keyed (step s (.call t c)) := by
  rw [step]
  split
  · next hidle =>
    have hkey : (s.resolve t c).key userBase userEnd = s.key (s.space t, c.uaddr) := rfl
    have hkey2 : (s.resolve t c).key2 userBase userEnd = s.key (s.space t, c.uaddr2) := rfl
    obtain ⟨k2, hws, hk2⟩ := sysFutex_requeued userBase userEnd s.futex t (s.resolve t c)
    have hinv := h.inv.sysFutex hidle userBase userEnd (s.resolve t c)
    refine ⟨hinv, fun u key val d hph => ?_, fun w' hw' hwoken => ?_⟩
    · dsimp only at hph ⊢
      rcases sysFutex_checking hph with hph₀ | ⟨rfl, hk, hne⟩
      · obtain ⟨hne, hk⟩ := h.checking u key val d hph₀
        have hu : u ≠ t := by
          rintro rfl
          rw [hidle] at hph₀
          cases hph₀
        have hnone : ∀ ws : List Waiter, u ∉ ws.map Waiter.task → keyAt ws u = none := by
          intro ws hmem
          rw [keyAt, Option.map_eq_none_iff, List.find?_eq_none]
          intro w hw hwu
          exact hmem (List.mem_map.mpr ⟨w, hw, by simpa using hwu⟩)
        have hout : u ∉ s.futex.waiters.map Waiter.task := by
          rw [h.inv.linked, hph₀]
          exact Bool.false_ne_true
        rw [rehome, if_neg hu, hnone _ hout, hnone _ (map_task_of_requeued hws ▸ hout), if_neg (by simp)]
        exact ⟨hne, hk⟩
      · rw [rehome, if_pos rfl]
        exact ⟨hne, hk.trans hkey⟩
    · dsimp only at hw' ⊢
      obtain ⟨w, hw, hr⟩ := exists_requeued hws hw'
      obtain ⟨hw₀, hwk⟩ := hr.awake hwoken
      obtain ⟨hne, hk⟩ := h.queued w hw hw₀
      have hu : w'.task ≠ t := by
        intro he
        have hlink := (h.inv.linked t).mp (List.mem_map.mpr ⟨w, hw, hr.task.symm.trans he⟩)
        rw [hidle] at hlink
        cases hlink
      have hat := keyAt_of_mem h.inv.nodup hw
      have hat' := keyAt_of_mem hinv.nodup hw'
      rw [rehome, if_neg hu, hat', hr.task, hat]
      by_cases hsame : w'.key = w.key
      · rw [if_neg (by simp [hsame]), hsame]
        exact ⟨hne, hk⟩
      rw [if_pos (by simpa using hsame)]
      rcases hwk with hwk | hwk
      · exact absurd hwk hsame
      rcases hk2 with rfl | ⟨rfl, hk0⟩
      · exact absurd hr.key_of_self hsame
      · rw [hwk]
        exact ⟨hk0, hkey2⟩
  · exact h

theorem Keyed.link (h : Keyed s) (t : Nat) (word : U32) : Keyed (step s (.link t word)) := by
  have hinv := h.inv.link t word
  rw [step]
  refine ⟨hinv, fun u key val d hph => h.checking u key val d ?_, fun w hw hwoken => ?_⟩
  · dsimp only at hph
    unfold Futex.link at hph
    split at hph
    · split at hph <;> exact checking_of_update hph nofun
    · exact hph
  · dsimp only at hw
    unfold Futex.link at hw
    split at hw
    · next key val d hph =>
      split at hw
      · exact h.queued w hw hwoken
      rcases List.mem_cons.mp hw with rfl | hw
      · exact h.checking t key val d hph
      · exact h.queued w hw hwoken
    · exact h.queued w hw hwoken

theorem Keyed.turn (h : Keyed s) (t : Nat) (signal : Bool) (now : U64) : Keyed (step s (.turn t signal now)) := by
  have hinv := h.inv.turn t signal now
  have hws : (Futex.turn s.futex t signal now).waiters = s.futex.waiters := by
    unfold Futex.turn
    repeat' split
    all_goals rfl
  rw [step]
  refine ⟨hinv, fun u key val d hph => h.checking u key val d ?_, fun w hw => h.queued w (hws ▸ hw)⟩
  dsimp only at hph
  unfold Futex.turn at hph
  split at hph
  · split at hph
    · exact checking_of_update hph nofun
    split at hph
    · exact checking_of_update hph nofun
    · split at hph <;> exact checking_of_update hph nofun
  · exact hph

theorem Keyed.unlink (h : Keyed s) (t : Nat) : Keyed (step s (.unlink t)) := by
  have hinv := h.inv.unlink t
  rw [step]
  refine ⟨hinv, fun u key val d hph => h.checking u key val d ?_, fun w hw => h.queued w ?_⟩
  · dsimp only at hph
    unfold Futex.unlink at hph
    split at hph
    · exact checking_of_update hph nofun
    · exact hph
  · dsimp only at hw
    unfold Futex.unlink at hw
    split at hw
    · exact List.mem_of_mem_eraseP hw
    · exact hw

theorem Keyed.wakePhys (h : Keyed s) (phys : U64) (n : Int) : Keyed (step s (.wakePhys phys n)) := by
  refine ⟨h.inv.futexWake phys n, h.checking, fun w' hw' hwoken => ?_⟩
  obtain ⟨w, hw, hr⟩ := exists_requeued (wakeLoop_requeued phys n s.futex.waiters 0) hw'
  have := h.queued w hw (hr.awake hwoken).1
  rw [← hr.key_of_self, ← hr.task] at this
  exact this

theorem Keyed.step (h : Keyed s) {e : Event} (hok : Steady s e) : Keyed (step s e) := by
  cases e with
  | mem e => exact h.mem hok
  | enter t pgd =>
    rw [FutexKey.step]
    split
    · exact ⟨h.inv, h.checking, h.queued⟩
    · exact h
  | call t c => exact h.call t c
  | link t word => exact h.link t word
  | turn t signal now => exact h.turn t signal now
  | unlink t => exact h.unlink t
  | wakePhys phys n => exact h.wakePhys phys n

theorem Keyed.boot (p : Pmm) (mem : Nat → Nat → U8) : Keyed (boot p mem) where
  inv := Inv.boot
  checking _ _ _ _ h := nomatch h
  queued _ h := (List.not_mem_nil h).elim

/-- In every run in which no event takes a page from under a wait, every waiter sleeps on
the key its address has now, and a wake of an address with room for all waiters marks
every waiter queued on that address in the space of the caller. -/
theorem futex_wake_finds_waiters (p : Pmm) (mem : Nat → Nat → U8) (es : List Event)
    (h : Along Steady step (boot p mem) es) :
    let s := run step (boot p mem) es
    (∀ w ∈ s.futex.waiters, w.woken = false → w.key = s.key (s.home w.task)) ∧
      ∀ t c, s.futex.phase t = .idle → c.cmd = 1 ∨ c.cmd = 10 → (s.futex.waiters.length : Int) ≤ c.val.toInt →
        ∀ w ∈ (step s (.call t c)).futex.waiters, s.home w.task = (s.space t, c.uaddr) → w.woken = true := by
  intro s
  have hk : Keyed s := invariant_run (fun _ _ hs hok => hs.step hok) (.boot p mem) h
  refine ⟨fun w hw hwoken => (hk.queued w hw hwoken).2, fun t c hidle hcmd hn w' hw' hhome => ?_⟩
  by_contra hwoken
  rw [Bool.not_eq_true] at hwoken
  have hkey : (s.resolve t c).key userBase userEnd = s.key (s.space t, c.uaddr) := rfl
  have hwake : (step s (.call t c)).futex.waiters =
      if s.key (s.space t, c.uaddr) = 0 then s.futex.waiters
      else (wakeLoop (s.key (s.space t, c.uaddr)) c.val.toInt s.futex.waiters 0).1 := by
    rw [step, if_pos hidle]
    dsimp only
    rw [sysFutex_wake (c := s.resolve t c) hcmd, hkey]
    split <;> rfl
  rw [hwake] at hw'
  split at hw'
  · next hz =>
    obtain ⟨hne, he⟩ := hk.queued w' hw' hwoken
    exact hne (he.trans (hhome ▸ hz))
  · obtain ⟨w, hw, hr⟩ := exists_requeued (wakeLoop_requeued ..) hw'
    have he := (hk.queued w hw (hr.awake hwoken).1).2
    rw [← hr.key_of_self, ← hr.task, hhome] at he
    rw [wakeLoop_marks (by simpa using hn) hw' he] at hwoken
    cases hwoken

def waitAndFork : List Event :=
  [.mem .create, .mem (.map 1 0x1000#64 true false), .enter 1 1, .enter 2 1,
    .call 1 { uaddr := 0x1000#64, op := 0, val := 0, phys := 0 }, .link 1 0, .mem (.clone 1)]

def wakeWord : Call := { uaddr := 0x1000#64, op := 1, val := 1, phys := 0 }

theorem futex_wake_finds_waiters_waitAndFork :
    (run step (boot smallPmm 0) waitAndFork).futex.waiters.map Waiter.task = [1] ∧
      ∀ w ∈ (step (run step (boot smallPmm 0) waitAndFork) (.call 2 wakeWord)).futex.waiters,
        (run step (boot smallPmm 0) waitAndFork).home w.task = (1, 0x1000#64) → w.woken = true := by
  have hfresh : ((run step (boot smallPmm 0) (waitAndFork.take 6)).mach.spaces
      (run step (boot smallPmm 0) (waitAndFork.take 6)).mach.pmm.pmmAllocPage.1).isNone = true := by
    decide +kernel
  have hsteady : Along Steady step (boot smallPmm 0) waitAndFork := by
    refine ⟨fun t ht => ?_, fun t ht => trivial, trivial, trivial, trivial, trivial, fun t ht s' r hc => ?_,
      trivial⟩
    · rcases ht with ⟨_, _, _, hph⟩ | ⟨w, hw, -⟩
      · cases hph
      · exact (List.not_mem_nil hw).elim
    · obtain ⟨q, hq, -⟩ := vmmCreateAddressSpace_spec hc
      have hr := congrArg Prod.fst hq
      dsimp only at hr
      rw [← hr]
      exact Option.isNone_iff_eq_none.mp hfresh
  exact ⟨by decide +kernel, (futex_wake_finds_waiters smallPmm 0 waitAndFork hsteady).2 2 wakeWord
    (by decide +kernel) (by decide) (by decide +kernel)⟩

/-- The process forks while its thread waits, the other thread stores to the word and then
wakes one waiter: the store has moved the word to a new frame, and no waiter is found. -/
theorem forked_waiter_not_found :
    ¬ ∀ (p : Pmm) (mem : Nat → Nat → U8) (es : List Event),
      ∀ w ∈ (run step (boot p mem) es).futex.waiters, w.woken = false →
        w.key = (run step (boot p mem) es).key ((run step (boot p mem) es).home w.task) := by
  intro h
  have hlost := h smallPmm 0 (waitAndFork ++ [.mem (.store 1 0x1000#64 1), .call 2 wakeWord])
  revert hlost
  decide +kernel

end Sic.FutexKey
