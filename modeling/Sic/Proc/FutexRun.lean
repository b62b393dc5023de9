import Sic.Proc.Futex

/-! Futex accounting over whole runs: wakes and waits balance, a requeue loses no
waiter, and the queue holds the entries of the waits under way and no others. -/

namespace Sic.Futex

inductive Requeued (k1 k2 : U64) : Waiter → Waiter → Prop
  | stay (w : Waiter) : Requeued k1 k2 w w
  | wake (w : Waiter) : w.key = k1 → w.woken = false → Requeued k1 k2 w { w with woken := true }
  | move (w : Waiter) : w.key = k1 → w.woken = false → Requeued k1 k2 w { w with key := k2 }

variable {k1 k2 : U64}

theorem Requeued.task {w w' : Waiter} (h : Requeued k1 k2 w w') : w'.task = w.task := by
  cases h <;> rfl

theorem Requeued.woken {w w' : Waiter} (h : Requeued k1 k2 w w') (hw : w.woken = true) : w'.woken = true := by
  cases h <;> simp_all

theorem forall₂_refl (k1 k2 : U64) (ws : List Waiter) : List.Forall₂ (Requeued k1 k2) ws ws :=
  List.forall₂_same.mpr fun w _ => .stay w

section loops

variable {k1 k2 : U64} {ws ws' : List Waiter}

theorem map_task_of_requeued (h : List.Forall₂ (Requeued k1 k2) ws ws') :
    ws'.map Waiter.task = ws.map Waiter.task := by
  induction h with
  | nil => rfl
  | cons hw _ ih => rw [List.map_cons, List.map_cons, ih, hw.task]

theorem any_woken_of_requeued (h : List.Forall₂ (Requeued k1 k2) ws ws') {t : Nat}
    (hw : ws.any (fun w => w.task = t && w.woken) = true) :
    ws'.any (fun w => w.task = t && w.woken) = true := by
  induction h with
  | nil => exact hw
  | cons hr _ ih =>
    rw [List.any_cons, Bool.or_eq_true] at hw ⊢
    refine hw.imp (fun hw => ?_) ih
    rw [Bool.and_eq_true] at hw ⊢
    exact ⟨by rw [hr.task]; exact hw.1, hr.woken hw.2⟩

variable {w' w : Waiter}

theorem exists_requeued {k1 k2 : U64} {ws ws' : List Waiter} (h : List.Forall₂ (Requeued k1 k2) ws ws')
    (hw' : w' ∈ ws') : ∃ w ∈ ws, Requeued k1 k2 w w' := by
  induction h with
  | nil => exact (List.not_mem_nil hw').elim
  | cons hr _ ih =>
    rcases List.mem_cons.mp hw' with rfl | hw'
    · exact ⟨_, List.mem_cons_self, hr⟩
    · obtain ⟨w, hw, hr⟩ := ih hw'
      exact ⟨w, List.mem_cons_of_mem _ hw, hr⟩

theorem Requeued.awake {k1 k2 : U64} (h : Requeued k1 k2 w w') (hw : w'.woken = false) :
    w.woken = false ∧ (w'.key = w.key ∨ w'.key = k2) := by
  cases h with
  | stay => exact ⟨hw, .inl rfl⟩
  | wake => cases hw
  | move => exact ⟨hw, .inr rfl⟩

theorem Requeued.key_of_self {k : U64} (h : Requeued k k w w') : w'.key = w.key := by
  cases h with
  | stay => rfl
  | wake => rfl
  | move hk => exact hk.symm

def unwoken (key : U64) (ws : List Waiter) : Nat := ws.countP fun w => w.key = key && !w.woken

theorem unwoken_cons (key : U64) (w : Waiter) (ws : List Waiter) :
    unwoken key (w :: ws) = unwoken key ws + if w.key = key ∧ w.woken = false then 1 else 0 := by
  simp [unwoken, List.countP_cons]

def rekeyed (ws ws' : List Waiter) : Nat := (ws.zip ws').countP fun p => p.1.key ≠ p.2.key

theorem rekeyed_cons (w w' : Waiter) (ws ws' : List Waiter) :
    rekeyed (w :: ws) (w' :: ws') = rekeyed ws ws' + if w.key ≠ w'.key then 1 else 0 := by
  simp [rekeyed, List.zip_cons_cons, List.countP_cons]

theorem wakeLoop_requeued (key : U64) (n : Int) (ws : List Waiter) (count : Nat) :
    List.Forall₂ (Requeued key key) ws (wakeLoop key n ws count).1 := by
  induction ws generalizing count with
  | nil => exact .nil
  | cons w ws ih =>
    rw [wakeLoop]
    split
    · split
      · next h => exact .cons (.wake w h.1 h.2) (ih _)
      · exact .cons (.stay w) (ih _)
    · exact forall₂_refl _ _ _

theorem wakeLoop_count (key : U64) (n : Int) (ws : List Waiter) {count : Nat} (hc : count ≤ n.toNat) :
    (wakeLoop key n ws count).2 = min n.toNat (count + unwoken key ws) ∧
      (wakeLoop key n ws count).2 + ws.countP Waiter.woken =
        count + (wakeLoop key n ws count).1.countP Waiter.woken := by
  induction ws generalizing count with
  | nil => simp [wakeLoop, unwoken, hc]
  | cons w ws ih =>
    rw [wakeLoop, unwoken_cons]
    split
    · split
      · next hn h =>
        obtain ⟨h1, h2⟩ := ih (show count + 1 ≤ n.toNat by omega)
        simp only [List.countP_cons, h.2, h1, if_true, Bool.false_eq_true, if_false] at h2 ⊢
        omega
      · obtain ⟨h1, h2⟩ := ih hc
        simp only [List.countP_cons, h1] at h2 ⊢
        omega
    · refine ⟨?_, rfl⟩
      dsimp only
      omega

theorem wakeLoop_marks {key : U64} {n : Int} {ws : List Waiter} {count : Nat} (hn : (count + ws.length : Nat) ≤ n)
    (hw : w ∈ (wakeLoop key n ws count).1) (hk : w.key = key) : w.woken = true := by
  induction ws generalizing count with
  | nil => exact (List.not_mem_nil hw).elim
  | cons x ws ih =>
    rw [List.length_cons] at hn
    rw [wakeLoop, if_pos (by omega)] at hw
    split at hw
    · rcases List.mem_cons.mp hw with rfl | hw
      · rfl
      · exact ih (by omega) hw
    · next hx =>
      rcases List.mem_cons.mp hw with rfl | hw
      · simpa [hk] using hx
      · exact ih (by omega) hw

theorem requeueLoop_requeued (k1 k2 : U64) (nwake nrequeue : U32) (ws : List Waiter) (woken moved : Nat) :
    List.Forall₂ (Requeued k1 k2) ws (requeueLoop k1 k2 nwake nrequeue ws woken moved).1 := by
  induction ws generalizing woken moved with
  | nil => exact .nil
  | cons w ws ih =>
    rw [requeueLoop]
    split
    · exact .cons (.stay w) (ih _ _)
    next h =>
    rw [not_or, not_not, Bool.not_eq_true] at h
    split
    · exact .cons (.wake w h.1 h.2) (ih _ _)
    split
    · exact .cons (.move w h.1 h.2) (ih _ _)
    · exact .cons (.stay w) (ih _ _)

theorem requeueLoop_count (k1 k2 : U64) (nwake nrequeue : U32) (ws : List Waiter) {woken moved : Nat}
    (hw : woken ≤ nwake.toNat) (hm : moved ≤ nrequeue.toNat) :
    let r := requeueLoop k1 k2 nwake nrequeue ws woken moved
    r.2.1 = min nwake.toNat (woken + unwoken k1 ws) ∧
      r.2.2 = min nrequeue.toNat (moved + (woken + unwoken k1 ws - r.2.1)) ∧
      r.2.1 + ws.countP Waiter.woken = woken + r.1.countP Waiter.woken ∧
      (k1 ≠ k2 → r.2.2 = moved + rekeyed ws r.1) := by
  induction ws generalizing woken moved with
  | nil =>
    refine ⟨?_, ?_, rfl, fun _ => rfl⟩
    · exact (Nat.min_eq_right hw).symm
    · simpa [requeueLoop, unwoken] using hm
  | cons w ws ih =>
    rw [requeueLoop, unwoken_cons]
    split
    · next h =>
      obtain ⟨h1, h2, h3, h4⟩ := ih hw hm
      have hno : ¬ (w.key = k1 ∧ w.woken = false) := by simpa [imp_iff_not_or] using h
      simp only [hno, if_false, List.countP_cons, rekeyed_cons, ne_eq, not_true, Nat.add_zero]
      exact ⟨h1, h2, by omega, h4⟩
    · next h =>
      rw [not_or, not_not, Bool.not_eq_true] at h
      simp only [h.1, h.2, and_self, if_true]
      split
      · obtain ⟨h1, h2, h3, h4⟩ := ih (show woken + 1 ≤ nwake.toNat by omega) hm
        rw [Nat.add_right_comm] at h1 h2
        simp only [List.countP_cons, rekeyed_cons, h.1, h.2, ne_eq, not_true, Nat.add_zero, if_true, if_false,
          Bool.false_eq_true]
        exact ⟨h1, h2, by omega, h4⟩
      · split
        · obtain ⟨h1, h2, h3, h4⟩ := ih hw (show moved + 1 ≤ nrequeue.toNat by omega)
          simp only [List.countP_cons, rekeyed_cons, h.1, h.2]
          refine ⟨by omega, by omega, by omega, fun hne => ?_⟩
          rw [h4 hne, if_pos hne]
          omega
        · obtain ⟨h1, h2, h3, h4⟩ := ih hw hm
          simp only [List.countP_cons, rekeyed_cons, ne_eq, not_true, Nat.add_zero, if_false]
          exact ⟨by omega, by omega, by omega, h4⟩

end loops

/-! ### The invariant -/

def Phase.linked : Phase → Bool
  | .idle | .checking .. => false
  | .waiting .. | .leaving .. => true

namespace WakeResult

variable (r : WakeResult)

def woken : Nat := r.after.countP Waiter.woken - r.before.countP Waiter.woken

def moved : Nat := rekeyed r.before r.after

/-- A wake returns how many entries it marked, and these are as many as it was asked for and found. A requeue
marks so many too, moves the next ones, and counts those only if it compares. -/
def Reports : Prop :=
  match r.op with
  | .wake key n =>
    r.ret = r.woken ∧ r.woken = min n.toNat (unwoken key r.before) ∧
      List.Forall₂ (Requeued key key) r.before r.after
  | .requeue k1 k2 nwake nrequeue cmp =>
    let left := unwoken k1 r.before - r.woken
    r.ret = r.woken + (if cmp then min nrequeue.toNat left else 0) ∧
      r.woken = min nwake.toNat (unwoken k1 r.before) ∧ (k1 ≠ k2 → r.moved = min nrequeue.toNat left) ∧
      List.Forall₂ (Requeued k1 k2) r.before r.after

end WakeResult

namespace State

def wakeups (s : State) : Nat := (s.wakes.map WakeResult.woken).sum

def zeros (s : State) : Nat := s.waits.countP fun r => r.rc = 0

def marked (s : State) : Nat := s.waiters.countP Waiter.woken

end State

structure Inv (s : State) : Prop where
  nodup : (s.waiters.map Waiter.task).Nodup
  linked : ∀ t, t ∈ s.waiters.map Waiter.task ↔ (s.phase t).linked = true
  balance : s.wakeups = s.zeros + s.marked
  leaving : ∀ t rc slept, s.phase t = .leaving rc slept → rc ≠ eagain ∧ (rc = 0 → s.woken t = true)
  dry : ∀ r ∈ s.waits, r.rc = eagain → r.slept = false
  reports : ∀ r ∈ s.wakes, r.Reports

variable {s : State} {t : Nat}

theorem Inv.boot : Inv {} where
  nodup := .nil
  linked _ := ⟨fun h => (List.not_mem_nil h).elim, fun h => nomatch h⟩
  balance := rfl
  leaving _ _ _ h := nomatch h
  dry _ h := (List.not_mem_nil h).elim
  reports _ h := (List.not_mem_nil h).elim

theorem Inv.setPhase (h : Inv s) {p : Phase} (hp : p.linked = (s.phase t).linked)
    (hrc : ∀ rc slept, p = .leaving rc slept → rc ≠ eagain ∧ (rc = 0 → s.woken t = true)) :
    Inv (s.setPhase t p) where
  nodup := h.nodup
  linked u := by
    by_cases hu : u = t
    · subst hu
      simpa [State.setPhase, hp] using h.linked u
    · simpa [State.setPhase, hu] using h.linked u
  balance := h.balance
  leaving u rc slept hl := by
    by_cases hu : u = t
    · subst hu
      exact hrc rc slept (by simpa [State.setPhase] using hl)
    · exact h.leaving u rc slept (by simpa [State.setPhase, hu] using hl)
  dry := h.dry
  reports := h.reports

theorem Inv.ret (h : Inv s) (ht : (s.phase t).linked = false) {rc : Int} (hrc : rc ≠ 0) :
    Inv (s.ret t rc false) := by
  have hidle : Inv (s.setPhase t .idle) := h.setPhase ht.symm fun _ _ he => nomatch he
  refine { hidle with balance := ?_, dry := fun r hr he => ?_ }
  · have hz : (s.ret t rc false).zeros = s.zeros := by simp [State.ret, State.zeros, hrc, State.setPhase]
    rw [hz]
    exact h.balance
  · rcases List.mem_cons.mp hr with rfl | hr
    · rfl
    · exact h.dry r hr he

theorem deadlineOf_error {clock : Clock} {now epoch : U64} {timeout : Timeout} {rc : Int}
    (h : deadlineOf clock now epoch timeout = .error rc) : rc ≠ 0 := by
  cases timeout with
  | null => cases h
  | bad =>
    cases h
    decide
  | «at» sec nsec =>
    rw [deadlineOf] at h
    split at h
    · cases h
      decide
    · cases h

theorem Inv.futexWait (h : Inv s) (ht : s.phase t = .idle) (key : U64) (val : U32) {deadline : Except Int U64}
    (hd : ∀ rc, deadline = .error rc → rc ≠ 0) : Inv (futexWait s t key val deadline) := by
  have hun : (s.phase t).linked = false := by rw [ht]; rfl
  unfold Futex.futexWait
  split
  · exact h.ret hun (by decide)
  split
  · next rc => exact h.ret hun (hd rc rfl)
  · exact h.setPhase hun.symm fun _ _ he => nomatch he

theorem Inv.link (h : Inv s) (t : Nat) (word : U32) : Inv (link s t word) := by
  rw [Futex.link]
  split
  · next key val d hph =>
    have hun : (s.phase t).linked = false := by rw [hph]; rfl
    have hnot : t ∉ s.waiters.map Waiter.task := by rw [h.linked, hun]; decide
    split
    · exact h.ret hun (by decide)
    exact {
      nodup := List.nodup_cons.mpr ⟨hnot, h.nodup⟩
      linked := fun u => by
        by_cases hu : u = t
        · subst hu
          simp [State.setPhase, Phase.linked]
        · simpa [State.setPhase, hu] using h.linked u
      balance := h.balance
      leaving := fun u rc slept hl => by
        by_cases hu : u = t
        · subst hu
          simp [State.setPhase] at hl
        · have := h.leaving u rc slept (by simpa [State.setPhase, hu] using hl)
          simpa [State.woken, Ne.symm hu] using this
      dry := h.dry
      reports := h.reports }
  · exact h

theorem Inv.turn (h : Inv s) (t : Nat) (signal : Bool) (now : U64) : Inv (turn s t signal now) := by
  rw [Futex.turn]
  split
  · next d slept hph =>
    have hon : true = (s.phase t).linked := by rw [hph]; rfl
    split
    · next hw =>
      refine h.setPhase hon fun rc slept he => ?_
      cases he
      exact ⟨by decide, fun _ => hw⟩
    · split
      · refine h.setPhase hon fun rc slept he => ?_
        cases he
        exact ⟨by decide, fun hz => absurd hz (by decide)⟩
      · split
        · refine h.setPhase hon fun rc slept he => ?_
          cases he
          exact ⟨by decide, fun hz => absurd hz (by decide)⟩
        · exact h.setPhase hon fun _ _ he => nomatch he
  · exact h

theorem Inv.entry (h : Inv s) (ht : (s.phase t).linked = true) :
    ∃ w l₁ l₂, w.task = t ∧ s.waiters = l₁ ++ w :: l₂ ∧ (s.waiters.eraseP fun w => w.task = t) = l₁ ++ l₂ ∧
      (∀ x ∈ l₁ ++ l₂, x.task ≠ t) ∧ s.woken t = w.woken := by
  obtain ⟨w, hw, hwt⟩ := List.mem_map.mp ((h.linked t).mpr ht)
  obtain ⟨a, l₁, l₂, hl₁, ha, hs, he⟩ :=
    List.exists_of_eraseP (p := fun w => decide (w.task = t)) hw (by simpa using hwt)
  have hat : a.task = t := by simpa using ha
  have hnd := h.nodup
  rw [hs, List.map_append, List.map_cons, List.nodup_middle, List.nodup_cons, hat] at hnd
  have hother : ∀ x ∈ l₁ ++ l₂, x.task ≠ t := by
    intro x hx hxt
    apply hnd.1
    rw [← List.map_append]
    exact List.mem_map.mpr ⟨x, hx, hxt⟩
  refine ⟨a, l₁, l₂, hat, hs, he, hother, ?_⟩
  have hnone : ∀ l : List Waiter, (∀ x ∈ l, x ∈ l₁ ++ l₂) → l.any (fun w => w.task = t && w.woken) = false := by
    intro l hl
    rw [List.any_eq_false]
    intro x hx
    simp [hother x (hl x hx)]
  rw [State.woken, hs, List.any_append, List.any_cons,
    hnone l₁ fun x hx => List.mem_append_left _ hx, hnone l₂ fun x hx => List.mem_append_right _ hx]
  simp [hat]

theorem Inv.unlink (h : Inv s) (t : Nat) : Inv (unlink s t) := by
  rw [Futex.unlink]
  split
  · next rc slept hph =>
    obtain ⟨w, l₁, l₂, hwt, hs, he, hother, hwoken⟩ := h.entry (t := t) (by rw [hph]; rfl)
    obtain ⟨hrc, hzero⟩ := h.leaving t rc slept hph
    have hnd := h.nodup
    rw [hs, List.map_append, List.map_cons, List.nodup_middle, List.nodup_cons, ← List.map_append] at hnd
    rw [he]
    refine ⟨hnd.2, fun u => ?_, ?_, fun u rc' slept' hl => ?_, fun r hr hag => ?_, h.reports⟩
    · by_cases hu : u = t
      · subst hu
        simp only [State.ret, State.setPhase, Function.update_self, Phase.linked, Bool.false_eq_true, iff_false]
        intro hm
        obtain ⟨x, hx, hxt⟩ := List.mem_map.mp hm
        exact hother x hx hxt
      · have := h.linked u
        rw [hs] at this
        simpa [State.ret, State.setPhase, hu, hwt] using this
    · have hbal := h.balance
      have hiff : (if s.woken t = true then (0 : Int) else rc) = 0 ↔ w.woken = true := by
        rw [← hwoken]
        by_cases hw : s.woken t = true
        · simp [hw]
        · simp only [hw, Bool.false_eq_true, if_false, iff_false]
          exact fun hz => hw (hzero hz)
      simp only [State.wakeups, State.zeros, State.marked, hs, List.countP_append, List.countP_cons, State.ret,
        State.setPhase, decide_eq_true_eq, hiff] at hbal ⊢
      omega
    · have hu : u ≠ t := by
        rintro rfl
        simp [State.ret, State.setPhase] at hl
      obtain ⟨hne, hz⟩ := h.leaving u rc' slept' (by simpa [State.ret, State.setPhase, hu] using hl)
      refine ⟨hne, fun h0 => ?_⟩
      have := hz h0
      rw [State.woken, hs] at this
      simpa [State.woken, hwt, Ne.symm hu] using this
    · rcases List.mem_cons.mp hr with rfl | hr
      · exfalso
        dsimp only at hag
        split at hag
        · exact absurd hag (by decide)
        · exact hrc hag
      · exact h.dry r hr hag
  · exact h

theorem Inv.wakeRet (h : Inv s) {op : WakeOp} {ws : List Waiter} {ret : Nat}
    (hws : List.Forall₂ (Requeued k1 k2) s.waiters ws) (hmarks : s.marked ≤ ws.countP Waiter.woken)
    (hrep : WakeResult.Reports ⟨op, ret, s.waiters, ws⟩) : Inv (s.wakeRet op ws ret) where
  nodup := by
    rw [State.wakeRet, map_task_of_requeued hws]
    exact h.nodup
  linked u := by
    rw [State.wakeRet, map_task_of_requeued hws]
    exact h.linked u
  balance := by
    have := h.balance
    simp only [State.wakeups, State.zeros, State.marked, State.wakeRet, List.map_cons, List.sum_cons,
      WakeResult.woken] at *
    omega
  leaving u rc slept hl :=
    ⟨(h.leaving u rc slept hl).1, fun hz => any_woken_of_requeued hws ((h.leaving u rc slept hl).2 hz)⟩
  dry := h.dry
  reports := List.forall_mem_cons.mpr ⟨hrep, h.reports⟩

theorem Inv.futexWake (h : Inv s) (key : U64) (n : Int) : Inv (futexWake s key n) := by
  have hws := wakeLoop_requeued key n s.waiters 0
  obtain ⟨hret, hcount⟩ := wakeLoop_count key n s.waiters (Nat.zero_le _)
  rw [Nat.zero_add] at hret hcount
  refine h.wakeRet hws (by rw [State.marked]; omega) ⟨?_, ?_, hws⟩
  · simp only [WakeResult.woken]
    omega
  · simp only [WakeResult.woken]
    omega

theorem futexRequeue_requeued (s : State) (k1 k2 : U64) (nwake nrequeue : U32) (cmp : Bool) (word val3 : U32) :
    List.Forall₂ (Requeued k1 k2) s.waiters (futexRequeue s k1 k2 nwake nrequeue cmp word val3).waiters := by
  rw [futexRequeue]
  split
  · exact forall₂_refl _ _ _
  split
  · exact forall₂_refl _ _ _
  · exact requeueLoop_requeued k1 k2 nwake nrequeue s.waiters 0 0

theorem Inv.futexRequeue (h : Inv s) (k1 k2 : U64) (nwake nrequeue : U32) (cmp : Bool) (word val3 : U32) :
    Inv (futexRequeue s k1 k2 nwake nrequeue cmp word val3) := by
  have hcount := requeueLoop_count k1 k2 nwake nrequeue s.waiters (Nat.zero_le _) (Nat.zero_le _)
  have hws := requeueLoop_requeued k1 k2 nwake nrequeue s.waiters 0 0
  rw [Futex.futexRequeue]
  generalize requeueLoop k1 k2 nwake nrequeue s.waiters 0 0 = r at hcount hws ⊢
  obtain ⟨ws, woken, moved⟩ := r
  simp only [Nat.zero_add] at hcount hws
  obtain ⟨hw, hm, hmark, hmoved⟩ := hcount
  have hwoken : ws.countP Waiter.woken - s.waiters.countP Waiter.woken = woken := by omega
  split
  · exact h
  split
  · exact h
  refine h.wakeRet hws (by rw [State.marked]; omega) ?_
  simp only [WakeResult.Reports, WakeResult.woken, WakeResult.moved, hwoken, ← hm]
  exact ⟨trivial, hw, fun hne => (hmoved hne).symm, hws⟩

theorem Inv.sysFutex (h : Inv s) (ht : s.phase t = .idle) (base limit : U64) (c : Call) :
    Inv (sysFutex base limit s t c) := by
  unfold Futex.sysFutex
  split
  · exact h.futexWait ht _ _ fun _ => deadlineOf_error
  · exact h.futexWait ht _ _ fun _ => deadlineOf_error
  · split
    · exact h
    · exact h.futexWake _ _
  · split
    · exact h
    · exact h.futexWake _ _
  · exact h.futexRequeue ..
  · exact h.futexRequeue ..
  · exact h

theorem Inv.step (h : Inv s) (base limit : U64) (e : Event) : Inv (step base limit s e) := by
  cases e with
  | call t c =>
    rw [Futex.step]
    split
    · next ht => exact h.sysFutex ht base limit c
    · exact h
  | link t word => exact h.link t word
  | turn t signal now => exact h.turn t signal now
  | unlink t => exact h.unlink t
  | wakePhys phys n => exact h.futexWake phys n

theorem Inv.of_run (base limit : U64) (es : List Event) : Inv (run (Futex.step base limit) {} es) :=
  invariant_foldl (fun _ e h => h.step base limit e) es Inv.boot

/-- In every state of every run: a wake returns the number of waiters it wakes, and a requeue that compares adds
those it moves; the waiters woken are the waits that returned 0 and the marked ones that are about to; the queue
holds one entry for each wait in its loop or behind it and no other; a wait that fails its check returns without
a sleep; and a requeue keeps every entry in its place. -/
theorem futex_accounts (base limit : U64) (es : List Event) :
    let s := run (step base limit) {} es
    (∀ r ∈ s.wakes, r.Reports) ∧ s.wakeups = s.zeros + s.marked ∧ (s.waiters = [] → s.wakeups = s.zeros) ∧
      (∀ t, (s.waiters.map Waiter.task).count t = if (s.phase t).linked then 1 else 0) ∧
      (∀ r ∈ s.waits, r.rc = eagain → r.slept = false) ∧
      (∀ t key val d word, s.phase t = .checking key val d → word ≠ val →
        (step base limit s (.link t word)).waiters = s.waiters ∧
          (step base limit s (.link t word)).phase t = .idle ∧
          (step base limit s (.link t word)).waits = ⟨t, eagain, false⟩ :: s.waits) ∧
      ∀ k1 k2 nwake nrequeue cmp word val3, List.Forall₂ (Requeued k1 k2) s.waiters
        (futexRequeue s k1 k2 nwake nrequeue cmp word val3).waiters := by
  intro s
  have h : Inv s := .of_run base limit es
  refine ⟨h.reports, h.balance, fun he => ?_, fun t => ?_, h.dry, fun t key val d word hph hne => ?_,
    futexRequeue_requeued s⟩
  · rw [h.balance, State.marked, he]
    rfl
  · rw [h.nodup.count]
    simp only [h.linked]
  · simp [step, link, hph, hne, State.ret, State.setPhase]

def movedAndInterrupted : List Event :=
  [.call 1 { uaddr := 0x1000, op := 0, val := 0, phys := 0x1000 }, .link 1 0,
    .call 2
      { uaddr := 0x1000, op := 4, val := 0, nrequeue := 1, uaddr2 := 0x2000, phys := 0x1000, phys2 := 0x2000 },
    .turn 1 true 0, .unlink 1]

/-- The numbers returned by all wakes are not the number of waits that return 0: a requeue that compares also
counts the waiters that it moves. -/
theorem cmp_requeue_counts_moved :
    let s := run (step 0x1000 0x10000) {} movedAndInterrupted
    s.waiters = [] ∧ (s.wakes.map WakeResult.ret).sum = 1 ∧ s.zeros = 0 := by
  decide +kernel

end Sic.Futex
