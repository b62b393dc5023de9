import Sic.Proc.SigMask

/-! Which signal `deliver` takes and how it ends. The scan for the lowest signal is the compiler's
`__builtin_ctzl`, whose argument is as wide as a `long`. -/

namespace Sic.SigMask

inductive Arch where
  | x86_64
  | aarch64
  | powerpc
deriving DecidableEq, Repr

def Arch.bitsPerLong : Arch → Nat
  | .x86_64 | .aarch64 => 64
  | .powerpc => 32

/-- `__builtin_ctzl` of the low `w` bits, undefined if they are all 0. -/
def ctzl (w : Nat) (x : U64) : Option Nat := (List.range w).find? x.getLsbD

inductive Verdict where
  | undefined
  | exits (t : SigTask)
  | frame (t : SigTask) (sig : Nat)
  | done (t : SigTask)

def Verdict.task : Verdict → Option SigTask
  | .undefined => none
  | .exits t | .frame t _ | .done t => some t

namespace SigTask

def nextSignalOn (a : Arch) (t : SigTask) : Option Nat :=
  if t.deliverable = 0 then some 0 else (ctzl a.bitsPerLong t.deliverable).map (· + 1)

def passes (t : SigTask) (sig : Nat) : Bool :=
  t.disposition sig == .ign || t.disposition sig == .dfl && (defaultIgnored sig || decide (sig ∈ stopSignals))

/-- The loop of `deliver` with the signals it takes; `room` says whether the user stack takes a frame. -/
def deliverLoop (a : Arch) (room : Bool) : Nat → SigTask → Option (List Nat × Verdict)
  | 0, _ => none
  | fuel + 1, t =>
    match t.nextSignalOn a with
    | none => some ([], .undefined)
    | some 0 => some ([], .done t.restoreMask)
    | some sig =>
      let t := t.take sig
      if t.passes sig then (deliverLoop a room fuel t).map fun r => (sig :: r.1, r.2)
      else if t.disposition sig = .dfl ∨ (t.actions sig).restorer = false ∨
        room = false then some ([sig], .exits t)
      else some ([sig], .frame (t.setupFrame sig) sig)

def deliver (a : Arch) (room : Bool) (t : SigTask) : Option (List Nat × Verdict) :=
  if t.groupExit then some ([], .exits t) else deliverLoop a room 65 t

def deliverables (t : SigTask) : List Nat := ((List.range 64).filter t.deliverable.getLsbD).map (· + 1)

variable {t : SigTask} {a : Arch} {sig x : Nat} {rest : List Nat}

theorem mem_deliverables : x ∈ t.deliverables ↔ 1 ≤ x ∧ x ≤ 64 ∧ t.deliverable.getLsbD (x - 1) = true := by
  simp only [deliverables, List.mem_map, List.mem_filter, List.mem_range]
  constructor
  · rintro ⟨i, ⟨hi, hbit⟩, rfl⟩
    exact ⟨by omega, by omega, hbit⟩
  · rintro ⟨hpos, hle, hbit⟩
    exact ⟨x - 1, ⟨by omega, hbit⟩, by omega⟩

theorem pairwise_deliverables (t : SigTask) : t.deliverables.Pairwise (· < ·) := by
  have h := (List.pairwise_lt_range (n := 64)).filter t.deliverable.getLsbD
  exact h.map _ fun i j hij => Nat.succ_lt_succ hij

theorem length_deliverables_le (t : SigTask) : t.deliverables.length ≤ 64 := by
  rw [deliverables, List.length_map]
  exact (List.length_filter_le _ _).trans (Nat.le_of_eq List.length_range)

theorem deliverables_eq_nil_iff : t.deliverables = [] ↔ t.deliverable = 0 := by
  constructor
  · intro h
    refine BitVec.eq_of_getLsbD_eq fun i hi => ?_
    by_contra hbit
    have hmem : i + 1 ∈ t.deliverables := mem_deliverables.mpr ⟨by omega, by omega, by simpa using hbit⟩
    rw [h] at hmem
    exact absurd hmem List.not_mem_nil
  · intro h
    simp [deliverables, h]

theorem getLsbD_take (hs : 1 ≤ sig) (i : Nat) :
    (t.take sig).pending.getLsbD i = (t.pending.getLsbD i && decide (i + 1 ≠ sig)) := by
  have hi : i = sig - 1 ↔ i + 1 = sig := by omega
  by_cases h : i < 64
  · change (t.pending &&& ~~~sigBit sig).getLsbD i = _
    rw [BitVec.getLsbD_and, BitVec.getLsbD_not, getLsbD_sigBit]
    simp only [h, decide_true, Bool.true_and, hi, ne_eq, decide_not]
  · rw [BitVec.getLsbD_of_ge _ _ (by omega), BitVec.getLsbD_of_ge _ _ (by omega)]
    rfl

theorem deliverables_take (h : t.deliverables = sig :: rest) : (t.take sig).deliverables = rest := by
  have hpos : 1 ≤ sig := (mem_deliverables.mp (h ▸ List.mem_cons_self ..)).1
  have hsort := h ▸ t.pairwise_deliverables
  have hfilter : (t.take sig).deliverables = t.deliverables.filter (· ≠ sig) := by
    rw [deliverables, deliverables, List.filter_map, List.filter_filter]
    refine congrArg _ (List.filter_congr fun i _ => ?_)
    rw [deliverable, BitVec.getLsbD_and, getLsbD_take hpos, deliverable, BitVec.getLsbD_and]
    simp only [take, Function.comp_apply]
    cases t.pending.getLsbD i <;> simp [Bool.and_comm]
  rw [hfilter, h, List.filter_cons_of_neg (by simp), List.filter_eq_self.mpr]
  intro y hy
  have hlt := (List.pairwise_cons.mp hsort).1 y hy
  simp only [decide_eq_true_eq]
  omega

theorem low_of_cons (h : t.deliverables = sig :: rest) (j : Nat) (hj : j < sig - 1) :
    t.deliverable.getLsbD j = false := by
  have hmem := mem_deliverables.mp (h ▸ List.mem_cons_self ..)
  by_contra hbit
  have hj' : j + 1 ∈ sig :: rest := h ▸ mem_deliverables.mpr ⟨by omega, by omega, by simpa using hbit⟩
  rcases List.mem_cons.mp hj' with he | hj'
  · omega
  · have := (List.pairwise_cons.mp (h ▸ t.pairwise_deliverables)).1 _ hj'
    omega

theorem nextSignalOn_cons (h : t.deliverables = sig :: rest) :
    t.nextSignalOn a = if sig ≤ a.bitsPerLong then some sig else none := by
  have hmem := mem_deliverables.mp (h ▸ List.mem_cons_self ..)
  have hne : t.deliverable ≠ 0 := fun h0 => by
    rw [deliverables_eq_nil_iff.mpr h0] at h
    cases h
  have hlow := low_of_cons h
  rw [nextSignalOn, if_neg hne, ctzl]
  split
  · next hle =>
    have hfind : (List.range a.bitsPerLong).find? t.deliverable.getLsbD = some (sig - 1) := by
      rw [List.find?_range_eq_some]
      exact ⟨hmem.2.2, List.mem_range.mpr (by omega), fun j hj => by simp [hlow j hj]⟩
    rw [hfind, Option.map_some]
    congr 1
    omega
  · next hle =>
    have hfind : (List.range a.bitsPerLong).find? t.deliverable.getLsbD = none := by
      rw [List.find?_range_eq_none]
      intro j hj
      simp [hlow j (by omega)]
    rw [hfind]
    rfl

/-! ### The loop -/

def takeAll (t : SigTask) (l : List Nat) : SigTask := l.foldl take t

theorem getLsbD_takeAll {l : List Nat} (h : ∀ x ∈ l, 1 ≤ x) (i : Nat) :
    (t.takeAll l).pending.getLsbD i = (t.pending.getLsbD i && !decide (i + 1 ∈ l)) := by
  induction l generalizing t with
  | nil => simp [takeAll]
  | cons x l ih =>
    rw [show t.takeAll (x :: l) = (t.take x).takeAll l from rfl, ih fun y hy => h y (List.mem_cons_of_mem x hy),
      getLsbD_take (h x (List.mem_cons_self ..)), Bool.and_assoc]
    congr 1
    simp

/-- The loop ends in one of three ways: all deliverable signals are taken, a signal outside the word is
the lowest one left, or a signal ends it. -/
inductive Ends (a : Arch) (t : SigTask) : List Nat × Verdict → Prop where
  | done (h : ∀ x ∈ t.deliverables, x ≤ a.bitsPerLong ∧ t.passes x = true) :
      Ends a t (t.deliverables, .done (t.takeAll t.deliverables).restoreMask)
  | undefined {l : List Nat} {x : Nat} {rest : List Nat} (hl : t.deliverables = l ++ x :: rest)
      (h : ∀ y ∈ l, t.passes y = true) (hx : a.bitsPerLong < x) : Ends a t (l, .undefined)
  | signal {l : List Nat} {x : Nat} {rest : List Nat} {v : Verdict} (hl : t.deliverables = l ++ x :: rest)
      (hx : x ≤ a.bitsPerLong) (hp : t.passes x = false)
      (hv : v = .exits (t.takeAll (l ++ [x])) ∨ v = .frame ((t.takeAll (l ++ [x])).setupFrame x) x) :
        Ends a t (l ++ [x], v)

variable {r : List Nat × Verdict}

theorem Ends.cons (h : t.deliverables = sig :: rest) (hle : sig ≤ a.bitsPerLong)
    (hp : t.passes sig = true) (hr : Ends a (t.take sig) r) : Ends a t (sig :: r.1, r.2) := by
  have hrest := deliverables_take h
  cases hr with
  | done hall =>
    rw [hrest] at hall ⊢
    refine cast ?_ (Ends.done (a := a) (t := t) ?_)
    · rw [h]
      rfl
    · rw [h]
      exact List.forall_mem_cons.mpr ⟨⟨hle, hp⟩, hall⟩
  | undefined hl hall hx =>
    exact .undefined (by rw [h, ← hrest, hl]; rfl) (List.forall_mem_cons.mpr ⟨hp, hall⟩) hx
  | @signal l _ _ _ hl hx hpx hv =>
    exact .signal (l := sig :: l) (by rw [h, ← hrest, hl]; rfl) hx hpx hv

theorem deliverLoop_ends (a : Arch) (room : Bool) {fuel : Nat} (t : SigTask)
    (hfuel : t.deliverables.length < fuel) :
    ∃ r, deliverLoop a room fuel t = some r ∧ Ends a t r := by
  induction fuel generalizing t with
  | zero => omega
  | succ fuel ih =>
    rw [deliverLoop]
    cases hd : t.deliverables with
    | nil =>
      rw [nextSignalOn, if_pos (deliverables_eq_nil_iff.mp hd)]
      refine ⟨_, rfl, cast ?_ (Ends.done (a := a) (t := t) (by simp [hd]))⟩
      rw [hd]
      rfl
    | cons sig rest =>
      have hpos : 1 ≤ sig := (mem_deliverables.mp (hd ▸ List.mem_cons_self ..)).1
      have hnext := nextSignalOn_cons (a := a) hd
      by_cases hle : sig ≤ a.bitsPerLong
      · rw [if_pos hle] at hnext
        obtain ⟨n, rfl⟩ : ∃ n, sig = n + 1 := ⟨sig - 1, by omega⟩
        simp only [hnext]
        split
        · next hp =>
          obtain ⟨r, hr, hends⟩ := ih (t.take (n + 1)) (by
            rw [deliverables_take hd]
            rw [hd, List.length_cons] at hfuel
            omega)
          rw [hr]
          exact ⟨_, rfl, hends.cons hd hle hp⟩
        · next hp =>
          rw [Bool.not_eq_true] at hp
          split
          · exact ⟨_, rfl, .signal (l := []) hd hle hp (.inl rfl)⟩
          · exact ⟨_, rfl, .signal (l := []) hd hle hp (.inr rfl)⟩
      · rw [if_neg hle] at hnext
        rw [hnext]
        exact ⟨_, rfl, .undefined (l := []) hd (by simp) (by omega)⟩

/-! ### What is claimed of a delivery -/

def Lowest (d : U64) (sig : Nat) : Prop :=
  (sig = 0 ∧ d = 0) ∨ (1 ≤ sig ∧ d.getLsbD (sig - 1) = true ∧ ∀ j, j < sig - 1 → d.getLsbD j = false)

structure Delivers (a : Arch) (room : Bool) (t : SigTask) : Prop where
  next : ∃ sig, t.nextSignalOn a = some sig ∧ Lowest t.deliverable sig
  ends : ∃ l v t', t.deliver a room = some (l, v) ∧ v.task = some t' ∧
    (∀ u, v = .done u → u.deliverable = 0) ∧ (∀ x ∈ l, x ∈ t.deliverables) ∧
    ∀ i, t'.pending.getLsbD i = (t.pending.getLsbD i && !decide (i + 1 ∈ l))

def leftover (t : SigTask) : U64 :=
  if t.savedMaskValid then t.pending &&& ~~~t.deliverable &&& ~~~(t.savedMask &&& ~~~uncatchable) else 0

theorem takeAll_eq (t : SigTask) (l : List Nat) : t.takeAll l = { t with pending := (t.takeAll l).pending } := by
  induction l generalizing t with
  | nil => rfl
  | cons x l ih =>
    change (t.take x).takeAll l = { t with pending := ((t.take x).takeAll l).pending }
    rw [ih (t.take x)]
    rfl

theorem pending_takeAll_deliverables (t : SigTask) :
    (t.takeAll t.deliverables).pending = t.pending &&& ~~~t.deliverable := by
  refine BitVec.eq_of_getLsbD_eq fun i hi => ?_
  rw [getLsbD_takeAll fun x hx => (mem_deliverables.mp hx).1, BitVec.getLsbD_and, BitVec.getLsbD_not]
  have hmem : i + 1 ∈ t.deliverables ↔ t.deliverable.getLsbD i = true := by
    rw [mem_deliverables]
    exact ⟨fun h => h.2.2, fun h => ⟨by omega, by omega, h⟩⟩
  simp [hi, hmem]

theorem deliverable_done (t : SigTask) : (t.takeAll t.deliverables).restoreMask.deliverable = t.leftover := by
  have hp := pending_takeAll_deliverables t
  rw [takeAll_eq, hp, restoreMask, leftover]
  dsimp only
  split
  · simp only [deliverable, BitVec.and_assoc, BitVec.and_self]
  refine BitVec.eq_of_getLsbD_eq fun i hi => ?_
  simp only [deliverable, BitVec.getLsbD_and, BitVec.getLsbD_not, hi, decide_true, Bool.true_and]
  cases t.pending.getLsbD i <;> cases t.blocked.getLsbD i <;> cases uncatchable.getLsbD i <;> simp

theorem next_iff (a : Arch) (t : SigTask) : (∃ sig, t.nextSignalOn a = some sig ∧ Lowest t.deliverable sig) ↔
    t.deliverables = [] ∨ ∃ x ∈ t.deliverables, x ≤ a.bitsPerLong := by
  cases hd : t.deliverables with
  | nil =>
    have h0 := deliverables_eq_nil_iff.mp hd
    refine iff_of_true ⟨0, ?_, .inl ⟨rfl, h0⟩⟩ (.inl rfl)
    rw [nextSignalOn, if_pos h0]
  | cons sig rest =>
    have hmem := mem_deliverables.mp (hd ▸ List.mem_cons_self ..)
    rw [nextSignalOn_cons hd]
    by_cases hle : sig ≤ a.bitsPerLong
    · rw [if_pos hle]
      exact iff_of_true ⟨sig, rfl, .inr ⟨hmem.1, hmem.2.2, low_of_cons hd⟩⟩
        (.inr ⟨sig, List.mem_cons_self .., hle⟩)
    rw [if_neg hle]
    refine iff_of_false (by simp) ?_
    rintro (hnil | ⟨x, hx, hxle⟩)
    · cases hnil
    · rcases List.mem_cons.mp hx with rfl | hx
      · exact hle hxle
      · have := (List.pairwise_cons.mp (hd ▸ t.pairwise_deliverables)).1 x hx
        omega

def Scanned (a : Arch) (t : SigTask) : Prop :=
  (∀ x ∈ t.deliverables, x ≤ a.bitsPerLong) ∨ ∃ x ∈ t.deliverables, x ≤ a.bitsPerLong ∧ t.passes x = false

theorem Ends.undefined_iff (h : Ends a t r) : r.2.task = none ↔ ¬ Scanned a t := by
  cases h with
  | done hall => exact iff_of_false (by simp [Verdict.task]) fun hn => hn (.inl fun x hx => (hall x hx).1)
  | @undefined l x rest hl hpass hx =>
    refine iff_of_true rfl ?_
    have hsort := hl ▸ t.pairwise_deliverables
    rintro (hall | ⟨y, hy, hyle, hyp⟩)
    · have := hall x (by simp [hl])
      omega
    · rw [hl] at hy
      rcases List.mem_append.mp hy with hy | hy
      · rw [hpass y hy] at hyp
        cases hyp
      rcases List.mem_cons.mp hy with rfl | hy
      · omega
      · have := (List.pairwise_cons.mp (List.pairwise_append.mp hsort).2.1).1 y hy
        omega
  | @signal l x rest v hl hx hp hv =>
    refine iff_of_false ?_ fun hn => hn (.inr ⟨x, by simp [hl], hx, hp⟩)
    rcases hv with rfl | rfl <;> simp [Verdict.task]

theorem Ends.taken {t' : SigTask} (h : Ends a t r) (ht : r.2.task = some t') :
    (∀ x ∈ r.1, x ∈ t.deliverables) ∧ ∀ i,
      t'.pending.getLsbD i = (t.pending.getLsbD i && !decide (i + 1 ∈ r.1)) := by
  have hbits (l : List Nat) (hl : ∀ x ∈ l, x ∈ t.deliverables) (i : Nat) :
      (t.takeAll l).pending.getLsbD i = (t.pending.getLsbD i && !decide (i + 1 ∈ l)) :=
    getLsbD_takeAll (fun x hx => (mem_deliverables.mp (hl x hx)).1) i
  cases h with
  | done hall =>
    refine ⟨fun x hx => hx, fun i => ?_⟩
    cases ht
    rw [← hbits _ fun x hx => hx, restoreMask]
    split <;> rfl
  | undefined hl hpass hx => cases ht
  | @signal l x rest v hl hx hp hv =>
    have hsub : ∀ y ∈ l ++ [x], y ∈ t.deliverables := by
      intro y hy
      rw [hl]
      simp only [List.mem_append, List.mem_cons, List.not_mem_nil, or_false] at hy ⊢
      tauto
    refine ⟨hsub, fun i => ?_⟩
    rcases hv with rfl | rfl <;> cases ht <;> exact hbits _ hsub i

/-- On every architecture a delivery selects and consumes signals as it should exactly if the scan sees the lowest
signal at every turn and, where no signal ends the delivery, the mask put back at the end lets none through. -/
theorem delivers_iff (a : Arch) (room : Bool) (t : SigTask) :
    Delivers a room t ↔ (t.deliverables = [] ∨ ∃ x ∈ t.deliverables, x ≤ a.bitsPerLong) ∧
      (t.groupExit = true ∨ (Scanned a t ∧ ((∃ x ∈ t.deliverables, t.passes x = false) ∨ t.leftover = 0))) := by
  rw [← next_iff]
  obtain ⟨r, hr, hends⟩ := deliverLoop_ends a room t (Nat.lt_succ_of_le (length_deliverables_le t))
  constructor
  · intro h
    refine ⟨h.next, ?_⟩
    by_cases hg : t.groupExit = true
    · exact .inl hg
    obtain ⟨l, v, t', hd, ht', hdone, -, -⟩ := h.ends
    rw [deliver, if_neg hg, hr] at hd
    cases hd
    refine .inr ⟨by_contra fun hn => ?_, ?_⟩
    · rw [hends.undefined_iff.mpr hn] at ht'
      cases ht'
    cases hends with
    | done hall => exact .inr (deliverable_done t ▸ hdone _ rfl)
    | undefined hl hpass hx => cases ht'
    | @signal l x rest v hl hx hp hv => exact .inl ⟨x, by simp [hl], hp⟩
  · rintro ⟨hnext, hc⟩
    refine ⟨hnext, ?_⟩
    by_cases hg : t.groupExit = true
    · exact ⟨[], .exits t, t, by rw [deliver, if_pos hg], rfl, by simp, by simp, by simp⟩
    rcases hc with hc | ⟨hscan, hmask⟩
    · exact absurd hc hg
    obtain ⟨t', ht'⟩ : ∃ t', r.2.task = some t' :=
      Option.ne_none_iff_exists'.mp fun hn => hends.undefined_iff.mp hn hscan
    refine ⟨r.1, r.2, t', by rw [deliver, if_neg hg, hr], ht', fun u hu => ?_, hends.taken ht'⟩
    cases hends with
    | done hall =>
      cases hu
      rw [deliverable_done]
      refine hmask.resolve_left ?_
      rintro ⟨x, hx, hp⟩
      rw [(hall x hx).2] at hp
      cases hp
    | undefined hl hpass hx => cases hu
    | signal hl hx hp hv => rcases hv with rfl | rfl <;> cases hu

def suspendAndAlarm : List Event :=
  [.sigaction 14 { handler := .ign }, .wait true (some (sigBit 10)), .cancel 10, .post 10, .mark 14,
    .waitEnd true, .save]

/-- On the machine with 32-bit longs a task with signal 34 pending has no next signal that is defined; and a
task that comes back from a wait with a temporary mask is left with a signal that the mask before the wait lets
through. -/
theorem deliver_misses :
    (run step {} [.cancel 34, .post 34, .call]).nextSignalOn .powerpc = none ∧
      let t := run step {} suspendAndAlarm
      (t.phase, t.signalPending) = (.returning (some 0), true) ∧
        (t.deliver .x86_64 true).map (fun r => (r.1, r.2.task.map deliverable)) =
          some ([14], some (sigBit 10)) := by
  decide +kernel

end SigTask

end Sic.SigMask
