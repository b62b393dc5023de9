import Sic.Net.Arp

/-! Runs of the ARP cache: one live entry for an address, every packet accounted for, and how long one can wait. A
request that the timer repeats starts the wait for an answer again. -/

namespace Sic.Arp

def waits (x : Nat) (e : ArpEntry) : Nat := if e.pending = some x then 1 else 0

namespace State

def OneEach (s : State) : Prop :=
  ∀ j k, (s.cache j).used = true → (s.cache k).used = true → (s.cache j).dev = (s.cache k).dev →
    (s.cache j).ip = (s.cache k).ip → j = k

def parked (s : State) (x : Nat) : Nat := ∑ k, waits x (s.cache k)

def ended (s : State) (x : Nat) : Nat := (s.log.map Prod.fst).count x

def Keeps (x : Nat) (s s' : State) : Prop :=
  ∀ k, (s'.cache k).pending = some x →
    (s.cache k).pending = some x ∧ (s'.cache k).lastRequest = (s.cache k).lastRequest

theorem Keeps.refl (x : Nat) (s : State) : Keeps x s s := fun _ h => ⟨h, rfl⟩

theorem Keeps.trans {x : Nat} {s s' s'' : State} (h : Keeps x s s') (h' : Keeps x s' s'') : Keeps x s s'' := by
  intro k hk
  obtain ⟨hpend, hlast⟩ := h' k hk
  exact ⟨(h k hpend).1, hlast.trans (h k hpend).2⟩

end State

open State

variable {s : State} {k : Slot} {e : ArpEntry} {l : List (Nat × Fate)} {x : Nat}

/-! ### One entry changes -/

theorem edit_self : (s.edit k e l).cache k = e := Function.update_self ..

theorem edit_ne {j : Slot} (h : j ≠ k) : (s.edit k e l).cache j = s.cache j := Function.update_of_ne h ..

theorem edit_keeps (h : e.pending = some x → (s.cache k).pending = some x ∧
    e.lastRequest = (s.cache k).lastRequest) :
    Keeps x s (s.edit k e l) := by
  intro j hj
  by_cases hjk : j = k
  · subst hjk
    rw [edit_self] at hj ⊢
    exact h hj
  · rw [edit_ne hjk] at hj ⊢
    exact ⟨hj, rfl⟩

theorem edit_unique (hs : s.OneEach)
    (h : e.used = true → ∀ j, j ≠ k → (s.cache j).used = true → (s.cache j).dev = e.dev → (s.cache j).ip = e.ip →
      False) :
    (s.edit k e l).OneEach := by
  intro i j hi hj hdev hip
  by_cases hik : i = k <;> by_cases hjk : j = k
  · exact hik.trans hjk.symm
  · subst hik
    rw [edit_self] at hi hdev hip
    rw [edit_ne hjk] at hj hdev hip
    exact (h hi j hjk hj hdev.symm hip.symm).elim
  · subst hjk
    rw [edit_self] at hj hdev hip
    rw [edit_ne hik] at hi hdev hip
    exact (h hj i hik hi hdev hip).elim
  · rw [edit_ne hik] at hi hdev hip
    rw [edit_ne hjk] at hj hdev hip
    exact hs i j hi hj hdev hip

theorem count_ends (x : Nat) (e : ArpEntry) (f : Fate) : ((e.ends f).map Prod.fst).count x = waits x e := by
  rw [ArpEntry.ends, waits]
  cases e.pending with
  | none => rfl
  | some y =>
    by_cases h : y = x
    · subst h
      simp
    · simp [h]

theorem edit_account {n : Nat} (h : waits x e + (l.map Prod.fst).count x = waits x (s.cache k) + n) :
    (s.edit k e l).parked x + (s.edit k e l).ended x = s.parked x + s.ended x + n := by
  have hsum := sum_update (Finset.mem_univ k) (fun j => waits x (s.cache j)) (waits x e)
  have hfun : (fun j => waits x ((s.edit k e l).cache j)) =
      Function.update (fun j => waits x (s.cache j)) k (waits x e) := by
    funext j
    by_cases hj : j = k
    · subst hj
      rw [edit_self, Function.update_self]
    · rw [edit_ne hj, Function.update_of_ne hj]
  have hparked : (s.edit k e l).parked x + waits x (s.cache k) = s.parked x + waits x e := by
    rw [parked, hfun]
    exact hsum
  have hended : (s.edit k e l).ended x = s.ended x + (l.map Prod.fst).count x := by
    rw [ended, edit, List.map_append, List.count_append, ended]
  omega

theorem note_account (s : State) (x y : Nat) (f : Fate) :
    (s.note [(y, f)]).parked x + (s.note [(y, f)]).ended x = s.parked x + s.ended x + [y].count x := by
  have hended : (s.note [(y, f)]).ended x = s.ended x + [y].count x := by
    rw [ended, note, List.map_append, List.count_append, ended]
    rfl
  rw [hended, ← Nat.add_assoc, parked, parked, note]

/-! ### The slot for an address -/

variable {d : Nat} {ip : U32} {s' : State} {t T : U64} {es : List Event}

theorem arpFind_some (h : arpFind s d ip = some k) :
    (s.cache k).dev = some d ∧ (s.cache k).ip = ip ∧ (s.cache k).used = true := by
  have hk := List.find?_some h
  simp only [Bool.and_eq_true, beq_iff_eq, and_assoc] at hk
  exact hk

theorem arpFind_none (h : arpFind s d ip = none) (j : Slot) (hj : (s.cache j).used = true)
    (hdev : (s.cache j).dev = some d) (hip : (s.cache j).ip = ip) : False := by
  have hnone := List.find?_eq_none.mp h j (List.mem_finRange j)
  rw [hj, hdev, hip] at hnone
  simp at hnone

structure Slotted (s : State) (d : Nat) (addr : U32) (r : State × Slot) : Prop where
  dev : (r.1.cache r.2).dev = some d
  ip : (r.1.cache r.2).ip = addr
  unique : s.OneEach → r.1.OneEach
  only : s.OneEach → ∀ j, j ≠ r.2 → (r.1.cache j).used = true → (r.1.cache j).dev = some d →
    (r.1.cache j).ip = addr → False
  account : ∀ x, r.1.parked x + r.1.ended x = s.parked x + s.ended x
  keeps : ∀ x, Keeps x s r.1

theorem arpSlot_slotted (s : State) (d : Nat) (ip : U32) : Slotted s d ip (arpSlot s d ip) := by
  rw [arpSlot]
  cases hfind : arpFind s d ip with
  | some k =>
    obtain ⟨hdev, hip, hused⟩ := arpFind_some hfind
    exact {
      dev := hdev
      ip := hip
      unique := fun hs => hs
      only := fun hs j hj hu hd hi => hj (hs j k hu hused (hd.trans hdev.symm) (hi.trans hip.symm))
      account := fun _ => rfl
      keeps := fun x => .refl x s }
  | none =>
    dsimp only
    generalize oldestLoop s.cache (List.finRange arpEntries) firstSlot = k
    have hnone := arpFind_none hfind
    exact {
      dev := by rw [edit_self]
      ip := by rw [edit_self]
      unique := fun hs => edit_unique hs fun _ j _ hu hd hi => hnone j hu hd hi
      only := fun hs j hj hu hd hi => by
        rw [edit_ne hj] at hu hd hi
        exact hnone j hu hd hi
      account := fun x => (edit_account (n := 0) (by rw [count_ends, Nat.add_zero]; exact Nat.zero_add _)).trans
        (Nat.add_zero _)
      keeps := fun x => edit_keeps fun hx => absurd hx (Option.some_ne_none x).symm }

theorem Slotted.edit_unique {r : State × Slot} (h : Slotted s d ip r) (hs : s.OneEach)
    (hdev : e.dev = (r.1.cache r.2).dev) (hip : e.ip = (r.1.cache r.2).ip) : (r.1.edit r.2 e l).OneEach :=
  Arp.edit_unique (h.unique hs) fun _ j hj hu hd hi =>
    h.only hs j hj hu (hd.trans (hdev.trans h.dev)) (hi.trans (hip.trans h.ip))

/-! ### The calls -/

structure Call (s s' : State) (given : List Nat) : Prop where
  unique : s.OneEach → s'.OneEach
  account : ∀ x, s'.parked x + s'.ended x = s.parked x + s.ended x + given.count x
  keeps : ∀ x, x ∉ given → Keeps x s s'

theorem same_call {s : State} (hcache : s'.cache = s.cache) (hlog : s'.log = s.log) : Call s s' [] where
  unique := fun hs => by rwa [OneEach, hcache]
  account := fun x => by rw [parked, ended, hcache, hlog, List.count_nil, Nat.add_zero, parked, ended]
  keeps := fun x _ => by
    rw [Keeps, hcache]
    exact fun _ hk => ⟨hk, rfl⟩

theorem note_call (s : State) (x : Nat) : Call s (s.note [(x, .sent)]) [x] where
  unique := fun hs => hs
  account := fun y => note_account s y x .sent
  keeps := fun y _ => .refl y s

theorem arpOutput_call (s : State) (now : U64) (d : Nat) (nexthop : U32) (x : Nat) :
    Call s (arpOutput s now d nexthop x) [x] := by
  rw [arpOutput]
  split
  · exact note_call s x
  have hslot := arpSlot_slotted s d nexthop
  generalize arpSlot s d nexthop = r at hslot ⊢
  obtain ⟨t, k⟩ := r
  dsimp only at hslot ⊢
  split
  · have hnote := note_call t x
    exact ⟨fun hs => hslot.unique hs, fun y => (hnote.account y).trans (by rw [hslot.account]),
      fun y _ => hslot.keeps y⟩
  refine ⟨fun hs => hslot.edit_unique hs rfl rfl, fun y => ?_, fun y hy => (hslot.keeps y).trans (edit_keeps ?_)⟩
  · rw [edit_account (n := [x].count y), hslot.account]
    rw [count_ends, Nat.add_comm]
    congr 1
    by_cases hxy : x = y
    · subst hxy
      simp [waits]
    · simp [waits, hxy]
  · intro hx
    exact absurd (Option.some.inj hx).symm fun h => hy (h ▸ List.mem_singleton_self _)

theorem arpLearn_call (s : State) (now : U64) (d : Nat) (ip : U32) (mac : BitVec 48) :
    Call s (arpLearn s now d ip mac) [] := by
  rw [arpLearn]
  have hslot := arpSlot_slotted s d ip
  generalize arpSlot s d ip = r at hslot ⊢
  obtain ⟨t, k⟩ := r
  dsimp only at hslot ⊢
  refine ⟨fun hs => hslot.edit_unique hs rfl rfl, fun y => ?_, fun y _ => (hslot.keeps y).trans (edit_keeps ?_)⟩
  · rw [edit_account (n := 0), hslot.account]
    · rfl
    · rw [count_ends, Nat.add_zero]
      exact Nat.zero_add _
  · intro hx
    cases hx

theorem step_call (s : State) {ev : Event} (h : ev.tick = none) : Call s (step s ev) ev.handed.toList := by
  cases ev with
  | config d ip mask => exact same_call rfl rfl
  | output now d nexthop x => exact arpOutput_call s now d nexthop x
  | rx now d a =>
    simp only [step, arpRx]
    split
    · exact same_call rfl rfl
    split
    · exact arpLearn_call s now d a.spa a.sha
    · exact same_call rfl rfl
  | timer now => cases h

/-! ### The timer -/

theorem tick_key (now : U64) (e : ArpEntry) :
    (e.tick now).dev = e.dev ∧ (e.tick now).ip = e.ip ∧ ((e.tick now).used = true → e.used = true) := by
  have hfirst : let e' := if e.valid ∧ arpTtlMs < now - e.updated then { e with valid := false } else e
      e'.dev = e.dev ∧ e'.ip = e.ip ∧ (e'.used = true → e.used = true) := by
    dsimp only
    split
    · refine ⟨rfl, rfl, fun hu => ?_⟩
      rw [ArpEntry.used] at hu ⊢
      rw [Bool.false_or] at hu
      rw [hu, Bool.or_true]
    · exact ⟨rfl, rfl, id⟩
  rw [ArpEntry.tick]
  generalize (if e.valid ∧ arpTtlMs < now - e.updated then { e with valid := false } else e) = e' at hfirst ⊢
  obtain ⟨hdev, hip, hused⟩ := hfirst
  split
  · refine ⟨hdev, hip, fun hu => hused ?_⟩
    rw [ArpEntry.used] at hu ⊢
    rw [Option.isSome_none, Bool.or_false] at hu
    rw [hu, Bool.true_or]
  split
  · exact ⟨hdev, hip, fun hu => hused hu⟩
  · exact ⟨hdev, hip, hused⟩

theorem tick_pending (now : U64) (e : ArpEntry) :
    ((e.tick now).pending = if 5 * arpRetryMs < now - e.lastRequest then none else e.pending) ∧
      (e.tick now).lastRequest = if e.pending.isSome ∧ ¬ 5 * arpRetryMs < now - e.lastRequest ∧
        arpRetryMs ≤ now - e.lastRequest then now else e.lastRequest := by
  have hfirst : let e' := if e.valid ∧ arpTtlMs < now - e.updated then { e with valid := false } else e
      e'.pending = e.pending ∧ e'.lastRequest = e.lastRequest := by
    dsimp only
    split <;> exact ⟨rfl, rfl⟩
  rw [ArpEntry.tick]
  generalize (if e.valid ∧ arpTtlMs < now - e.updated then { e with valid := false } else e) = e' at hfirst ⊢
  obtain ⟨hpend, hlast⟩ := hfirst
  rw [hpend, hlast]
  generalize 5 * arpRetryMs = giveUp
  by_cases hsome : e.pending.isSome = true
  · by_cases hdrop : giveUp < now - e.lastRequest
    · simp [hsome, hdrop]
    · by_cases hretry : arpRetryMs ≤ now - e.lastRequest
      · simp [hsome, hdrop, hretry]
      · simp [hsome, hdrop, hretry, hpend, hlast]
  · have hnone : e.pending = none := by simpa using hsome
    simp [hnone, hpend, hlast]

theorem arpTimerEntry_account (now : U64) (s : State) (k : Slot) (x : Nat) :
    (arpTimerEntry now s k).parked x + (arpTimerEntry now s k).ended x = s.parked x + s.ended x := by
  refine (edit_account (n := 0) ?_).trans (Nat.add_zero _)
  rw [waits, (tick_pending now (s.cache k)).1]
  split
  · rw [count_ends, if_neg (Option.some_ne_none x).symm, Nat.zero_add, Nat.add_zero]
  · rfl

theorem arpTimerEntry_unique (now : U64) {s : State} (k : Slot) (hs : s.OneEach) :
    (arpTimerEntry now s k).OneEach := by
  obtain ⟨hdev, hip, hused⟩ := tick_key now (s.cache k)
  exact edit_unique hs fun hu j hj huj hd hi => hj (hs j k huj (hused hu) (hd.trans hdev) (hi.trans hip))

theorem arpTimer_unique (now : U64) (hs : s.OneEach) : (arpTimer s now).OneEach :=
  invariant_foldl (fun _ k ht => arpTimerEntry_unique now k ht) _ hs

theorem arpTimer_account (now : U64) (s : State) (x : Nat) :
    (arpTimer s now).parked x + (arpTimer s now).ended x = s.parked x + s.ended x :=
  invariant_foldl (P := fun t : State => t.parked x + t.ended x = s.parked x + s.ended x)
    (fun t k ht => (arpTimerEntry_account now t k x).trans ht) (List.finRange arpEntries) (Eq.refl _)

theorem arpTimer_cache (s : State) (now : U64) (k : Slot) : (arpTimer s now).cache k = (s.cache k).tick now := by
  have hloop (ks : List Slot) (hnd : ks.Nodup) (t : State) : (ks.foldl (arpTimerEntry now) t).cache k =
      if k ∈ ks then (t.cache k).tick now else t.cache k := by
    induction ks generalizing t with
    | nil => rfl
    | cons j ks ih =>
      obtain ⟨hj, hnd⟩ := List.nodup_cons.mp hnd
      rw [List.foldl_cons, ih hnd]
      by_cases hkj : k = j
      · subst hkj
        rw [if_neg hj, if_pos (List.mem_cons_self ..)]
        exact edit_self
      · rw [show (arpTimerEntry now t j).cache k = t.cache k from edit_ne hkj]
        simp [hkj]
  rw [arpTimer, hloop _ (List.nodup_finRange _), if_pos (List.mem_finRange k)]

/-! ### Runs -/

theorem step_oneEach {ev : Event} (hs : s.OneEach) : (step s ev).OneEach := by
  cases htick : ev.tick with
  | none => exact (step_call s htick).unique hs
  | some now =>
    cases ev with
    | timer t => exact arpTimer_unique t hs
    | _ => cases htick

theorem boot_oneEach : boot.OneEach := fun _ _ h _ _ _ => absurd h Bool.false_ne_true

theorem run_oneEach (es : List Event) : (run step boot es).OneEach :=
  invariant_foldl (fun _ _ hs => step_oneEach hs) es boot_oneEach

theorem step_account (s : State) (ev : Event) (x : Nat) :
    (step s ev).parked x + (step s ev).ended x = s.parked x + s.ended x + ev.handed.toList.count x := by
  cases htick : ev.tick with
  | none => exact (step_call s htick).account x
  | some now =>
    cases ev with
    | timer t => exact (arpTimer_account t s x).trans (Nat.add_zero _).symm
    | _ => cases htick

theorem handed_cons (ev : Event) (es : List Event) : handed (ev :: es) = ev.handed.toList ++ handed es := by
  rw [handed, List.filterMap_cons]
  cases ev.handed <;> rfl

theorem run_account_from (s : State) (es : List Event) (x : Nat) :
    (run step s es).parked x + (run step s es).ended x = s.parked x + s.ended x + (handed es).count x := by
  induction es generalizing s with
  | nil => exact (Nat.add_zero _).symm
  | cons ev es ih =>
    rw [handed_cons, List.count_append, ← Nat.add_assoc, ← step_account]
    exact ih (step s ev)

theorem run_account (es : List Event) (x : Nat) :
    (run step boot es).parked x + (run step boot es).ended x = (handed es).count x := by
  have hboot : boot.parked x + boot.ended x = 0 := by
    have hnone (k : Slot) : waits x (boot.cache k) = 0 := if_neg (Option.some_ne_none x).symm
    rw [parked, Finset.sum_eq_zero fun k _ => hnone k]
    rfl
  rw [run_account_from, hboot, Nat.zero_add]

/-! ### How long a packet waits -/

def Gone (x : Nat) (s : State) : Prop := ∀ k, (s.cache k).pending ≠ some x

def Recent (x : Nat) (t : U64) (s : State) : Prop :=
  ∀ k, (s.cache k).pending = some x → t - (s.cache k).lastRequest < arpRetryMs

theorem Keeps.gone (h : Keeps x s s') (hs : Gone x s) : Gone x s' := fun k hk => hs k (h k hk).1

theorem Keeps.recent (h : Keeps x s s') (hs : Recent x t s) : Recent x t s' := by
  intro k hk
  rw [(h k hk).2]
  exact hs k (h k hk).1

theorem arpTimer_gone (hs : Gone x s) (now : U64) : Gone x (arpTimer s now) := by
  intro k hk
  rw [arpTimer_cache, (tick_pending now _).1] at hk
  split at hk
  · cases hk
  · exact hs k hk

theorem arpTimer_recent (s : State) (x : Nat) (now : U64) : Recent x now (arpTimer s now) := by
  intro k hk
  rw [arpTimer_cache] at hk ⊢
  rw [(tick_pending now _).1] at hk
  rw [(tick_pending now _).2]
  split at hk
  · cases hk
  next hdrop =>
  split
  · rw [BitVec.sub_self]
    decide
  next hretry =>
  rw [hk] at hretry
  exact BitVec.not_le.mp fun hle => hretry ⟨rfl, hdrop, hle⟩

theorem Recent.gone (hs : Recent x t s) (hlow : 5000 < T.toNat) (hhigh : T.toNat < 2 ^ 63) :
    Gone x (arpTimer s (t + T)) := by
  intro k hk
  rw [arpTimer_cache, (tick_pending _ _).1] at hk
  split at hk
  · cases hk
  next hdrop =>
  have hrecent := hs k hk
  refine hdrop ?_
  generalize (s.cache k).lastRequest = last at hrecent ⊢
  rw [arpRetryMs] at *
  bv_omega

def Every (T : U64) (ts : List U64) : Prop := ts.IsChain fun a b => b = a + T

theorem run_gone (hs : Gone x s) (hx : x ∉ handed es) : Gone x (run step s es) := by
  induction es generalizing s with
  | nil => exact hs
  | cons ev es ih =>
    rw [handed_cons, List.mem_append, not_or] at hx
    refine ih ?_ hx.2
    cases htick : ev.tick with
    | none => exact Keeps.gone ((step_call s htick).keeps x hx.1) hs
    | some now =>
      cases ev with
      | timer t => exact arpTimer_gone hs t
      | _ => cases htick

theorem ticks_cons (ev : Event) (es : List Event) : ticks (ev :: es) = ev.tick.toList ++ ticks es := by
  rw [ticks, List.filterMap_cons]
  cases ev.tick <;> rfl

theorem run_recent_gone (hs : Recent x t s) (hlow : 5000 < T.toNat) (hhigh : T.toNat < 2 ^ 63)
    (hx : x ∉ handed es) (hevery : Every T (t :: ticks es)) (hn : 1 ≤ (ticks es).length) :
    Gone x (run step s es) := by
  induction es generalizing s with
  | nil => exact absurd hn (by decide)
  | cons ev es ih =>
    rw [handed_cons, List.mem_append, not_or] at hx
    rw [ticks_cons] at hevery hn
    cases htick : ev.tick with
    | none =>
      rw [htick] at hevery hn
      exact ih (Keeps.recent ((step_call s htick).keeps x hx.1) hs) hx.2 hevery hn
    | some now =>
      cases ev with
      | timer t' =>
        have hnow : t' = t + T := (List.isChain_cons_cons.mp hevery).1
        subst hnow
        change Gone x (run step (arpTimer s (t + T)) es)
        exact run_gone (hs.gone hlow hhigh) hx.2
      | _ => cases htick

theorem run_two_gone (s : State) (hlow : 5000 < T.toNat) (hhigh : T.toNat < 2 ^ 63)
    (hx : x ∉ handed es) (hevery : Every T (ticks es)) (hn : 2 ≤ (ticks es).length) : Gone x (run step s es) := by
  induction es generalizing s with
  | nil => exact absurd hn (by decide)
  | cons ev es ih =>
    rw [handed_cons, List.mem_append, not_or] at hx
    rw [ticks_cons] at hevery hn
    cases htick : ev.tick with
    | none =>
      rw [htick] at hevery hn
      exact ih (step s ev) hx.2 hevery hn
    | some now =>
      cases ev with
      | timer t =>
        change Gone x (run step (arpTimer s t) es)
        exact run_recent_gone (arpTimer_recent s x t) hlow hhigh hx.2 hevery (Nat.le_of_succ_le_succ hn)
      | _ => cases htick

def Bounded (T : U64) : Prop :=
  ∃ n, ∀ es es' x, Every T (ticks (es ++ es')) → x ∉ handed es' → n ≤ (ticks es').length →
    Gone x (run step boot (es ++ es'))

theorem bounded_of_lt (hlow : 5000 < T.toNat) (hhigh : T.toNat < 2 ^ 63) : Bounded T := by
  refine ⟨2, fun es es' x hevery hx hn => ?_⟩
  rw [ticks, List.filterMap_append] at hevery
  rw [run_append]
  exact run_two_gone _ hlow hhigh hx hevery.right_of_append hn

def timers (T : U64) : Nat → U64 → List Event
  | 0, _ => []
  | n + 1, t => .timer (t + T) :: timers T n (t + T)

theorem ticks_timers (T : U64) (n : Nat) (t : U64) :
    Every T (t :: ticks (timers T n t)) ∧ (ticks (timers T n t)).length = n ∧ handed (timers T n t) = [] := by
  induction n generalizing t with
  | zero => exact ⟨List.isChain_singleton _, rfl, rfl⟩
  | succ n ih =>
    obtain ⟨hevery, hlen, hnone⟩ := ih (t + T)
    exact ⟨List.isChain_cons_cons.mpr ⟨rfl, hevery⟩, congrArg (· + 1) hlen, hnone⟩

theorem timers_wait (hT : T.toNat ≤ 5000) (hpend : (s.cache k).pending = some x)
    (hlast : t - (s.cache k).lastRequest < arpRetryMs) (hslow : arpRetryMs ≤ T → (s.cache k).lastRequest = t)
    (n : Nat) :
    ((run step s (timers T n t)).cache k).pending = some x := by
  induction n generalizing s t with
  | zero => exact hpend
  | succ n ih =>
    have hcache : (step s (.timer (t + T))).cache k = (s.cache k).tick (t + T) := arpTimer_cache s _ k
    obtain ⟨hp, hl⟩ := tick_pending (t + T) (s.cache k)
    have hstay : ¬ 5 * arpRetryMs < t + T - (s.cache k).lastRequest := by
      by_cases hr : arpRetryMs ≤ T
      · rw [hslow hr, arpRetryMs]
        bv_omega
      generalize (s.cache k).lastRequest = last at hlast ⊢
      rw [arpRetryMs] at *
      bv_omega
    rw [if_neg hstay, hpend] at hp
    rw [hpend] at hl
    simp only [Option.isSome_some, true_and, hstay, not_false_eq_true] at hl
    refine ih (hcache ▸ hp) ?_ fun hr => ?_
    · rw [hcache, hl]
      split
      · rw [BitVec.sub_self]
        decide
      · next hretry => exact BitVec.not_le.mp hretry
    · rw [hcache, hl, if_pos]
      rw [hslow hr]
      rwa [BitVec.add_comm, BitVec.add_sub_cancel]

theorem not_bounded (hT : T.toNat ≤ 5000) : ¬ Bounded T := by
  rintro ⟨n, hbound⟩
  obtain ⟨hevery, hlen, hnone⟩ := ticks_timers T n 1000
  have hfirst : ((run step boot [.output 1000 0 1 0]).cache firstSlot).pending = some 0 ∧
      ((run step boot [.output 1000 0 1 0]).cache firstSlot).lastRequest = 1000 := by decide +kernel
  have hgone := hbound [.output 1000 0 1 0] (timers T n 1000) 0 hevery.tail
    (by rw [hnone]; exact List.not_mem_nil)
    hlen.ge firstSlot
  rw [run_append] at hgone
  refine hgone (timers_wait hT hfirst.1 ?_ (fun _ => hfirst.2) n)
  rw [hfirst.2]
  decide

/-- In every run the live entries are for different addresses and every packet either waits or has met one fate,
as often as it was handed over; and a packet waits for a bounded number of timer calls exactly if these are more
than five seconds apart. -/
theorem arp_cache_iff (T : U64) (hT : T.toNat < 2 ^ 63) :
    ((∀ es, (run step boot es).OneEach) ∧
      (∀ es x, (run step boot es).parked x + (run step boot es).ended x = (handed es).count x) ∧ Bounded T) ↔
    5000 < T.toNat := by
  constructor
  · rintro ⟨-, -, hbound⟩
    by_contra hle
    exact not_bounded (Nat.le_of_not_lt hle) hbound
  · exact fun hlow => ⟨run_oneEach, run_account, bounded_of_lt hlow hT⟩

theorem arp_cache_iff_minute :
    (60000 : U64).toNat < 2 ^ 63 ∧ ∀ es, (run step boot es).OneEach :=
  ⟨by decide, ((arp_cache_iff 60000 (by decide)).mpr (by decide)).1⟩

/-- With a timer call every 20 milliseconds, as the receive thread makes them, a packet can wait for ever. -/
theorem unanswered_packet_waits : ¬ Bounded 20 := not_bounded (by decide)

end Sic.Arp
