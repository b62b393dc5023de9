import Sic.Lib.Run
import Sic.Lib.Word

/-! `flock(2)` on one vnode: `sys_flock`, `flock_drop` and the last close of an open
file. A thread inside `sys_flock` keeps a pointer to the open file, and no reference. -/

namespace Sic.Flock

inductive LockMode where
  | un
  | sh
  | ex
deriving DecidableEq, Repr

structure File where
  refs : Nat
  mode : LockMode := .un
deriving DecidableEq, Repr

inductive Call where
  | flock (f : Nat) (op : LockMode) (nb : Bool)
  | closing (f : Nat)
deriving DecidableEq, Repr

structure Vnode where
  files : List File := []
  ex : Option Nat := none
  sh : U32 := 0
  calls : Nat → Option Call := fun _ => none

namespace Vnode

def mode (n : Vnode) (f : Nat) : LockMode := ((n.files[f]?).map File.mode).getD .un

def refs (n : Vnode) (f : Nat) : Nat := ((n.files[f]?).map File.refs).getD 0

def setMode (n : Vnode) (f : Nat) (m : LockMode) : Vnode :=
  { n with files := n.files.modify f fun x => { x with mode := m } }

def setRefs (n : Vnode) (f : Nat) (r : Nat) : Vnode :=
  { n with files := n.files.modify f fun x => { x with refs := r } }

def setCall (n : Vnode) (t : Nat) (c : Option Call) : Vnode :=
  { n with calls := Function.update n.calls t c }

end Vnode

open Vnode

def flockDrop (n : Vnode) (f : Nat) : Vnode :=
  let n :=
    if n.mode f = .ex ∧ n.ex = some f then { n with ex := none }
    else if n.mode f = .sh ∧ n.sh ≠ 0 then { n with sh := n.sh - 1 }
    else n
  n.setMode f .un

def ewouldblock : Int := -11

def eintr : Int := -4

def mayLock (n : Vnode) (f : Nat) (op : LockMode) : Bool :=
  (n.ex == none || n.ex == some f) && (op == .sh || n.sh == if n.mode f = .sh then 1 else 0)

def takeLock (n : Vnode) (f : Nat) (op : LockMode) : Vnode :=
  let n :=
    match n.mode f with
    | .sh => { n with sh := n.sh - 1 }
    | .ex => { n with ex := none }
    | .un => n
  let n := if op = .sh then { n with sh := n.sh + 1 } else { n with ex := some f }
  n.setMode f op

def sysFlock (n : Vnode) (f : Nat) (op : LockMode) (nb signal : Bool) : Vnode × Option Int :=
  if op = .un then (if n.mode f ≠ .un then flockDrop n f else n, some 0)
  else if mayLock n f op then (takeLock n f op, some 0)
  else if nb then (n, some ewouldblock)
  else if signal then (n, some eintr)
  else (n, none)

/-- `dup` is any new descriptor for an open file: `dup`, `fcntl`, a forked table. -/
inductive Event where
  | open
  | dup (f : Nat)
  | close (t f : Nat)
  | flock (t f : Nat) (op : LockMode) (nb : Bool)
  | turn (t : Nat) (signal : Bool)
deriving DecidableEq, Repr

def step (n : Vnode) : Event → Vnode
  | .open => { n with files := n.files ++ [{ refs := 1 }] }
  | .dup f => if n.refs f = 0 then n else n.setRefs f (n.refs f + 1)
  | .close t f =>
    if n.refs f = 0 ∨ n.calls t ≠ none then n
    else if n.refs f = 1 then (n.setRefs f 0).setCall t (some (.closing f))
    else n.setRefs f (n.refs f - 1)
  | .flock t f op nb =>
    if n.refs f = 0 ∨ n.calls t ≠ none then n else n.setCall t (some (.flock f op nb))
  | .turn t signal =>
    match n.calls t with
    | none => n
    | some (.closing f) => (if n.mode f ≠ .un then flockDrop n f else n).setCall t none
    | some (.flock f op nb) =>
      match sysFlock n f op nb signal with
      | (n, some _) => n.setCall t none
      | (n, none) => n

/-! ### The lock table -/

def Vnode.shared (n : Vnode) : Nat := n.files.countP fun x => x.mode = .sh

/-- The vnode's fields agree with the modes of the open files: one holds the lock
exclusively and no other holds it, or any number hold it shared. -/
structure Table (n : Vnode) : Prop where
  exclusive : ∀ f g, n.mode f = .ex → n.mode g ≠ .un → f = g
  owner : ∀ f, n.ex = some f ↔ n.mode f = .ex
  count : n.sh = BitVec.ofNat 32 n.shared

section

variable {n : Vnode}

variable {f : Nat}

theorem mode_setMode (hf : f < n.files.length) (m : LockMode) (g : Nat) :
    (n.setMode f m).mode g = if g = f then m else n.mode g := by
  simp only [mode, setMode, List.getElem?_modify]
  by_cases hg : g = f
  · subst hg
    simp [List.getElem?_eq_getElem hf]
  · simp [hg, Ne.symm hg]

theorem refs_setMode (f : Nat) (m : LockMode) (g : Nat) : (n.setMode f m).refs g = n.refs g := by
  simp only [refs, setMode, List.getElem?_modify]
  cases n.files[g]? with
  | none => rfl
  | some x => by_cases hg : f = g <;> simp [hg]

theorem refs_setRefs (hf : f < n.files.length) (r g : Nat) :
    (n.setRefs f r).refs g = if g = f then r else n.refs g := by
  simp only [refs, setRefs, List.getElem?_modify]
  by_cases hg : g = f
  · subst hg
    simp [List.getElem?_eq_getElem hf]
  · simp [hg, Ne.symm hg]

theorem mode_setRefs (f r g : Nat) : (n.setRefs f r).mode g = n.mode g := by
  simp only [mode, setRefs, List.getElem?_modify]
  cases n.files[g]? with
  | none => rfl
  | some x => by_cases hg : f = g <;> simp [hg]

theorem lt_of_refs (h : n.refs f ≠ 0) : f < n.files.length := by
  by_contra hf
  rw [refs, List.getElem?_eq_none (Nat.le_of_not_lt hf)] at h
  exact h rfl

theorem lt_of_mode (h : n.mode f ≠ .un) : f < n.files.length := by
  by_contra hf
  rw [mode, List.getElem?_eq_none (Nat.le_of_not_lt hf)] at h
  exact h rfl

theorem countP_modify {α : Type} (p : α → Bool) (g : α → α) {l : List α} {i : Nat} {x : α} (h : l[i]? = some x) :
    (l.modify i g).countP p + (if p x then 1 else 0) = l.countP p + if p (g x) then 1 else 0 := by
  induction l generalizing i with
  | nil => cases h
  | cons y l ih =>
    cases i with
    | zero =>
      cases h
      simp only [List.modify_zero_cons, List.countP_cons]
      omega
    | succ i =>
      have := ih h
      simp only [List.modify_succ_cons, List.countP_cons]
      omega

theorem shared_setMode (hf : f < n.files.length) (m : LockMode) :
    (n.setMode f m).shared + (if n.mode f = .sh then 1 else 0) = n.shared + if m = .sh then 1 else 0 := by
  have hx := List.getElem?_eq_getElem hf
  have hm : n.mode f = n.files[f].mode := by
    rw [mode, hx]
    rfl
  have hc := countP_modify (fun x : File => decide (x.mode = .sh)) (fun x => { x with mode := m }) hx
  simp only [decide_eq_true_eq] at hc
  rw [hm]
  exact hc

theorem shared_setRefs (f r : Nat) : (n.setRefs f r).shared = n.shared := by
  rw [shared, shared, setRefs]
  cases hx : n.files[f]? with
  | none =>
    have hf := List.getElem?_eq_none_iff.mp hx
    rw [List.modify_eq_self hf]
  | some x =>
    have hc := countP_modify (fun x : File => decide (x.mode = .sh)) (fun x => { x with refs := r }) hx
    exact Nat.add_right_cancel hc

theorem shared_pos (h : n.mode f = .sh) : n.shared ≠ 0 := by
  have hlt := lt_of_mode (n := n) (f := f) (by rw [h]; decide)
  have hs := shared_setMode (n := n) hlt .un
  rw [if_pos h, if_neg (by decide)] at hs
  omega

theorem flockDrop_eq (h : Table n) (hn : n.shared < 2 ^ 32) (f : Nat) :
    flockDrop n f = ({ n with ex := if n.mode f = .ex then none else n.ex,
                              sh := if n.mode f = .sh then n.sh - 1 else n.sh } : Vnode).setMode f .un := by
  rw [flockDrop]
  congr 1
  cases hm : n.mode f with
  | un => simp
  | ex => simp [(h.owner f).mpr hm]
  | sh =>
    have hne : n.sh ≠ 0 := by
      have hpos := shared_pos hm
      rw [h.count]
      bv_omega
    rw [if_neg (fun hx => by cases hx.1), if_pos ⟨rfl, hne⟩]
    simp

theorem mode_flockDrop (h : Table n) (hn : n.shared < 2 ^ 32) (hf : f < n.files.length) (g : Nat) :
    (flockDrop n f).mode g = if g = f then .un else n.mode g := by
  rw [flockDrop_eq h hn]
  exact mode_setMode hf .un g

theorem shared_flockDrop (h : Table n) (hn : n.shared < 2 ^ 32) (hf : f < n.files.length) :
    (flockDrop n f).shared + (if n.mode f = .sh then 1 else 0) = n.shared := by
  have hs := shared_setMode (n := n) hf .un
  rw [if_neg (by decide : ¬ LockMode.un = .sh)] at hs
  rw [flockDrop_eq h hn]
  exact hs

theorem Table.drop (h : Table n) (hn : n.shared < 2 ^ 32) (hf : f < n.files.length) :
    Table (flockDrop n f) := by
  have hmode := mode_flockDrop h hn hf
  refine ⟨fun g k hg hk => ?_, fun g => ?_, ?_⟩
  · rw [hmode] at hg hk
    split at hg
    · cases hg
    split at hk
    · exact absurd rfl hk
    · exact h.exclusive g k hg hk
  · rw [hmode, flockDrop_eq h hn]
    change (if n.mode f = .ex then none else n.ex) = some g ↔ _
    by_cases hg : g = f
    · subst hg
      rw [if_pos rfl]
      split
      · simp
      · next hm => simpa [h.owner] using hm
    · rw [if_neg hg, ← h.owner g]
      split
      · next hm =>
        rw [(h.owner f).mpr hm]
        simp [Ne.symm hg]
      · exact Iff.rfl
  · have hs := shared_flockDrop h hn hf
    have hsh : (flockDrop n f).sh = if n.mode f = .sh then n.sh - 1 else n.sh := by
      rw [flockDrop_eq h hn]
      rfl
    rw [hsh, h.count]
    split at hs
    · next hm =>
      rw [if_pos hm]
      bv_omega
    · next hm =>
      rw [if_neg hm, show (flockDrop n f).shared = n.shared from hs]

def grant (n : Vnode) (f : Nat) (op : LockMode) : Vnode :=
  (if op = .sh then { n with sh := n.sh + 1 } else { n with ex := some f } : Vnode).setMode f op

theorem mode_grant (hf : f < n.files.length) (op : LockMode) (g : Nat) :
    (grant n f op).mode g = if g = f then op else n.mode g := by
  rw [grant]
  split <;> exact mode_setMode hf op g

theorem Table.grant_sh (h : Table n) (hf : f < n.files.length) (hm : n.mode f = .un)
    (hex : n.ex = none) : Table (grant n f .sh) := by
  have hmode := mode_grant hf .sh
  have hno (g : Nat) : n.mode g ≠ .ex := by
    intro hg
    rw [← h.owner, hex] at hg
    cases hg
  have hno' (g : Nat) : (grant n f .sh).mode g ≠ .ex := by
    rw [hmode]
    split
    · decide
    · exact hno g
  refine ⟨fun g k hg => absurd hg (hno' g), fun g => ?_, ?_⟩
  · change n.ex = some g ↔ _
    rw [hex]
    exact iff_of_false (fun hg => Option.some_ne_none g hg.symm) (hno' g)
  · have hs := shared_setMode (n := n) hf .sh
    rw [if_pos rfl, hm, if_neg (by decide)] at hs
    change n.sh + 1 = BitVec.ofNat 32 (n.setMode f .sh).shared
    rw [h.count, show (n.setMode f .sh).shared = n.shared + 1 from hs, BitVec.ofNat_add]
    rfl

theorem Table.grant_ex (h : Table n) (hf : f < n.files.length) (hm : n.mode f = .un)
    (hex : n.ex = none) (hsh : n.shared = 0) : Table (grant n f .ex) := by
  have hmode := mode_grant hf .ex
  have hun (g : Nat) : n.mode g = .un := by
    cases hg : n.mode g with
    | un => rfl
    | sh => exact absurd hsh (shared_pos hg)
    | ex =>
      rw [← h.owner, hex] at hg
      cases hg
  have hmode' (g : Nat) : (grant n f .ex).mode g = if g = f then .ex else .un := by rw [hmode, hun]
  refine ⟨fun g k hg hk => ?_, fun g => ?_, ?_⟩
  · rw [hmode'] at hg hk
    by_cases h₁ : g = f
    · by_cases h₂ : k = f
      · rw [h₁, h₂]
      · rw [if_neg h₂] at hk
        exact absurd rfl hk
    · rw [if_neg h₁] at hg
      cases hg
  · change some f = some g ↔ _
    rw [hmode']
    by_cases h₁ : g = f
    · simp [h₁]
    · simp [h₁, Ne.symm h₁]
  · have hs := shared_setMode (n := n) hf .ex
    rw [if_neg (by decide : ¬ LockMode.ex = .sh), hm, if_neg (by decide)] at hs
    change n.sh = BitVec.ofNat 32 (n.setMode f .ex).shared
    rw [h.count, show (n.setMode f .ex).shared = n.shared from hs]

theorem setMode_setMode (f : Nat) (x y : LockMode) : (n.setMode f x).setMode f y = n.setMode f y := by
  simp only [setMode, List.modify_modify_eq]
  rfl

theorem takeLock_eq (h : Table n) (hn : n.shared < 2 ^ 32) {op : LockMode} :
    takeLock n f op = grant (flockDrop n f) f op := by
  rw [flockDrop_eq h hn, takeLock, grant]
  by_cases hop : op = .sh <;> cases hm : n.mode f <;> simp only [hop, if_true, if_false] <;>
    exact (setMode_setMode _ _ _).symm

theorem takeLock_table (h : Table n) (hn : n.shared < 2 ^ 32) (hf : f < n.files.length) {op : LockMode}
    (hop : op ≠ .un) (hmay : mayLock n f op = true) : Table (takeLock n f op) := by
  simp only [mayLock, Bool.and_eq_true, Bool.or_eq_true, beq_iff_eq] at hmay
  obtain ⟨hfree, hsh⟩ := hmay
  have hdrop := h.drop hn hf
  have hlen : f < (flockDrop n f).files.length := by
    rw [flockDrop_eq h hn]
    simpa [setMode] using hf
  have hun : (flockDrop n f).mode f = .un := by rw [mode_flockDrop h hn hf, if_pos rfl]
  have hex : (flockDrop n f).ex = none := by
    rw [flockDrop_eq h hn]
    change (if n.mode f = .ex then none else n.ex) = none
    split
    · rfl
    · next hm => exact hfree.resolve_right fun he => hm ((h.owner f).mp he)
  rw [takeLock_eq h hn]
  cases op with
  | un => exact absurd rfl hop
  | sh => exact hdrop.grant_sh hlen hun hex
  | ex =>
    refine hdrop.grant_ex hlen hun hex ?_
    have hs := shared_flockDrop h hn hf
    have hcount := hsh.resolve_left (by decide)
    rw [h.count] at hcount
    split at hs
    · next hm =>
      rw [if_pos hm] at hcount
      bv_omega
    · next hm =>
      rw [if_neg hm] at hcount
      bv_omega

theorem mode_takeLock (h : Table n) (hn : n.shared < 2 ^ 32) (hf : f < n.files.length) (op : LockMode)
    (g : Nat) : (takeLock n f op).mode g = if g = f then op else n.mode g := by
  have hlen : f < (flockDrop n f).files.length := by
    rw [flockDrop_eq h hn]
    simpa [setMode] using hf
  rw [takeLock_eq h hn, mode_grant hlen, mode_flockDrop h hn hf]
  by_cases hg : g = f <;> simp [hg]

theorem refs_takeLock (f : Nat) (op : LockMode) (g : Nat) : (takeLock n f op).refs g = n.refs g := by
  rw [takeLock, refs_setMode]
  cases n.mode f <;> by_cases hop : op = .sh <;> simp only [hop, if_true, if_false] <;> rfl

theorem refs_flockDrop (f g : Nat) : (flockDrop n f).refs g = n.refs g := by
  rw [flockDrop, refs_setMode]
  split
  · rfl
  split <;> rfl

theorem calls_takeLock (f : Nat) (op : LockMode) : (takeLock n f op).calls = n.calls := by
  rw [takeLock]
  cases n.mode f <;> by_cases hop : op = .sh <;> simp only [hop, if_true, if_false] <;> rfl

theorem calls_flockDrop (f : Nat) : (flockDrop n f).calls = n.calls := by
  rw [flockDrop]
  split
  · rfl
  split <;> rfl

theorem calls_setCall (t : Nat) (c : Option Call) (u : Nat) :
    (n.setCall t c).calls u = if u = t then c else n.calls u := Function.update_apply ..

end

/-! ### Runs -/

structure LockOk (n : Vnode) : Prop extends Table n where
  /-- A closed file holds nothing once its last close is through. -/
  closed : ∀ f, n.refs f = 0 → n.mode f ≠ .un → ∃ t, n.calls t = some (.closing f)

structure Inv (n : Vnode) : Prop extends LockOk n where
  inCall : ∀ t f op nb, n.calls t = some (.flock f op nb) → n.refs f ≠ 0

/-- The last descriptor of an open file is not closed while a thread is in `sys_flock` on
it, and there are fewer than `2 ^ 32` open files in shared mode. -/
def Calm (n : Vnode) : Event → Prop
  | .close _ f => n.refs f = 1 → ∀ t op nb, n.calls t ≠ some (.flock f op nb)
  | .turn _ _ => n.shared + 1 < 2 ^ 32
  | _ => True

section

variable {n : Vnode}

variable {t f : Nat}

theorem Inv.setCall_none (h : Inv n) {c : Call} (hc : n.calls t = some c)
    (hf : ∀ f, c = .closing f → n.mode f = .un) : Inv (n.setCall t none) := by
  refine ⟨⟨⟨h.exclusive, h.owner, h.count⟩, fun g hr hm => ?_⟩, fun u g op nb hu => ?_⟩
  · obtain ⟨u, hu⟩ := h.closed g hr hm
    refine ⟨u, ?_⟩
    rw [calls_setCall, if_neg, hu]
    rintro rfl
    rw [hc] at hu
    exact hm (hf g (Option.some.inj hu))
  · rw [calls_setCall] at hu
    split at hu
    · cases hu
    · exact h.inCall u g op nb hu

theorem Inv.setCall_some (h : Inv n) {c : Call} (hc : n.calls t = none)
    (hf : ∀ f op nb, c = .flock f op nb → n.refs f ≠ 0) : Inv (n.setCall t (some c)) := by
  refine ⟨⟨⟨h.exclusive, h.owner, h.count⟩, fun g hr hm => ?_⟩, fun u g op nb hu => ?_⟩
  · obtain ⟨u, hu⟩ := h.closed g hr hm
    refine ⟨u, ?_⟩
    rw [calls_setCall, if_neg, hu]
    rintro rfl
    rw [hc] at hu
    cases hu
  · rw [calls_setCall] at hu
    split at hu
    · exact hf g op nb (Option.some.inj hu)
    · exact h.inCall u g op nb hu

theorem Table.setRefs (h : Table n) (f r : Nat) : Table (n.setRefs f r) where
  exclusive := fun g k hg hk => h.exclusive g k (by rwa [mode_setRefs] at hg) (by rwa [mode_setRefs] at hk)
  owner := fun g => by
    rw [mode_setRefs]
    exact h.owner g
  count := by
    rw [shared_setRefs]
    exact h.count

theorem Inv.setRefs (h : Inv n) {r : Nat} (hf : n.refs f ≠ 0) (hr : r ≠ 0) : Inv (n.setRefs f r) := by
  have hrefs := refs_setRefs (lt_of_refs hf) r
  refine ⟨⟨h.toTable.setRefs f r, fun g hg hm => ?_⟩, fun t g op nb hc => ?_⟩
  · rw [hrefs] at hg
    rw [mode_setRefs] at hm
    split at hg
    · exact absurd hg hr
    · exact h.closed g hg hm
  · rw [hrefs]
    split
    · exact hr
    · exact h.inCall t g op nb hc

theorem Inv.lastClose (h : Inv n) (hf : n.refs f ≠ 0) (hc : n.calls t = none)
    (hcalm : ∀ u op nb, n.calls u ≠ some (.flock f op nb)) :
    Inv ((n.setRefs f 0).setCall t (some (.closing f))) := by
  have hrefs := refs_setRefs (lt_of_refs hf) 0
  have ht := h.toTable.setRefs f 0
  refine ⟨⟨⟨ht.exclusive, ht.owner, ht.count⟩, fun g hg hm => ?_⟩, fun u g op nb hu => ?_⟩
  · by_cases hgf : g = f
    · exact ⟨t, by rw [calls_setCall, if_pos rfl, hgf]⟩
    · have hg' : n.refs g = 0 := by
        have := hrefs g
        rw [if_neg hgf] at this
        exact this.symm.trans hg
      obtain ⟨u, hu⟩ := h.closed g hg' (by rw [← mode_setRefs f 0 g]; exact hm)
      refine ⟨u, ?_⟩
      rw [calls_setCall, if_neg]
      · exact hu
      rintro rfl
      rw [hc] at hu
      cases hu
  · rw [calls_setCall] at hu
    split at hu
    · cases hu
    change (n.setRefs f 0).refs g ≠ 0
    rw [hrefs, if_neg]
    · exact h.inCall u g op nb hu
    · rintro rfl
      exact hcalm u op nb hu

theorem mode_open (g : Nat) : Vnode.mode { n with files := n.files ++ [{ refs := 1 }] } g = n.mode g := by
  simp only [mode, List.getElem?_append]
  by_cases hg : g < n.files.length
  · rw [if_pos hg]
  · rw [if_neg hg, List.getElem?_eq_none (Nat.le_of_not_lt hg)]
    cases g - n.files.length <;> rfl

theorem refs_open {g : Nat} (hg : g < n.files.length) :
    Vnode.refs { n with files := n.files ++ [{ refs := 1 }] } g = n.refs g := by
  simp only [refs, List.getElem?_append, if_pos hg]

theorem Inv.open (h : Inv n) : Inv { n with files := n.files ++ [{ refs := 1 }] } := by
  refine ⟨⟨⟨fun f g hf hg => ?_, fun f => ?_, ?_⟩, fun f hr hm => ?_⟩, fun t f op nb hc => ?_⟩
  · rw [mode_open] at hf hg
    exact h.exclusive f g hf hg
  · rw [mode_open]
    exact h.owner f
  · simp only [shared, List.countP_append]
    exact h.count
  · rw [mode_open] at hm
    rw [refs_open (lt_of_mode hm)] at hr
    exact h.closed f hr hm
  · have hr := h.inCall t f op nb hc
    rw [refs_open (lt_of_refs hr)]
    exact hr

theorem Inv.drop (h : Inv n) (hn : n.shared < 2 ^ 32) (hf : n.mode f ≠ .un) : Inv (flockDrop n f) := by
  refine ⟨⟨h.toTable.drop hn (lt_of_mode hf), fun g hr hm => ?_⟩, fun t g op nb hc => ?_⟩
  · rw [refs_flockDrop] at hr
    rw [mode_flockDrop h.toTable hn (lt_of_mode hf)] at hm
    rw [calls_flockDrop]
    split at hm
    · exact absurd rfl hm
    · exact h.closed g hr hm
  · rw [calls_flockDrop] at hc
    rw [refs_flockDrop]
    exact h.inCall t g op nb hc

theorem Inv.take (h : Inv n) (hn : n.shared < 2 ^ 32) (hf : n.refs f ≠ 0) {op : LockMode}
    (hop : op ≠ .un) (hmay : mayLock n f op = true) : Inv (takeLock n f op) := by
  refine ⟨⟨takeLock_table h.toTable hn (lt_of_refs hf) hop hmay, fun g hr hm => ?_⟩, fun t g o nb hc => ?_⟩
  · rw [refs_takeLock] at hr
    rw [mode_takeLock h.toTable hn (lt_of_refs hf)] at hm
    rw [calls_takeLock]
    split at hm
    · next hg => exact absurd (hg ▸ hr) hf
    · exact h.closed g hr hm
  · rw [calls_takeLock] at hc
    rw [refs_takeLock]
    exact h.inCall t g o nb hc

theorem calls_sysFlock (f : Nat) (op : LockMode) (nb signal : Bool) :
    (sysFlock n f op nb signal).1.calls = n.calls := by
  rw [sysFlock]
  split
  · dsimp only
    split
    · exact calls_flockDrop f
    · rfl
  split
  · exact calls_takeLock f op
  split
  · rfl
  split <;> rfl

theorem sysFlock_inv (h : Inv n) (hn : n.shared < 2 ^ 32) (hf : n.refs f ≠ 0) (op : LockMode)
    (nb signal : Bool) : Inv (sysFlock n f op nb signal).1 := by
  rw [sysFlock]
  split
  · dsimp only
    split
    · next hm => exact h.drop hn hm
    · exact h
  next hop =>
  split
  · next hmay => exact h.take hn hf hop hmay
  split
  · exact h
  split <;> exact h

theorem step_inv (h : Inv n) {e : Event} (he : Calm n e) : Inv (step n e) := by
  cases e with
  | «open» => exact h.open
  | dup f =>
    rw [step]
    split
    · exact h
    · next hf => exact h.setRefs hf (Nat.succ_ne_zero _)
  | close t f =>
    rw [step]
    split
    · exact h
    next hg =>
    rw [not_or, not_not] at hg
    split
    · next h₁ => exact h.lastClose hg.1 hg.2 (he h₁)
    · next h₁ => exact h.setRefs hg.1 (by have := hg.1; omega)
  | flock t f op nb =>
    rw [step]
    split
    · exact h
    next hg =>
    rw [not_or, not_not] at hg
    refine h.setCall_some hg.2 fun g o b heq => ?_
    cases heq
    exact hg.1
  | turn t signal =>
    have hn : n.shared < 2 ^ 32 := Nat.lt_of_succ_lt he
    rw [step]
    split
    · exact h
    · next f hc =>
      have hdrop : Inv (if n.mode f ≠ .un then flockDrop n f else n) ∧
          (if n.mode f ≠ .un then flockDrop n f else n).calls = n.calls ∧
          (if n.mode f ≠ .un then flockDrop n f else n).mode f = .un := by
        split
        · next hm =>
          refine ⟨h.drop hn hm, calls_flockDrop f, ?_⟩
          rw [mode_flockDrop h.toTable hn (lt_of_mode hm), if_pos rfl]
        · next hm => exact ⟨h, rfl, not_not.mp hm⟩
      refine hdrop.1.setCall_none (by rw [hdrop.2.1]; exact hc) fun g heq => ?_
      cases heq
      exact hdrop.2.2
    · next f op nb hc =>
      have hi := sysFlock_inv h hn (h.inCall t f op nb hc) op nb signal
      have hcalls := calls_sysFlock (n := n) f op nb signal
      generalize sysFlock n f op nb signal = r at hi hcalls ⊢
      obtain ⟨n', _ | res⟩ := r
      · exact hi
      · exact hi.setCall_none (hcalls ▸ hc) fun g heq => by cases heq

end

theorem start_inv : Inv {} where
  exclusive := fun _ _ h => by cases h
  owner := fun _ => iff_of_false (fun h => by cases h) (fun h => by cases h)
  count := rfl
  closed := fun _ _ h => absurd rfl h
  inCall := fun _ _ _ _ h => by cases h

/-- Every state of every run in which no last close meets a thread inside `sys_flock`. -/
theorem flock_ok (es : List Event) (h : Along Calm step {} es) : LockOk (run step {} es) :=
  (invariant_run (P := Inv) (fun _ _ hi he => step_inv hi he) start_inv h).toLockOk

def waiting : List Event :=
  [.open, .open, .flock 1 0 .ex false, .turn 1 false, .flock 2 1 .ex false, .turn 2 false]

theorem flock_ok_waiting :
    Along Calm step {} (waiting ++ [.flock 1 0 .un false, .turn 1 false, .turn 2 false]) ∧
      LockOk (run step {} (waiting ++ [.flock 1 0 .un false, .turn 1 false, .turn 2 false])) := by
  have h : Along Calm step {} (waiting ++ [.flock 1 0 .un false, .turn 1 false, .turn 2 false]) :=
    ⟨trivial, trivial, trivial, (by decide : Vnode.shared _ + 1 < 2 ^ 32), trivial,
      (by decide : Vnode.shared _ + 1 < 2 ^ 32), trivial, (by decide : Vnode.shared _ + 1 < 2 ^ 32),
      (by decide : Vnode.shared _ + 1 < 2 ^ 32), trivial⟩
  exact ⟨h, flock_ok _ h⟩

def closedWhileWaiting : List Event :=
  waiting ++ [.close 3 1, .turn 3 false, .flock 1 0 .un false, .turn 1 false, .turn 2 false]

def Event.thread : Event → Option Nat
  | .open => none
  | .dup _ => none
  | .close t _ => some t
  | .flock t _ _ _ => some t
  | .turn t _ => some t

theorem step_calls_of_ne {n : Vnode} {e : Event} {u : Nat} (h : e.thread ≠ some u) :
    (step n e).calls u = n.calls u := by
  have hset {m : Vnode} {t : Nat} (ht : some t ≠ some u) (hm : m.calls = n.calls) (c : Option Call) :
      (m.setCall t c).calls u = n.calls u := by
    rw [calls_setCall, if_neg fun hu => ht (congrArg some hu.symm), hm]
  cases e with
  | «open» => rfl
  | dup f =>
    rw [step]
    split <;> rfl
  | close t f =>
    rw [step]
    split
    · rfl
    split
    · exact hset h rfl _
    · rfl
  | flock t f op nb =>
    rw [step]
    split
    · rfl
    · exact hset h rfl _
  | turn t signal =>
    rw [step]
    split
    · rfl
    · refine hset h ?_ _
      split
      · exact calls_flockDrop _
      · rfl
    · next f op nb _ =>
      have hcalls := calls_sysFlock (n := n) f op nb signal
      generalize sysFlock n f op nb signal = r at hcalls ⊢
      obtain ⟨m, _ | res⟩ := r
      · exact congrFun hcalls u
      · exact hset h hcalls _

theorem run_calls_of_ne {es : List Event} {u : Nat} (h : ∀ e ∈ es, e.thread ≠ some u) (n : Vnode) :
    (run step n es).calls u = n.calls u := by
  induction es generalizing n with
  | nil => rfl
  | cons e es ih =>
    rw [List.forall_mem_cons] at h
    exact (ih h.2 (step n e)).trans (step_calls_of_ne h.1)

/-- The waiting thread then locks the file that is closed and freed. -/
theorem closed_file_takes_lock : ¬ ∀ es : List Event, LockOk (run step {} es) := by
  intro h
  obtain ⟨t, ht⟩ := (h closedWhileWaiting).closed 1 (by decide) (by decide)
  have hdone : ∀ t ∈ [1, 2, 3], (run step {} closedWhileWaiting).calls t = none := by decide
  by_cases hmem : t ∈ [1, 2, 3]
  · rw [hdone t hmem] at ht
    cases ht
  have hother : ∀ e ∈ closedWhileWaiting, e.thread ≠ some t := by
    simp only [List.mem_cons, not_or] at hmem
    simp [closedWhileWaiting, waiting, Event.thread, Ne.symm hmem.1, Ne.symm hmem.2.1, Ne.symm hmem.2.2.1]
  rw [run_calls_of_ne hother] at ht
  cases ht

end Sic.Flock
