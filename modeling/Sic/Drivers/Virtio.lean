import Sic.Lib.Run
import Sic.Lib.Word

/-! A split virtqueue and the calls on it: a call makes a pair of descriptors available, waits for its answer in
the used ring and gives the descriptors back. -/

namespace Sic.Virtio

abbrev U16 := BitVec 16

structure Desc where
  addr : U64
  len : U32
  flags : U16
  next : U16

structure UsedElem where
  id : U32
  len : U32

structure Virtq where
  size : Nat
  desc : Nat → Desc
  availRing : Nat → U16
  availIdx : U16
  usedRing : Nat → UsedElem
  usedIdx : U16
  freeHead : U16
  lastUsed : U16

def virtioQueueSetup (offered : U16) : Option Virtq :=
  if offered = 0 then none else
    some { size := if offered > 128 then 128 else offered.toNat
           desc := fun i => ⟨0, 0, 0, BitVec.ofNat 16 (i + 1)⟩
           availRing := fun _ => 0, availIdx := 0
           usedRing := fun _ => ⟨0, 0⟩, usedIdx := 0
           freeHead := 0, lastUsed := 0 }

structure Request where
  d0 : U16
  d1 : U16
  out : U64
  inp : U64

/-- The queue, the call that waits, and the device: what it has taken from the ring and works on, by the request's
number and the head of its chain. `done` and `returned` are the answers given and the results of the calls. -/
structure World where
  q : Virtq
  call : Option Nat
  made : List Request
  seen : U16
  taken : Nat
  working : List (Nat × U16)
  done : List (Nat × U32)
  returned : List (Nat × Option U32)

def start (q : Virtq) : World := ⟨q, none, [], 0, 0, [], [], []⟩

inductive Event
  | request (out : U64) (outLen : U32) (inp : U64) (inLen : U32)
  | turn (late : Bool)
  | take
  | answer (i : Nat) (len : U32)

def descFNext : U16 := 1

def descFWrite : U16 := 2

def Virtq.submit (q : Virtq) (out : U64) (outLen : U32) (inp : U64) (inLen : U32) : Virtq :=
  let d0 := q.freeHead
  let d1 := (q.desc d0.toNat).next
  let free := (q.desc d1.toNat).next
  let desc := Function.update q.desc d0.toNat ⟨out, outLen, descFNext, d1⟩
  let desc := Function.update desc d1.toNat ⟨inp, inLen, descFWrite, 0⟩
  { q with freeHead := free, desc := desc
           availRing := Function.update q.availRing (q.availIdx.toNat % q.size) d0
           availIdx := q.availIdx + 1 }

def Virtq.giveBack (q : Virtq) (d0 d1 : U16) : Virtq :=
  let desc := Function.update q.desc d1.toNat { q.desc d1.toNat with next := q.freeHead }
  let desc := Function.update desc d0.toNat { desc d0.toNat with next := d1 }
  { q with desc := desc, freeHead := d0 }

def World.finish (w : World) (n : Nat) (r : Request) (got : Option U32) : World :=
  { w with q := w.q.giveBack r.d0 r.d1, call := none, returned := (n, got) :: w.returned }

def step (w : World) : Event → World
  | .request out outLen inp inLen =>
    if w.call = none then
      { w with q := w.q.submit out outLen inp inLen, call := some w.made.length,
               made := w.made ++ [⟨w.q.freeHead, (w.q.desc w.q.freeHead.toNat).next, out, inp⟩] }
    else w
  | .turn late =>
    match w.call.bind fun n => (w.made[n]?).map (n, ·) with
    | none => w
    | some (n, r) =>
      if w.q.usedIdx ≠ w.q.lastUsed then
        let e := w.q.usedRing (w.q.lastUsed.toNat % w.q.size)
        let w := { w with q := { w.q with lastUsed := w.q.lastUsed + 1 } }
        if e.id = r.d0.setWidth 32 then w.finish n r (some e.len) else w
      else if late then w.finish n r none
      else w
  | .take =>
    if w.seen = w.q.availIdx then w else
      { w with working := w.working ++ [(w.taken, w.q.availRing (w.seen.toNat % w.q.size))], seen := w.seen + 1,
               taken := w.taken + 1 }
  | .answer i len =>
    match w.working[i]? with
    | none => w
    | some (n, head) =>
      { w with working := w.working.eraseIdx i, done := (n, len) :: w.done,
               q := { w.q with usedRing := Function.update w.q.usedRing (w.q.usedIdx.toNat % w.q.size)
                                 ⟨head.setWidth 32, len⟩, usedIdx := w.q.usedIdx + 1 } }

def World.Pending (w : World) (n : Nat) : Prop := n < w.made.length ∧ ∀ len, (n, len) ∉ w.done

def Request.Apart (r s : Request) : Prop :=
  r.d0 ≠ s.d0 ∧ r.d1 ≠ s.d1 ∧ r.out ≠ s.out ∧ r.inp ≠ s.inp

/-- A length is returned for the request the device answered with it, and requests that are pending together share
neither descriptors nor buffers. -/
def World.Safe (w : World) : Prop :=
  (∀ n len, (n, some len) ∈ w.returned → (n, len) ∈ w.done) ∧
    ∀ i j, i < j → w.Pending i → w.Pending j → ∀ r s, w.made[i]? = some r → w.made[j]? = some s → r.Apart s

/-- The deadline does not pass before the answer. -/
def InTime (w : World) (e : Event) : Prop := e = .turn true → w.q.usedIdx ≠ w.q.lastUsed

inductive Stage (w : World) (n : Nat) : Prop
  | made (htaken : w.taken = n) (hseen : w.q.availIdx = w.seen + 1)
    (hring : w.q.availRing (w.seen.toNat % w.q.size) = 0)
      (hwork : w.working = []) (hused : w.q.usedIdx = w.q.lastUsed)
  | taken (htaken : w.taken = n + 1) (hseen : w.q.availIdx = w.seen) (hwork : w.working = [(n, 0)])
      (hused : w.q.usedIdx = w.q.lastUsed)
  | answered (len : U32) (htaken : w.taken = n + 1) (hseen : w.q.availIdx = w.seen) (hwork : w.working = [])
      (hused : w.q.usedIdx = w.q.lastUsed + 1) (helem : w.q.usedRing (w.q.lastUsed.toNat % w.q.size) = ⟨0, len⟩)
      (hdone : (n, len) ∈ w.done)

structure Idle (w : World) : Prop where
  taken : w.taken = w.made.length
  seen : w.q.availIdx = w.seen
  working : w.working = []
  used : w.q.usedIdx = w.q.lastUsed
  free : w.q.freeHead = 0
  next : (w.q.desc 0).next = 1
  done : ∀ n < w.made.length, ∃ len, (n, len) ∈ w.done

structure Busy (w : World) (n : Nat) : Prop where
  number : w.made.length = n + 1
  stage : Stage w n
  done : ∀ k < n, ∃ len, (k, len) ∈ w.done

structure Inv (w : World) : Prop where
  returned : ∀ n len, (n, some len) ∈ w.returned → (n, len) ∈ w.done
  first : ∀ r ∈ w.made, r.d0 = 0 ∧ r.d1 = 1
  idle : w.call = none → Idle w
  busy : ∀ n, w.call = some n → Busy w n

variable {w : World}

theorem Inv.safe (h : Inv w) : w.Safe := by
  refine ⟨h.returned, fun i j hij hi hj => ?_⟩
  exfalso
  cases hc : w.call with
  | none =>
    obtain ⟨len, hmem⟩ := (h.idle hc).done i hi.1
    exact hi.2 len hmem
  | some n =>
    have hb := h.busy n hc
    have hjn : j < n + 1 := hb.number ▸ hj.1
    obtain ⟨len, hmem⟩ := hb.done i (by omega)
    exact hi.2 len hmem

theorem ne_succ (x : U16) : x ≠ x + 1 := by
  intro h
  bv_omega

theorem inv_request (h : Inv w) (hc : w.call = none) (out : U64) (outLen : U32) (inp : U64) (inLen : U32) :
    Inv (step w (.request out outLen inp inLen)) := by
  have hi := h.idle hc
  have hd1 : (w.q.desc w.q.freeHead.toNat).next = 1 := by rw [hi.free]; exact hi.next
  rw [step, if_pos hc]
  refine ⟨h.returned, fun r hr => ?_, fun hn => (by cases hn), fun n hn => ?_⟩
  · rcases List.mem_append.mp hr with hr | hr
    · exact h.first r hr
    · cases List.mem_singleton.mp hr
      exact ⟨hi.free, hd1⟩
  cases hn
  refine ⟨List.length_append, ?_, hi.done⟩
  refine .made hi.taken (congrArg (· + 1) hi.seen) ?_ hi.working hi.used
  have hring : Function.update w.q.availRing (w.q.availIdx.toNat % w.q.size) w.q.freeHead
    (w.seen.toNat % w.q.size) = 0 := by
    rw [hi.seen, Function.update_self, hi.free]
  exact hring

theorem inv_turn (h : Inv w) {n : Nat} (hc : w.call = some n) {late : Bool}
    (hok : InTime w (.turn late)) : Inv (step w (.turn late)) := by
  have hb := h.busy n hc
  obtain ⟨r, hr⟩ : ∃ r, w.made[n]? = some r :=
    ⟨_, List.getElem?_eq_getElem (by rw [hb.number]; exact Nat.lt_succ_self n)⟩
  obtain ⟨hd0, hd1⟩ := h.first r (List.mem_of_getElem? hr)
  have hbind : (w.call.bind fun n => (w.made[n]?).map (n, ·)) = some (n, r) := by
    rw [hc, Option.bind_some, hr]
    rfl
  have hwait : w.q.usedIdx = w.q.lastUsed → Inv (step w (.turn late)) := by
    intro hused
    have hlate : late = false := by
      cases late with
      | false => rfl
      | true => exact absurd hused (hok rfl)
    simpa only [step, hbind, hused, ne_eq, not_true_eq_false, if_false, hlate, Bool.false_eq_true] using h
  cases hb.stage with
  | made _ _ _ _ hused => exact hwait hused
  | taken _ _ _ hused => exact hwait hused
  | answered len htaken hseen hwork hused helem hdone =>
    have hne : w.q.usedIdx ≠ w.q.lastUsed := fun heq => ne_succ _ (heq.symm.trans hused)
    have hstep : step w (.turn late) =
        { w with q := ({ w.q with lastUsed := w.q.lastUsed + 1 } : Virtq).giveBack 0 1, call := none,
                 returned := (n, some len) :: w.returned } := by
      simp only [step, hbind, hne, ne_eq, not_false_eq_true, if_true, helem, hd0, hd1, World.finish]
      rfl
    rw [hstep]
    refine ⟨fun k l hk => ?_, h.first,
      fun _ => ⟨htaken.trans hb.number.symm, hseen, hwork, hused, rfl, rfl, fun k hk => ?_⟩,
      fun k hk => (by cases hk)⟩
    · rcases List.mem_cons.mp hk with heq | hk
      · cases heq
        exact hdone
      · exact h.returned k l hk
    · rcases Nat.lt_succ_iff_lt_or_eq.mp (hb.number ▸ hk : k < n + 1) with hlt | rfl
      · exact hb.done k hlt
      · exact ⟨len, hdone⟩

theorem inv_take (h : Inv w) : Inv (step w .take) := by
  rw [step]
  split
  · exact h
  next hne =>
  refine ⟨h.returned, h.first, fun hc => absurd (h.idle hc).seen.symm hne, fun n hc => ?_⟩
  have hb := h.busy n hc
  refine ⟨hb.number, ?_, hb.done⟩
  cases hb.stage with
  | made htaken hseen hring hwork hused =>
    refine .taken (congrArg (· + 1) htaken) hseen ?_ hused
    dsimp only
    rw [hwork, hring, htaken]
    rfl
  | taken _ hseen _ _ => exact absurd hseen.symm hne
  | answered _ _ hseen _ _ _ _ => exact absurd hseen.symm hne

theorem inv_answer (h : Inv w) (i : Nat) (len : U32) : Inv (step w (.answer i len)) := by
  rw [step]
  split
  · exact h
  next n head hi =>
  have hmem : (n, head) ∈ w.working := List.mem_of_getElem? hi
  have hmono : ∀ k l, (k, l) ∈ w.done → (k, l) ∈ (n, len) :: w.done := fun k l hk => List.mem_cons_of_mem _ hk
  refine ⟨fun k l hk => hmono k l (h.returned k l hk), h.first, fun hc => ?_, fun k hc => ?_⟩
  · rw [(h.idle hc).working] at hmem
    cases hmem
  have hb := h.busy k hc
  refine ⟨hb.number, ?_, fun j hj => ?_⟩
  · cases hb.stage with
    | made _ _ _ hwork _ =>
      rw [hwork] at hmem
      cases hmem
    | taken htaken hseen hwork hused =>
      rw [hwork] at hmem hi
      cases List.mem_singleton.mp hmem
      have hzero : i = 0 := Nat.lt_one_iff.mp (List.getElem?_eq_some_iff.mp hi).1
      refine .answered len htaken hseen ?_ (congrArg (· + 1) hused) ?_ List.mem_cons_self
      · dsimp only
        rw [hwork, hzero]
        rfl
      · dsimp only
        rw [hused, Function.update_self]
        rfl
    | answered _ _ _ hwork _ _ _ =>
      rw [hwork] at hmem
      cases hmem
  · obtain ⟨l, hl⟩ := hb.done j hj
    exact ⟨l, hmono j l hl⟩

theorem inv_step (h : Inv w) (e : Event) (hok : InTime w e) : Inv (step w e) := by
  cases e with
  | request out outLen inp inLen =>
    cases hc : w.call with
    | none => exact inv_request h hc out outLen inp inLen
    | some n => rwa [step, if_neg (by rw [hc]; exact Option.some_ne_none n)]
  | turn late =>
    cases hc : w.call with
    | none => rwa [step, hc]
    | some n => exact inv_turn h hc hok
  | take => exact inv_take h
  | answer i len => exact inv_answer h i len

theorem inv_start {offered : U16} {q : Virtq} (h : virtioQueueSetup offered = some q) : Inv (start q) := by
  unfold virtioQueueSetup at h
  split at h
  · cases h
  cases h
  exact ⟨fun _ _ hm => (by cases hm), (fun _ hr => by cases hr),
    fun _ => ⟨rfl, rfl, rfl, rfl, rfl, rfl, fun _ hn => absurd hn (Nat.not_lt_zero _)⟩, fun _ hc => (by cases hc)⟩

/-- If no deadline passes before its answer, the calls on a queue of at least two descriptors return the lengths
of their own requests, and no descriptor or buffer is in two pending requests, in every state of the run. -/
theorem requests_safe {offered : U16} {q : Virtq} (h : virtioQueueSetup offered = some q) (hsize : 2 ≤ q.size)
    {es : List Event} (hok : Along InTime step (start q) es) {done rest : List Event} (hes : es = done ++ rest) :
    (run step (start q) done).Safe ∧
      ∀ r ∈ (run step (start q) done).made, r.d0.toNat < q.size ∧ r.d1.toNat < q.size := by
  subst hes
  have hinv := invariant_run (P := Inv) (fun _ e hi hg => inv_step hi e hg) (inv_start h) hok.split.1
  refine ⟨hinv.safe, fun r hr => ?_⟩
  obtain ⟨hd0, hd1⟩ := hinv.first r hr
  rw [hd0, hd1]
  exact ⟨Nat.lt_of_lt_of_le (by decide) hsize, hsize⟩

theorem requests_safe_two : ∃ q, virtioQueueSetup 2 = some q ∧
    (run step (start q) [.request 0x1000 8 0x2000 8, .take, .answer 0 8, .turn false]).Safe := by
  refine ⟨_, rfl, ?_⟩
  have hset : virtioQueueSetup 2 = some _ := rfl
  refine (requests_safe hset (by decide) ?_ (List.append_nil _).symm).1
  refine ⟨?_, ?_, ?_, ?_, trivial⟩ <;> exact fun h => by cases h

/-- A call gives up and the next one takes its descriptors, its buffers and its late answer. -/
theorem late_answer_taken : ∃ q, virtioQueueSetup 128 = some q ∧
    (∃ es n len, (n, some len) ∈ (run step (start q) es).returned ∧ (n, len) ∉ (run step (start q) es).done) ∧
    ∃ es i j r s, i < j ∧ (run step (start q) es).Pending i ∧ (run step (start q) es).Pending j ∧
      (run step (start q) es).made[i]? = some r ∧ (run step (start q) es).made[j]? = some s ∧ r = s := by
  refine ⟨_, rfl, ⟨[.request 0x1000 8 0x2000 8, .turn true, .request 0x3000 8 0x4000 8, .take, .answer 0 24,
    .turn false],
    1, 24, ?_, ?_⟩, [.request 0x1000 8 0x2000 8, .turn true, .request 0x1000 8 0x2000 8], 0, 1, _, _, Nat.one_pos,
    ⟨by decide, fun len h => by cases h⟩, ⟨by decide, fun len h => by cases h⟩, rfl, rfl, rfl⟩
  · decide
  · decide

end Sic.Virtio
