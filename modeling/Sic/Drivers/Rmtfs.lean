import Sic.Lib.Run
import Sic.Lib.Word

/-! The modem's remote storage: its requests to open and close partitions and to move sectors between the copies
of them in memory and the buffer it shares. -/

namespace Sic.Rmtfs

inductive Label
  | modemst1
  | modemst2
  | fsc
  | fsg
deriving DecidableEq

def path (s : String) : List U8 := s.toList.map fun c => BitVec.ofNat 8 c.toNat

def table : List (List U8 × Label) :=
  [(path "/boot/modem_fs1", .modemst1), (path "/boot/modem_fs2", .modemst2), (path "/boot/modem_fsc", .fsc),
    (path "/boot/modem_fsg", .fsg)]

def memSize : Nat := 0x300000

def sectorSize : Nat := 512

structure Shadow where
  size : Nat
  bytes : Nat → U8

structure Caller where
  isOpen : Bool
  label : Option Label
  shadow : Option Shadow

def Caller.data (c : Caller) : Shadow := c.shadow.getD ⟨0, fun _ => 0⟩

structure Move where
  id : Fin 8
  write : Bool
  off : Nat
  place : Nat
  n : Nat
  size : Nat

/-- What the modem has done: a message it has sent, with the caller id of the reply, or a byte it has stored
into the shared buffer. -/
inductive Exchange
  | request (msg : List U8) (caller : Option (Fin 8))
  | store (place : Nat) (b : U8)

structure World where
  callers : Fin 8 → Caller
  mem : Nat → U8
  moves : List Move
  log : List Exchange

/-! ### The requests -/

def findTlvLoop (type : U8) : Nat → List U8 → Option (List U8)
  | fuel + 1, t :: l0 :: l1 :: rest =>
    let l := l0.toNat + 256 * l1.toNat
    if rest.length < l then none
    else if t = type then some (rest.take l)
    else findTlvLoop type fuel (rest.drop l)
  | _, _ => none

def findTlv (type : U8) (msg : List U8) : Option (List U8) := findTlvLoop type msg.length msg

def get32 (p : List U8) : Nat :=
  (p.getD 0 0).toNat + 2 ^ 8 * (p.getD 1 0).toNat + 2 ^ 16 * (p.getD 2 0).toNat + 2 ^ 24 * (p.getD 3 0).toNat

def memcpy (dst : Nat → U8) (place : Nat) (src : Nat → U8) (off n : Nat) : Nat → U8 :=
  fun i => if place ≤ i ∧ i < place + n then src (off + (i - place)) else dst i

def pathLabel (v : List U8) : Option Label :=
  let p := (v.take 63).takeWhile (· ≠ 0)
  table.foldl (fun l e => if p = e.1 then some e.2 else l) none

def World.holder (w : World) (l : Label) : Option (Fin 8) :=
  (List.finRange 8).find? fun i => (w.callers i).isOpen && (w.callers i).label = some l

def World.freeSlot (w : World) : Option (Fin 8) := (List.finRange 8).find? fun i => !(w.callers i).isOpen

section

variable (parts : Label → Option Shadow) (memPhys : Nat)

def World.take (w : World) (fails : Bool) (i : Fin 8) (l : Label) : World × Option (Fin 8) :=
  match parts l with
  | none => (w, none)
  | some d =>
    if (w.callers i).shadow.isNone && fails then (w, none)
    else ({ w with callers := Function.update w.callers i ⟨true, some l, some ((w.callers i).shadow.getD d)⟩ },
      some i)

def doOpen (w : World) (fails : Bool) (v : List U8) : World × Option (Fin 8) :=
  match pathLabel v with
  | none => (w, none)
  | some l =>
    match w.holder l with
    | some i => (w, some i)
    | none =>
      match w.freeSlot with
      | none => (w, none)
      | some i => w.take parts fails i l

def World.move (w : World) (m : Move) : World :=
  let c := w.callers m.id
  if m.write then
    { w with callers := Function.update w.callers m.id
               { c with
                 shadow := c.shadow.map fun s => { s with bytes := memcpy s.bytes m.off w.mem m.place m.n } },
             moves := w.moves ++ [m] }
  else { w with mem := memcpy w.mem m.place c.data.bytes m.off m.n, moves := w.moves ++ [m] }

def iovLoop (id : Fin 8) (write : Bool) : List (List U8) → World → World × Bool
  | [], w => (w, true)
  | e :: es, w =>
    let phys := get32 (e.drop 4)
    let off := get32 e * sectorSize
    let bytes := get32 (e.drop 8) * sectorSize
    let size := (w.callers id).data.size
    if phys < memPhys ∨ phys + bytes > memPhys + memSize ∨ off + bytes > size then (w, false)
    else iovLoop id write es (w.move ⟨id, write, off, phys - memPhys, bytes, size⟩)

def doIovec (w : World) (id : Nat) (write : Bool) (iov : List U8) : World × Bool :=
  if h : id < 8 then
    if !(w.callers ⟨id, h⟩).isOpen || iov.length < 1 then (w, false)
    else
      let n := (iov.getD 0 0).toNat
      if iov.length < 1 + 12 * n then (w, false)
      else iovLoop memPhys ⟨id, h⟩ write ((List.range n).map fun i => (iov.drop (1 + 12 * i)).take 12) w
  else (w, false)

def close (w : World) (id : Nat) : World :=
  if h : id < 8 then
    { w with callers := Function.update w.callers ⟨id, h⟩ { w.callers ⟨id, h⟩ with isOpen := false } }
  else w

structure Reply where
  result : Bool
  caller : Option (Fin 8)

def requestId (msg : List U8) : Nat := (msg.getD 3 0).toNat + 256 * (msg.getD 4 0).toNat

def rmtfsRx (w : World) (fails : Bool) (msg : List U8) : World × Option Reply :=
  if msg.length < 7 ∨ msg.getD 0 0 ≠ 0 then (w, none)
  else
    let tl := msg.drop 7
    match requestId msg with
    | 1 =>
      match findTlv 1 tl with
      | none => (w, some ⟨false, none⟩)
      | some v => let r := doOpen parts w fails v
                  (r.1, some ⟨r.2.isSome, r.2⟩)
    | 2 =>
      match findTlv 1 tl with
      | some a =>
        if a.length ≥ 4 ∧ get32 a < 8 then (close w (get32 a), some ⟨true, none⟩) else (w, some ⟨false, none⟩)
      | none => (w, some ⟨false, none⟩)
    | 3 =>
      match findTlv 1 tl, findTlv 2 tl, findTlv 3 tl with
      | some a, some b, some c =>
        if a.length ≥ 4 ∧ b.length ≥ 1 then
          let r := doIovec memPhys w (get32 a) (b.getD 0 0 ≠ 0) c
          (r.1, some ⟨r.2, none⟩)
        else (w, some ⟨false, none⟩)
      | _, _, _ => (w, some ⟨false, none⟩)
    | 4 =>
      match findTlv 2 tl with
      | some b => (w, some ⟨b.length ≥ 4 ∧ get32 b ≤ memSize, none⟩)
      | none => (w, some ⟨false, none⟩)
    | 5 => (w, some ⟨true, none⟩)
    | _ => (w, some ⟨false, none⟩)

inductive Event
  | request (fails : Bool) (msg : List U8)
  | store (place : Nat) (b : U8)

def step (w : World) : Event → World
  | .request fails msg =>
    let r := rmtfsRx parts memPhys w fails msg
    { r.1 with log := w.log ++ [.request msg (r.2.bind Reply.caller)] }
  | .store place b => { w with mem := Function.update w.mem place b, log := w.log ++ [.store place b] }

end

def boot (mem : Nat → U8) : World := ⟨fun _ => ⟨false, none, none⟩, mem, [], []⟩

/-! ### What the modem is to see -/

/-- The partition each id is open on, the partitions as the modem has written them, and the shared buffer. -/
structure Spec where
  opened : Fin 8 → Option Label
  content : Label → Shadow
  mem : Nat → U8

namespace Spec

def start (parts : Label → Option Shadow) (mem : Nat → U8) : Spec :=
  ⟨fun _ => none, fun l => (parts l).getD ⟨0, fun _ => 0⟩, mem⟩

def move (s : Spec) (l : Label) (write : Bool) (off place n : Nat) : Spec :=
  let d := s.content l
  if write then
    { s with content := Function.update s.content l { d with bytes := memcpy d.bytes off s.mem place n } }
  else { s with mem := memcpy s.mem place d.bytes off n }

variable (memPhys : Nat)

def moveAll (l : Label) (write : Bool) : List (List U8) → Spec → Spec
  | [], s => s
  | e :: es, s =>
    let phys := get32 (e.drop 4)
    let off := get32 e * sectorSize
    let bytes := get32 (e.drop 8) * sectorSize
    if phys < memPhys ∨ phys + bytes > memPhys + memSize ∨ off + bytes > (s.content l).size then s
    else moveAll l write es (s.move l write off (phys - memPhys) bytes)

def access (s : Spec) (id : Nat) (write : Bool) (iov : List U8) : Spec :=
  if h : id < 8 then
    match s.opened ⟨id, h⟩ with
    | none => s
    | some l =>
      let n := (iov.getD 0 0).toNat
      if iov.length < 1 + 12 * n then s
      else moveAll memPhys l write ((List.range n).map fun i => (iov.drop (1 + 12 * i)).take 12) s
  else s

def opens (s : Spec) (l : Label) : Option (Fin 8) → Spec
  | some i => { s with opened := Function.update s.opened i (some l) }
  | none => s

def closes (s : Spec) (id : Nat) : Spec :=
  if h : id < 8 then { s with opened := Function.update s.opened ⟨id, h⟩ none } else s

def apply (s : Spec) : Exchange → Spec
  | .request msg caller =>
    if msg.length < 7 ∨ msg.getD 0 0 ≠ 0 then s
    else if requestId msg = 1 then
      match (findTlv 1 (msg.drop 7)).bind pathLabel with
      | some l => s.opens l caller
      | none => s
    else if requestId msg = 2 then
      match findTlv 1 (msg.drop 7) with
      | some a => if a.length ≥ 4 then s.closes (get32 a) else s
      | none => s
    else if requestId msg = 3 then
      match findTlv 1 (msg.drop 7), findTlv 2 (msg.drop 7), findTlv 3 (msg.drop 7) with
      | some a, some b, some c =>
        if a.length ≥ 4 ∧ b.length ≥ 1 then s.access memPhys (get32 a) (b.getD 0 0 ≠ 0) c else s
      | _, _, _ => s
    else s
  | .store place b => { s with mem := Function.update s.mem place b }

end Spec

def spec (parts : Label → Option Shadow) (memPhys : Nat) (mem : Nat → U8) (log : List Exchange) : Spec :=
  log.foldl (Spec.apply memPhys) (Spec.start parts mem)

def Inside (m : Move) : Prop := m.place + m.n ≤ memSize ∧ m.off + m.n ≤ m.size

/-- The modem's reads give it what it is to see by its messages, and every copy stays inside the buffer and the
shadow. -/
def Faithful (parts : Label → Option Shadow) (memPhys : Nat) (mem : Nat → U8) (w : World) : Prop :=
  w.mem = (spec parts memPhys mem w.log).mem ∧ ∀ m ∈ w.moves, Inside m

def requestedLabel (msg : List U8) : Option Label :=
  if msg.length < 7 ∨ msg.getD 0 0 ≠ 0 then none
  else if requestId msg = 1 then (findTlv 1 (msg.drop 7)).bind pathLabel else none

def World.fits (w : World) (i : Fin 8) (l : Label) : Bool :=
  if (w.callers i).shadow.isSome then (w.callers i).label = some l
  else decide (∀ j, (w.callers j).shadow.isSome → (w.callers j).label ≠ some l)

/-- An open that takes a free slot takes one that fits. -/
def Steady (w : World) : Event → Prop
  | .request _ msg => ∀ l, requestedLabel msg = some l → w.holder l = none → ∀ i, w.freeSlot = some i → w.fits i l
  | .store _ _ => True

def Caller.current (c : Caller) : Option Label := if c.isOpen then c.label else none

section

variable (parts : Label → Option Shadow) (mem₀ : Nat → U8)

structure Inv (w : World) (s : Spec) : Prop where
  mem : w.mem = s.mem
  fresh : ∀ i, (w.callers i).shadow = none → (w.callers i).isOpen = false
  opened : ∀ i, s.opened i = (w.callers i).current
  held : ∀ i d, (w.callers i).shadow = some d → ∃ l, (w.callers i).label = some l ∧ d = s.content l
  apart : ∀ i j l, (w.callers i).shadow.isSome → (w.callers j).shadow.isSome → (w.callers i).label = some l →
    (w.callers j).label = some l → i = j
  untouched : ∀ l, (∀ i, (w.callers i).shadow.isSome → (w.callers i).label ≠ some l) →
    s.content l = (Spec.start parts mem₀).content l
  inside : ∀ m ∈ w.moves, Inside m

end

variable {parts : Label → Option Shadow} {mem₀ : Nat → U8} {memPhys : Nat}

theorem inv_boot : Inv parts mem₀ (boot mem₀) (.start parts mem₀) where
  mem := rfl
  fresh := fun _ _ => rfl
  opened := fun _ => rfl
  held := fun _ _ h => by cases h
  apart := fun _ _ _ h => by cases h
  untouched := fun _ _ => rfl
  inside := fun _ h => by cases h

variable {w : World} {s : Spec} {i : Fin 8} {l : Label}

theorem inv_slot (h : Inv parts mem₀ w s) {c : Caller} (hs : c.shadow = (w.callers i).shadow)
    (hl : c.label = (w.callers i).label) (hfresh : c.shadow = none → c.isOpen = false) :
    Inv parts mem₀ { w with callers := Function.update w.callers i c }
      { s with opened := Function.update s.opened i c.current } := by
  generalize hcs : Function.update w.callers i c = cs
  have hsame : ∀ j, (cs j).shadow = (w.callers j).shadow ∧ (cs j).label = (w.callers j).label := by
    intro j
    by_cases hji : j = i
    · rw [← hcs, hji, Function.update_self]
      exact ⟨hs, hl⟩
    · rw [← hcs, Function.update_of_ne hji]
      exact ⟨rfl, rfl⟩
  refine ⟨h.mem, fun j => ?_, fun j => ?_, fun j d hj => ?_, fun j k l hj hk hlj hlk => ?_,
    fun l hl => h.untouched l fun j hj => ?_, h.inside⟩
  · subst hcs
    dsimp only
    by_cases hji : j = i
    · rw [hji, Function.update_self]
      exact hfresh
    · rw [Function.update_of_ne hji]
      exact h.fresh j
  · subst hcs
    dsimp only
    by_cases hji : j = i
    · rw [hji, Function.update_self, Function.update_self]
    · rw [Function.update_of_ne hji, Function.update_of_ne hji]
      exact h.opened j
  · rw [(hsame j).1] at hj
    rw [(hsame j).2]
    exact h.held j d hj
  · rw [(hsame j).1] at hj
    rw [(hsame k).1] at hk
    rw [(hsame j).2] at hlj
    rw [(hsame k).2] at hlk
    exact h.apart j k l hj hk hlj hlk
  · have hne := hl j
    rw [(hsame j).1, (hsame j).2] at hne
    exact hne hj

theorem inv_first (h : Inv parts mem₀ w s) {d : Shadow} (hs : (w.callers i).shadow = none)
    (hnone : ∀ j, (w.callers j).shadow.isSome → (w.callers j).label ≠ some l) (hd : parts l = some d) :
    Inv parts mem₀ { w with callers := Function.update w.callers i ⟨true, some l, some d⟩ }
      { s with opened := Function.update s.opened i (some l) } := by
  refine ⟨h.mem, fun j hj => ?_, fun j => ?_, fun j t hj => ?_, fun j k l' hj hk hlj hlk => ?_, fun l' hl' => ?_,
    h.inside⟩
  · dsimp only at hj ⊢
    by_cases hji : j = i
    · rw [hji, Function.update_self] at hj
      cases hj
    · rw [Function.update_of_ne hji] at hj ⊢
      exact h.fresh j hj
  · dsimp only
    by_cases hji : j = i
    · rw [hji, Function.update_self, Function.update_self]
      rfl
    · rw [Function.update_of_ne hji, Function.update_of_ne hji]
      exact h.opened j
  · dsimp only at hj ⊢
    by_cases hji : j = i
    · subst hji
      rw [Function.update_self] at hj ⊢
      cases hj
      refine ⟨l, rfl, Eq.trans ?_ (h.untouched l hnone).symm⟩
      simp only [Spec.start, hd, Option.getD_some]
    · rw [Function.update_of_ne hji] at hj ⊢
      exact h.held j t hj
  · dsimp only at hj hk hlj hlk
    by_cases hji : j = i
    · by_cases hki : k = i
      · rw [hji, hki]
      · rw [hji, Function.update_self] at hlj
        rw [Function.update_of_ne hki] at hk hlk
        exact absurd (hlk.trans hlj.symm) (hnone k hk)
    · rw [Function.update_of_ne hji] at hj hlj
      by_cases hki : k = i
      · rw [hki, Function.update_self] at hlk
        exact absurd (hlj.trans hlk.symm) (hnone j hj)
      · rw [Function.update_of_ne hki] at hk hlk
        exact h.apart j k l' hj hk hlj hlk
  · refine h.untouched l' fun j hj => ?_
    have hji : j ≠ i := fun heq => by
      rw [heq, hs] at hj
      cases hj
    have hne := hl' j
    dsimp only at hne
    rw [Function.update_of_ne hji] at hne
    exact hne hj

theorem inv_take (h : Inv parts mem₀ w s) (hfit : w.fits i l) (fails : Bool) :
    Inv parts mem₀ (w.take parts fails i l).1 (s.opens l (w.take parts fails i l).2) := by
  rw [World.take]
  split
  · exact h
  next d hd =>
  split
  · exact h
  rw [World.fits] at hfit
  cases hs : (w.callers i).shadow with
  | some d' =>
    have hl : (w.callers i).label = some l := by simpa [hs] using hfit
    exact inv_slot h (c := ⟨true, some l, some d'⟩) hs.symm hl.symm nofun
  | none =>
    have hnone : ∀ j, (w.callers j).shadow.isSome → (w.callers j).label ≠ some l := by simpa [hs] using hfit
    exact inv_first h hs hnone hd

theorem inv_doOpen (h : Inv parts mem₀ w s) (fails : Bool) (v : List U8) (hl : pathLabel v = some l)
    (hfit : w.holder l = none → ∀ i, w.freeSlot = some i → w.fits i l) :
    Inv parts mem₀ (doOpen parts w fails v).1 (s.opens l (doOpen parts w fails v).2) := by
  rw [doOpen, hl]
  dsimp only
  split
  · next i hi =>
    have hopen := List.find?_some hi
    rw [Bool.and_eq_true, decide_eq_true_eq] at hopen
    have hcur : (w.callers i).current = some l := by rw [Caller.current, if_pos hopen.1, hopen.2]
    have hsame := inv_slot (i := i) h rfl rfl (h.fresh i)
    rwa [Function.update_eq_self, hcur] at hsame
  · next hnone =>
    split
    · exact h
    · next i hi => exact inv_take h (hfit hnone i hi) fails

theorem inv_close (h : Inv parts mem₀ w s) (id : Nat) : Inv parts mem₀ (close w id) (s.closes id) := by
  rw [close, Spec.closes]
  split
  · exact inv_slot h rfl rfl fun _ => rfl
  · exact h

theorem inside_snoc {ms : List Move} {m : Move} (h : ∀ x ∈ ms, Inside x) (hm : Inside m) :
    ∀ x ∈ ms ++ [m], Inside x := by
  intro x hx
  rcases List.mem_append.mp hx with hx | hx
  · exact h x hx
  · rwa [List.mem_singleton.mp hx]

theorem inv_move (h : Inv parts mem₀ w s) {m : Move} {d : Shadow} (hs : (w.callers m.id).shadow = some d)
    (hl : (w.callers m.id).label = some l) (hin : Inside m) :
    Inv parts mem₀ (w.move m) (s.move l m.write m.off m.place m.n) := by
  have hd : d = s.content l := by
    obtain ⟨l', hl', hd⟩ := h.held m.id d hs
    rw [hd, Option.some.inj (hl.symm.trans hl')]
  have hsome : (w.callers m.id).shadow.isSome := by rw [hs]; rfl
  rw [World.move, Spec.move]
  cases hw : m.write with
  | false =>
    rw [if_neg (by decide), if_neg (by decide), Caller.data, hs, hd, h.mem]
    exact ⟨rfl, h.fresh, h.opened, h.held, h.apart, h.untouched, inside_snoc h.inside hin⟩
  | true =>
    rw [if_pos rfl, if_pos rfl, hs, Option.map_some, ← h.mem, ← hd]
    generalize hcs : Function.update w.callers m.id { w.callers m.id with
      shadow := some { d with bytes := memcpy d.bytes m.off w.mem m.place m.n } } = cs
    have hself : cs m.id = { w.callers m.id with
        shadow := some { d with bytes := memcpy d.bytes m.off w.mem m.place m.n } } :=
          hcs ▸ Function.update_self ..
    have hother : ∀ j, j ≠ m.id → cs j = w.callers j := fun j hj => hcs ▸ Function.update_of_ne hj ..
    have hsame : ∀ j, (cs j).label = (w.callers j).label ∧ ((cs j).shadow.isSome ↔ (w.callers j).shadow.isSome) ∧
        (cs j).isOpen = (w.callers j).isOpen := by
      intro j
      by_cases hj : j = m.id
      · rw [hj, hself]
        exact ⟨rfl, ⟨fun _ => hsome, fun _ => rfl⟩, rfl⟩
      · rw [hother j hj]
        exact ⟨rfl, Iff.rfl, rfl⟩
    refine ⟨rfl, fun j hj => ?_, fun j => ?_, fun j t hj => ?_, fun j k l' hj hk hlj hlk => ?_, fun l' hl' => ?_,
      inside_snoc h.inside hin⟩
    · dsimp only at hj ⊢
      rw [(hsame j).2.2]
      refine h.fresh j (Option.not_isSome_iff_eq_none.mp fun hjs => ?_)
      have hc := (hsame j).2.1.mpr hjs
      rw [hj] at hc
      cases hc
    · dsimp only
      rw [Caller.current, (hsame j).2.2, (hsame j).1]
      exact h.opened j
    · dsimp only at hj ⊢
      by_cases hji : j = m.id
      · rw [hji, hself] at hj ⊢
        cases hj
        exact ⟨l, hl, by rw [Function.update_self]⟩
      · rw [hother j hji] at hj ⊢
        obtain ⟨l', hlj, hcj⟩ := h.held j t hj
        have hne : l' ≠ l := fun heq => hji (h.apart j m.id l (by rw [hj]; rfl) hsome (heq ▸ hlj) hl)
        exact ⟨l', hlj, hcj.trans (Function.update_of_ne hne ..).symm⟩
    · exact h.apart j k l' ((hsame j).2.1.mp hj) ((hsame k).2.1.mp hk) ((hsame j).1.symm.trans hlj)
        ((hsame k).1.symm.trans hlk)
    · have hne : l' ≠ l := fun heq => hl' m.id ((hsame _).2.1.mpr hsome) ((hsame _).1.trans (heq ▸ hl))
      refine (Function.update_of_ne hne ..).trans (h.untouched l' fun j hj => ?_)
      rw [← (hsame j).1]
      exact hl' j ((hsame j).2.1.mpr hj)

theorem move_caller (w : World) (m : Move) (h : (w.callers m.id).shadow.isSome) :
    ((w.move m).callers m.id).shadow.isSome ∧ ((w.move m).callers m.id).label = (w.callers m.id).label := by
  rw [World.move]
  split
  · dsimp only
    rw [Function.update_self, Option.isSome_map]
    exact ⟨h, rfl⟩
  · exact ⟨h, rfl⟩

theorem inv_iovLoop {id : Fin 8} {write : Bool} (es : List (List U8)) (h : Inv parts mem₀ w s)
    (hs : (w.callers id).shadow.isSome) (hl : (w.callers id).label = some l) :
    Inv parts mem₀ (iovLoop memPhys id write es w).1 (s.moveAll memPhys l write es) := by
  induction es generalizing w s with
  | nil => exact h
  | cons e es ih =>
    obtain ⟨d, hsome⟩ := Option.isSome_iff_exists.mp hs
    obtain ⟨l', hl', hd⟩ := h.held id d hsome
    cases hl.symm.trans hl'
    rw [iovLoop, Spec.moveAll, Caller.data, hsome, Option.getD_some, hd]
    split
    · exact h
    next hin =>
    obtain ⟨hs', hl'⟩ := move_caller w ⟨id, write, get32 e * sectorSize, get32 (e.drop 4) - memPhys,
      get32 (e.drop 8) * sectorSize, (s.content l).size⟩ hs
    refine ih (inv_move h hsome hl ?_) hs' (hl'.trans hl)
    unfold Inside
    dsimp only
    omega

theorem inv_doIovec (h : Inv parts mem₀ w s) (id : Nat) (write : Bool) (iov : List U8) :
    Inv parts mem₀ (doIovec memPhys w id write iov).1 (s.access memPhys id write iov) := by
  rw [doIovec, Spec.access]
  split
  · next hid =>
    rw [h.opened, Caller.current]
    cases hopen : (w.callers ⟨id, hid⟩).isOpen with
    | false => exact h
    | true =>
      have hs : (w.callers ⟨id, hid⟩).shadow.isSome := Option.isSome_iff_ne_none.mpr fun hnone => by
        rw [h.fresh _ hnone] at hopen
        cases hopen
      obtain ⟨d, hsome⟩ := Option.isSome_iff_exists.mp hs
      obtain ⟨l, hl, -⟩ := h.held _ d hsome
      rw [if_pos rfl, hl]
      dsimp only
      by_cases hlen : iov.length < 1 + 12 * (iov.getD 0 0).toNat
      · rw [if_pos hlen, if_pos hlen]
        split <;> exact h
      · rw [if_neg hlen, if_neg hlen, if_neg (by simp [show ¬ iov.length < 1 by omega])]
        exact inv_iovLoop _ h hs hl
  · exact h

theorem inv_request (h : Inv parts mem₀ w s) (fails : Bool) (msg : List U8)
    (hok : Steady w (.request fails msg)) :
    Inv parts mem₀ (rmtfsRx parts memPhys w fails msg).1
      (s.apply memPhys (.request msg ((rmtfsRx parts memPhys w fails msg).2.bind Reply.caller))) := by
  rw [Steady] at hok
  rw [rmtfsRx, Spec.apply]
  unfold requestedLabel at hok
  by_cases hlen : msg.length < 7 ∨ msg.getD 0 0 ≠ 0
  · rw [if_pos hlen, if_pos hlen]
    exact h
  rw [if_neg hlen, if_neg hlen]
  rw [if_neg hlen] at hok
  dsimp only
  split
  · next hid =>
    rw [if_pos hid] at hok ⊢
    cases hv : findTlv 1 (msg.drop 7) with
    | none => exact h
    | some v =>
      rw [hv, Option.bind_some] at hok
      dsimp only [Option.bind_some]
      cases hl : pathLabel v with
      | none =>
        rw [doOpen, hl]
        exact h
      | some l => exact inv_doOpen h fails v hl (hok l hl)
  · next hid =>
    rw [if_neg (by omega), if_pos hid]
    cases findTlv 1 (msg.drop 7) with
    | none => exact h
    | some a =>
      dsimp only
      by_cases ha : a.length ≥ 4
      · rw [if_pos ha]
        by_cases hlt : get32 a < 8
        · rw [if_pos ⟨ha, hlt⟩]
          exact inv_close h _
        · rw [if_neg (hlt ·.2), Spec.closes, dif_neg hlt]
          exact h
      · rw [if_neg ha, if_neg (ha ·.1)]
        exact h
  · next hid =>
    rw [if_neg (by omega), if_neg (by omega), if_pos hid]
    split
    · split
      · exact inv_doIovec h _ _ _
      · exact h
    · exact h
  · next hid =>
    rw [if_neg (by omega), if_neg (by omega), if_neg (by omega)]
    split <;> exact h
  · next hid =>
    rw [if_neg (by omega), if_neg (by omega), if_neg (by omega)]
    exact h
  · next h1 h2 h3 _ _ =>
    rw [if_neg h1, if_neg h2, if_neg h3]
    exact h

theorem inv_step {e : Event} (h : Inv parts mem₀ w (spec parts memPhys mem₀ w.log)) (hok : Steady w e) :
    Inv parts mem₀ (step parts memPhys w e) (spec parts memPhys mem₀ (step parts memPhys w e).log) := by
  cases e with
  | request fails msg =>
    have hreq : Inv parts mem₀ (rmtfsRx parts memPhys w fails msg).1 _ := inv_request h fails msg hok
    rw [step, spec, List.foldl_append]
    exact ⟨hreq.mem, hreq.fresh, hreq.opened, hreq.held, hreq.apart, hreq.untouched, hreq.inside⟩
  | store place b =>
    rw [step, spec, List.foldl_append]
    exact ⟨congrArg (Function.update · place b) h.mem, h.fresh, h.opened, h.held, h.apart, h.untouched, h.inside⟩

/-- If no open takes a slot with the copy of another partition, or a second slot for one partition, then in
every state the modem has read what it is to see. -/
theorem remote_storage (parts : Label → Option Shadow) (memPhys : Nat) (mem : Nat → U8) {es : List Event}
    (hok : Along Steady (step parts memPhys) (boot mem) es) {done rest : List Event} (hes : es = done ++ rest) :
    Faithful parts memPhys mem (run (step parts memPhys) (boot mem) done) := by
  subst hes
  have hinv := invariant_run (P := fun w => Inv parts mem w (spec parts memPhys mem w.log))
    (fun _ _ hi hg => inv_step hi hg) inv_boot hok.split.1
  exact ⟨hinv.mem, hinv.inside⟩

def twoParts : Label → Option Shadow
  | .modemst1 => some ⟨512, fun _ => 1⟩
  | .modemst2 => some ⟨512, fun _ => 2⟩
  | _ => none

def openRequest (p : String) : Event := .request false ([0, 1, 0, 1, 0, 18, 0, 1, 15, 0] ++ path p)

def closeRequest : Event := .request false [0, 2, 0, 2, 0, 7, 0, 1, 4, 0, 0, 0, 0, 0]

def readMessage : List U8 :=
  [0, 3, 0, 3, 0, 27, 0, 1, 4, 0, 0, 0, 0, 0, 2, 1, 0, 0, 3, 13, 0, 1, 0, 0, 0, 0, 0, 16, 0, 0, 1, 0, 0, 0]

def readRequest : Event := .request false readMessage

theorem remote_storage_read :
    Faithful twoParts 0x1000 (fun _ => 0) (run (step twoParts 0x1000) (boot fun _ => 0)
      [openRequest "/boot/modem_fs1", readRequest]) := by
  refine remote_storage twoParts 0x1000 _ ?_ (List.append_nil _).symm
  refine ⟨fun l _ _ i hi => ?_, fun l hl => ?_, trivial⟩
  · have hzero : (boot fun _ => 0).freeSlot = some 0 := by decide +kernel
    cases hzero.symm.trans hi
    rfl
  · have hnone : requestedLabel readMessage = none := by decide +kernel
    cases hnone.symm.trans hl

/-- The second partition opened gets the slot, and the copy, of the first. -/
theorem other_partition_read :
    ¬ Faithful twoParts 0x1000 (fun _ => 0) (run (step twoParts 0x1000) (boot fun _ => 0)
      [openRequest "/boot/modem_fs1", closeRequest, openRequest "/boot/modem_fs2", readRequest]) := by
  intro h
  have hbyte := congrFun h.1 0
  revert hbyte
  decide +kernel

end Sic.Rmtfs
