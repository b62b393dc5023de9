import Sic.Lib.Ring
import Sic.Lib.Run
import Sic.Lib.Word

/-! The pseudo-terminals of `kernel/drivers/pty.c`: a ring each way, the line under edit and the calls of the two
sides. A step is what happens under one hold of the lock. -/

namespace Sic.Ptys

def ptyBufSize : Nat := 4096

def canonSize : Nat := 512

theorem ptyBufSize_pos : 0 < ptyBufSize := by decide

/-! ### The rings -/

structure PtyRing where
  buf : Nat → U8
  head : Nat
  tail : Nat
  count : Nat
  tail_lt : tail < ptyBufSize
  count_le : count ≤ ptyBufSize
  head_eq : head = (tail + count) % ptyBufSize

def PtyRing.empty : PtyRing := ⟨fun _ => 0, 0, 0, 0, ptyBufSize_pos, Nat.zero_le _, rfl⟩

def ringSpace (r : PtyRing) : Nat := ptyBufSize - r.count

theorem PtyRing.head_push (r : PtyRing) : (r.head + 1) % ptyBufSize = (r.tail + (r.count + 1)) % ptyBufSize := by
  rw [r.head_eq, Nat.mod_add_mod, Nat.add_assoc]

theorem PtyRing.head_pop (r : PtyRing) (h : 0 < r.count) :
    r.head = ((r.tail + 1) % ptyBufSize + (r.count - 1)) % ptyBufSize := by
  rw [r.head_eq, Nat.mod_add_mod, Nat.add_assoc, Nat.add_sub_cancel' h]

def ringPush (r : PtyRing) (ch : U8) : PtyRing :=
  if h : r.count < ptyBufSize then
    ⟨Function.update r.buf r.head ch, (r.head + 1) % ptyBufSize, r.tail, r.count + 1, r.tail_lt, h, r.head_push⟩
  else r

def ringPop (r : PtyRing) (h : 0 < r.count) : U8 × PtyRing :=
  (r.buf r.tail, ⟨r.buf, r.head, (r.tail + 1) % ptyBufSize, r.count - 1, Nat.mod_lt _ ptyBufSize_pos,
    (Nat.sub_le _ _).trans r.count_le, r.head_pop h⟩)

def popLoop : Nat → PtyRing → List U8 × PtyRing
  | 0, r => ([], r)
  | n + 1, r =>
    if h : 0 < r.count then
      let (ch, r) := ringPop r h
      let (chs, r) := popLoop n r
      (ch :: chs, r)
    else ([], r)

def pushAll (r : PtyRing) (chs : List U8) : PtyRing := chs.foldl ringPush r

namespace PtyRing

variable {r : PtyRing}

def contents (r : PtyRing) : List U8 := Ring.contents ptyBufSize ⟨r.buf, r.tail, r.count⟩

@[simp]
theorem length_contents : r.contents.length = r.count := Ring.length_contents

theorem contents_ringPush (h : r.count < ptyBufSize) (ch : U8) :
    (ringPush r ch).contents = r.contents ++ [ch] := by
  rw [ringPush, dif_pos h]
  have hsnoc := Ring.contents_snoc (r := ⟨r.buf, r.tail, r.count⟩) ⟨r.tail_lt, r.count_le⟩ h ch
  rwa [← r.head_eq] at hsnoc

theorem contents_ringPop (h : 0 < r.count) : r.contents = (ringPop r h).1 :: (ringPop r h).2.contents := by
  have hn : r.count = r.count - 1 + 1 := by omega
  exact Ring.contents_cons (r := ⟨r.buf, r.tail, r.count⟩) ⟨r.tail_lt, r.count_le⟩ hn

theorem contents_popLoop (n : Nat) (r : PtyRing) :
    (popLoop n r).1 = r.contents.take n ∧ (popLoop n r).2.contents = r.contents.drop n := by
  induction n generalizing r with
  | zero => exact ⟨rfl, rfl⟩
  | succ n ih =>
    rw [popLoop]
    split
    · next h =>
      obtain ⟨htake, hdrop⟩ := ih (ringPop r h).2
      rw [contents_ringPop h, List.take_succ_cons, List.drop_succ_cons]
      exact ⟨congrArg _ htake, hdrop⟩
    · next h =>
      have hnil : r.contents = [] := List.length_eq_zero_iff.mp (by rw [length_contents]; omega)
      rw [hnil]
      exact ⟨rfl, rfl⟩

theorem count_ringPush_le (ch : U8) : r.count ≤ (ringPush r ch).count ∧ (ringPush r ch).count ≤ r.count + 1 := by
  rw [ringPush]
  split
  · exact ⟨Nat.le_succ _, Nat.le_refl _⟩
  · exact ⟨Nat.le_refl _, Nat.le_succ _⟩

theorem contents_pushAll {chs : List U8} (h : chs.length ≤ ringSpace r) :
    (pushAll r chs).contents = r.contents ++ chs := by
  induction chs generalizing r with
  | nil => exact (List.append_nil _).symm
  | cons ch chs ih =>
    rw [ringSpace, List.length_cons] at h
    have hpush := contents_ringPush (r := r) (by omega) ch
    have hspace : chs.length ≤ ringSpace (ringPush r ch) := by
      have := (count_ringPush_le (r := r) ch).2
      rw [ringSpace]
      omega
    rw [show pushAll r (ch :: chs) = pushAll (ringPush r ch) chs from rfl, ih hspace, hpush, List.append_assoc]
    rfl

end PtyRing

/-! ### A terminal -/

structure Termios where
  cIflag : U32
  cOflag : U32
  cLflag : U32
deriving DecidableEq, Repr

def Termios.icrnl (t : Termios) : Bool := t.cIflag &&& 0x100 != 0

def Termios.onlcr (t : Termios) : Bool := t.cOflag &&& 0x04 != 0

structure Pty where
  masterOpen : Bool := true
  slaveOpen : Nat := 0
  eofPending : Bool := false
  termios : Termios
  canonBuf : List U8 := []
  toSlave : PtyRing := .empty
  toMaster : PtyRing := .empty

/-- The bits of the local modes differ on powerpc. -/
def Termios.isCanon (ppc : Bool) (t : Termios) : Bool := t.cLflag &&& (if ppc then 0x100 else 0x02) != 0

def Termios.isSig (ppc : Bool) (t : Termios) : Bool := t.cLflag &&& (if ppc then 0x80 else 0x01) != 0

def Termios.isEcho (t : Termios) : Bool := t.cLflag &&& 0x08 != 0

def ptmxOpen (ppc : Bool) : Pty where
  termios := ⟨0x100, 0x5, if ppc then 0x80 ||| 0x100 ||| 0x08 else 0x01 ||| 0x02 ||| 0x08⟩

/-! ### Input -/

namespace Pty

def echoes (p : Pty) (echo : Bool) (chs : List U8) : Pty :=
  if echo then { p with toMaster := pushAll p.toMaster chs } else p

def flush (p : Pty) : Pty := { p with toSlave := pushAll p.toSlave p.canonBuf, canonBuf := [] }

def interrupts (sig : Bool) (c : U8) : Bool := sig && (c == 3 || c == 26 || c == 28)

def crToNl (icrnl : Bool) (c : U8) : U8 := if c = 13 ∧ icrnl = true then 10 else c

def erases (c : U8) : Bool := c == 8 || c == 127

/-- One turn of the loop of `ptmx_write` in canonical mode. The signal to the foreground group is left out. -/
def canonPut (sig echo : Bool) (p : Pty) (c : U8) : Pty :=
  if interrupts sig c then { p.echoes echo [94, c + 64, 10] with canonBuf := [] }
  else
    let c := crToNl p.termios.icrnl c
    if erases c then
      if p.canonBuf = [] then p else { p.echoes echo [8, 32, 8] with canonBuf := p.canonBuf.dropLast }
    else if c = 4 then if p.canonBuf ≠ [] then p.flush else { p with eofPending := true }
    else
      let p := p.echoes echo (if c = 10 then [13, 10] else [c])
      let p := if p.canonBuf.length < canonSize - 1 then { p with canonBuf := p.canonBuf ++ [c] } else p
      if c = 10 ∨ canonSize - 1 ≤ p.canonBuf.length then p.flush else p

theorem canonPut_termios (sig echo : Bool) (p : Pty) (c : U8) : (p.canonPut sig echo c).termios = p.termios := by
  simp only [canonPut, echoes, flush]
  cases echo <;> simp only [Bool.false_eq_true, if_true, if_false] <;> repeat' split
  all_goals rfl

def ptmxWrite (ppc : Bool) (p : Pty) (buf : List U8) : Pty :=
  buf.foldl (canonPut (p.termios.isSig ppc) p.termios.isEcho) p

def ptmxRaw (echo : Bool) (p : Pty) (buf : List U8) : Pty :=
  let buf := buf.take (ringSpace p.toSlave)
  { p.echoes echo buf with toSlave := pushAll p.toSlave buf }

/-! ### Output -/

def outPut (onlcr : Bool) (r : PtyRing) (c : U8) : PtyRing :=
  if c = 10 ∧ onlcr = true then
    if 2 ≤ ringSpace r then ringPush (ringPush r 13) 10 else ringPush r 10
  else ringPush r c

def chunk (p : Pty) (buf : List U8) (done : Nat) : List U8 :=
  (buf.drop done).take (ringSpace p.toMaster)

def outPuts (p : Pty) (buf : List U8) : Pty :=
  { p with toMaster := buf.foldl (outPut p.termios.onlcr) p.toMaster }

end Pty

inductive Answer where
  | wrote (n : Nat)
  | eio
  | eagain
  | eintr
deriving DecidableEq, Repr

def Answer.count : Answer → Nat
  | .wrote n => n
  | .eio | .eagain | .eintr => 0

inductive Full where
  | nonblock
  | interrupted
  | woken
deriving DecidableEq, Repr

def wroteOr (done : Nat) (a : Answer) : Answer := if done ≠ 0 then .wrote done else a

/-- What the slave's reads give: a byte, or an end of file that was typed. -/
inductive Item where
  | byte (c : U8)
  | eof
deriving DecidableEq, Repr

/-! ### The calls of both sides -/

structure Wrote where
  onlcr : Bool
  buf : List U8
  answer : Answer
deriving DecidableEq, Repr

structure Mode where
  sig : Bool
  icrnl : Bool
deriving DecidableEq, Repr

/-- `call` is the `pts_write` under way and how far it is; what follows is what the two sides have seen. -/
structure State where
  pty : Pty
  call : Option (List U8 × Nat) := none
  read : List U8 := []
  wrote : List Wrote := []
  accepted : List (Mode × U8) := []
  seen : List Item := []

inductive Event where
  | ptsOpen
  | ptsRelease
  | ptmxRelease
  | tcsets (t : Termios)
  | ptmxRead (len : Nat)
  | ptmxWrite (buf : List U8)
  | ptmxRaw (buf : List U8) (echo : Bool)
  | ptsRead (len : Nat)
  | ptsWrite (buf : List U8)
  | ptsRound (full : Full)
deriving DecidableEq, Repr

namespace State

def answer (s : State) (buf : List U8) (a : Answer) : State :=
  { s with call := none, wrote := s.wrote ++ [⟨s.pty.termios.onlcr, buf, a⟩] }

def ptsRound (s : State) (buf : List U8) (done : Nat) (full : Full) : State :=
  if done < buf.length then
    if s.pty.masterOpen = false then s.answer buf (wroteOr done .eio)
    else if 0 < ringSpace s.pty.toMaster then
      let xs := s.pty.chunk buf done
      { s with pty := s.pty.outPuts xs, call := some (buf, done + xs.length) }
    else
      match full with
      | .nonblock => s.answer buf (wroteOr done .eagain)
      | .interrupted => s.answer buf (wroteOr done .eintr)
      | .woken => s
  else s.answer buf (.wrote done)

def ptmxRead (s : State) (len : Nat) : State :=
  let (xs, r) := popLoop len s.pty.toMaster
  { s with pty := { s.pty with toMaster := r }, read := s.read ++ xs }

def ptsRead (s : State) (len : Nat) : State :=
  if len = 0 then s
  else if 0 < s.pty.toSlave.count then
    let (xs, r) := popLoop len s.pty.toSlave
    { s with pty := { s.pty with toSlave := r }, seen := s.seen ++ xs.map .byte }
  else if s.pty.eofPending then
    { s with pty := { s.pty with eofPending := false }, seen := s.seen ++ [.eof] }
  else s

def ptmxWrite (ppc : Bool) (s : State) (buf : List U8) : State :=
  let t := s.pty.termios
  if s.pty.slaveOpen = 0 ∨ t.isCanon ppc = false then s
  else { s with pty := s.pty.ptmxWrite ppc buf, accepted := s.accepted ++ buf.map (⟨t.isSig ppc, t.icrnl⟩, ·) }

end State

def step (ppc : Bool) (s : State) : Event → State
  | .ptsOpen => { s with pty := { s.pty with slaveOpen := s.pty.slaveOpen + 1 } }
  | .ptsRelease => { s with pty := { s.pty with slaveOpen := s.pty.slaveOpen - 1 } }
  | .ptmxRelease => { s with pty := { s.pty with masterOpen := false } }
  | .tcsets t => { s with pty := { s.pty with termios := t } }
  | .ptmxRead len => s.ptmxRead len
  | .ptmxWrite buf => s.ptmxWrite ppc buf
  | .ptmxRaw buf echo => if s.pty.slaveOpen = 0 then s else { s with pty := s.pty.ptmxRaw echo buf }
  | .ptsRead len => s.ptsRead len
  | .ptsWrite buf => if s.call.isSome then s else { s with call := some (buf, 0) }
  | .ptsRound full =>
    match s.call with
    | none => s
    | some (buf, done) => s.ptsRound buf done full

def opened (ppc : Bool) : State where
  pty := ptmxOpen ppc

end Sic.Ptys
