import Sic.Drivers.Pty

/-! What the slave of a terminal reads in canonical mode against a line editor without bounds. The code edits in a
bounded line, passes lines on through a bounded ring and keeps an end of file as a flag beside it. -/

namespace Sic.Ptys

/-! ### The line editor -/

structure Editor where
  line : List U8 := []
  out : List Item := []
deriving DecidableEq, Repr

namespace Editor

def pass (e : Editor) : Editor := ⟨[], e.out ++ e.line.map .byte⟩

def put (e : Editor) (m : Mode) (c : U8) : Editor :=
  if Pty.interrupts m.sig c then { e with line := [] }
  else
    let c := Pty.crToNl m.icrnl c
    if Pty.erases c then { e with line := e.line.dropLast }
    else if c = 4 then if e.line = [] then { e with out := e.out ++ [.eof] } else e.pass
    else
      let e := { e with line := e.line ++ [c] }
      if c = 10 then e.pass else e

def edit (input : List (Mode × U8)) : Editor := input.foldl (fun e x => e.put x.1 x.2) {}

end Editor

/-! ### The code against the editor -/

namespace Pty

def awaiting (p : Pty) : List Item := p.toSlave.contents.map .byte ++ if p.eofPending then [.eof] else []

/-- The next byte does not pass on more than the ring has room for, nothing is passed on behind an end of file
that has not been read, and the line does not fill up before its end. -/
def room (sig : Bool) (p : Pty) (c : U8) : Bool :=
  let d := crToNl p.termios.icrnl c
  interrupts sig c || erases d ||
    if d = 4 then !p.eofPending && decide (p.canonBuf.length ≤ ringSpace p.toSlave)
    else if d = 10 then !p.eofPending && decide (p.canonBuf.length + 1 ≤ ringSpace p.toSlave)
    else decide (p.canonBuf.length + 2 < canonSize)

end Pty

theorem one_lt_canonSize : 0 + 1 < canonSize := by decide

structure Agree (seen : List Item) (p : Pty) (e : Editor) : Prop where
  out : seen ++ p.awaiting = e.out
  line : p.canonBuf = e.line
  short : p.canonBuf.length + 1 < canonSize

variable {seen : List Item} {p : Pty} {e : Editor} {c : U8}

theorem Agree.pass {line : List U8} (h : seen ++ p.awaiting = e.out) (hp : p.canonBuf = line) (he : e.line = line)
    (heof : p.eofPending = false) (hroom : line.length ≤ ringSpace p.toSlave) : Agree seen p.flush e.pass where
  out := by
    rw [Pty.awaiting, heof] at h
    rw [Pty.awaiting, Editor.pass, Pty.flush, ← h, he]
    dsimp only
    rw [heof, hp, PtyRing.contents_pushAll hroom, List.map_append]
    simp only [Bool.false_eq_true, if_false, List.append_nil, List.append_assoc]
  line := rfl
  short := one_lt_canonSize

theorem Pty.awaiting_echoes (p : Pty) (echo : Bool) (chs : List U8) :
    (p.echoes echo chs).awaiting = p.awaiting ∧ (p.echoes echo chs).canonBuf = p.canonBuf ∧
      (p.echoes echo chs).toSlave = p.toSlave ∧ (p.echoes echo chs).eofPending = p.eofPending := by
  rw [echoes]
  split <;> exact ⟨rfl, rfl, rfl, rfl⟩

theorem canonPut_agree {sig : Bool} (echo : Bool) (h : Agree seen p e) (hroom : p.room sig c = true) :
    Agree seen (p.canonPut sig echo c) (e.put ⟨sig, p.termios.icrnl⟩ c) := by
  have hshort := h.short
  simp only [Pty.canonPut, Editor.put, Pty.room] at hroom ⊢
  by_cases hint : Pty.interrupts sig c = true
  · obtain ⟨hout, -⟩ := p.awaiting_echoes echo [94, c + 64, 10]
    rw [if_pos hint, if_pos hint]
    exact ⟨(congrArg (seen ++ ·) hout).trans h.out, rfl, one_lt_canonSize⟩
  rw [if_neg hint, if_neg hint]
  rw [Bool.not_eq_true] at hint
  generalize Pty.crToNl p.termios.icrnl c = d at hroom ⊢
  by_cases hera : Pty.erases d = true
  · rw [if_pos hera, if_pos hera]
    by_cases hnil : p.canonBuf = []
    · rw [if_pos hnil]
      exact ⟨h.out, by rw [← h.line, hnil]; rfl, hshort⟩
    obtain ⟨hout, -⟩ := p.awaiting_echoes echo [8, 32, 8]
    rw [if_neg hnil]
    refine ⟨(congrArg (seen ++ ·) hout).trans h.out, congrArg _ h.line, ?_⟩
    rw [List.length_dropLast]
    omega
  rw [if_neg hera, if_neg hera]
  rw [Bool.not_eq_true] at hera
  rw [hint, hera, Bool.false_or, Bool.false_or] at hroom
  by_cases h4 : d = 4
  · rw [if_pos h4, if_pos h4]
    rw [if_pos h4, Bool.and_eq_true, Bool.not_eq_true', decide_eq_true_iff] at hroom
    obtain ⟨heof, hroom⟩ := hroom
    by_cases hnil : p.canonBuf = []
    · rw [if_neg (not_not.mpr hnil), if_pos (h.line.symm.trans hnil)]
      refine ⟨?_, h.line, hshort⟩
      have hout := h.out
      rw [Pty.awaiting, heof] at hout
      simp only [Bool.false_eq_true, if_false, List.append_nil] at hout
      simp only [Pty.awaiting, if_true, ← hout, List.append_assoc]
    · rw [if_pos hnil, if_neg fun hn => hnil (h.line.trans hn)]
      exact .pass h.out rfl h.line.symm heof hroom
  rw [if_neg h4, if_neg h4]
  rw [if_neg h4] at hroom
  obtain ⟨hout, hline, hring, heof⟩ := p.awaiting_echoes echo (if d = 10 then [13, 10] else [d])
  generalize p.echoes echo (if d = 10 then [13, 10] else [d]) = q at hout hline hring heof ⊢
  rw [if_pos (show q.canonBuf.length < canonSize - 1 by rw [hline]; omega)]
  have hout' : seen ++ q.awaiting = e.out := (congrArg (seen ++ ·) hout).trans h.out
  have hline' : q.canonBuf ++ [d] = e.line ++ [d] := by rw [hline, h.line]
  by_cases h10 : d = 10
  · rw [if_pos h10, Bool.and_eq_true, Bool.not_eq_true', decide_eq_true_iff] at hroom
    rw [if_pos (.inl h10), if_pos h10]
    refine Agree.pass hout' hline' rfl (heof.trans hroom.1) ?_
    rw [List.length_append, ← h.line]
    exact hring ▸ hroom.2
  · rw [if_neg h10, decide_eq_true_iff] at hroom
    have hlen : (q.canonBuf ++ [d]).length = p.canonBuf.length + 1 := by rw [hline, List.length_append]; rfl
    have hgo : ¬ (d = 10 ∨ canonSize - 1 ≤ (q.canonBuf ++ [d]).length) := not_or.mpr ⟨h10, by omega⟩
    rw [if_neg h10, if_neg hgo]
    exact ⟨hout', hline', by dsimp only; omega⟩

/-! ### Runs -/

def Canonical (ppc : Bool) : Event → Prop
  | .tcsets t => t.isCanon ppc = true
  | .ptmxRaw _ _ => False
  | _ => True

def Roomy (ppc : Bool) (s : State) : Event → Prop
  | .ptmxWrite buf => s.pty.slaveOpen ≠ 0 →
      let sig := s.pty.termios.isSig ppc
      Along (fun p c => p.room sig c = true) (Pty.canonPut sig s.pty.termios.isEcho) s.pty buf
  | _ => True

theorem ptmxWrite_agree {sig echo : Bool} {buf : List U8} (h : Agree seen p e)
    (hroom : Along (fun p c => p.room sig c = true) (Pty.canonPut sig echo) p buf) :
    Agree seen (buf.foldl (Pty.canonPut sig echo) p)
      ((buf.map (⟨sig, p.termios.icrnl⟩, ·)).foldl (fun e (x : Mode × U8) => e.put x.1 x.2) e) := by
  induction buf generalizing p e with
  | nil => exact h
  | cons c buf ih =>
    obtain ⟨hc, hrest⟩ := hroom
    have hnext := ih (canonPut_agree echo h hc) hrest
    rwa [Pty.canonPut_termios] at hnext

theorem ptsRead_agree {s : State} (len : Nat) (h : Agree s.seen s.pty e) :
    Agree (s.ptsRead len).seen (s.ptsRead len).pty e := by
  unfold State.ptsRead
  split
  · exact h
  split
  · obtain ⟨htake, hdrop⟩ := PtyRing.contents_popLoop len s.pty.toSlave
    refine ⟨?_, h.line, h.short⟩
    rw [← h.out, Pty.awaiting, Pty.awaiting]
    dsimp only
    rw [htake, hdrop, List.append_assoc, ← List.append_assoc (List.map _ _), ← List.map_append,
      List.take_append_drop]
  · next hcount =>
    have hnil : s.pty.toSlave.contents = [] :=
      List.length_eq_zero_iff.mp (by rw [PtyRing.length_contents]; omega)
    split
    · next heof =>
      refine ⟨?_, h.line, h.short⟩
      rw [← h.out, Pty.awaiting, Pty.awaiting]
      dsimp only
      rw [hnil, heof]
      simp
    · exact h

theorem ptsRound_input {s : State} (buf : List U8) (done : Nat) (full : Full) (h : Agree s.seen s.pty e) :
    Agree (s.ptsRound buf done full).seen (s.ptsRound buf done full).pty e ∧
      (s.ptsRound buf done full).accepted = s.accepted := by
  have hanswer (a : Answer) : Agree (s.answer buf a).seen (s.answer buf a).pty e := ⟨h.out, h.line, h.short⟩
  unfold State.ptsRound
  split
  · split
    · exact ⟨hanswer _, rfl⟩
    · split
      · exact ⟨⟨h.out, h.line, h.short⟩, rfl⟩
      · cases full with
        | nonblock => exact ⟨hanswer _, rfl⟩
        | interrupted => exact ⟨hanswer _, rfl⟩
        | woken => exact ⟨h, rfl⟩
  · exact ⟨hanswer _, rfl⟩

theorem step_agree {ppc : Bool} {s : State} {ev : Event} (h : Agree s.seen s.pty (Editor.edit s.accepted))
    (hok : Canonical ppc ev ∧ Roomy ppc s ev) :
    Agree (step ppc s ev).seen (step ppc s ev).pty (Editor.edit (step ppc s ev).accepted) := by
  obtain ⟨hcanon, hroom⟩ := hok
  cases ev with
  | ptsOpen => exact ⟨h.out, h.line, h.short⟩
  | ptsRelease => exact ⟨h.out, h.line, h.short⟩
  | ptmxRelease => exact ⟨h.out, h.line, h.short⟩
  | tcsets t => exact ⟨h.out, h.line, h.short⟩
  | ptmxRead len => exact ⟨h.out, h.line, h.short⟩
  | ptmxWrite buf =>
    simp only [step, State.ptmxWrite]
    split
    · exact h
    next hopen =>
    rw [not_or] at hopen
    simp only [Editor.edit, List.foldl_append]
    exact ptmxWrite_agree h (hroom hopen.1)
  | ptmxRaw buf echo => exact hcanon.elim
  | ptsRead len =>
    have haccepted : (s.ptsRead len).accepted = s.accepted := by
      unfold State.ptsRead
      repeat' split
      all_goals rfl
    simp only [step, haccepted]
    exact ptsRead_agree len h
  | ptsWrite buf =>
    simp only [step]
    split
    · exact h
    · exact ⟨h.out, h.line, h.short⟩
  | ptsRound full =>
    simp only [step]
    split
    · exact h
    next buf done hcall =>
    obtain ⟨hagree, haccepted⟩ := ptsRound_input buf done full h
    rw [haccepted]
    exact hagree

/-- In every run of a terminal in canonical mode whose writes find room, what the slave has read and what it has
still to read is the edited input. -/
theorem canonical_input (ppc : Bool) (es : List Event)
    (h : Along (fun s e => Canonical ppc e ∧ Roomy ppc s e) (step ppc) (opened ppc) es) :
    let s := run (step ppc) (opened ppc) es
    s.seen ++ s.pty.awaiting = (Editor.edit s.accepted).out :=
  have hopened : Agree (opened ppc).seen (opened ppc).pty (Editor.edit (opened ppc).accepted) :=
    ⟨rfl, rfl, one_lt_canonSize⟩
  (invariant_run (P := fun s => Agree s.seen s.pty (Editor.edit s.accepted))
    (fun _ _ => step_agree) hopened h).out

theorem canonical_input_line :
    let es : List Event := [.ptsOpen, .ptmxWrite [97, 98, 127, 13], .ptsRead 1, .ptmxWrite [4], .ptsRead 8,
      .ptsRead 8]
    let s := run (step false) (opened false) es
    Along (fun s e => Canonical false e ∧ Roomy false s e) (step false) (opened false) es ∧
      s.seen ++ s.pty.awaiting = (Editor.edit s.accepted).out := by
  have h : Along (fun s e => Canonical false e ∧ Roomy false s e) (step false) (opened false)
      [.ptsOpen, .ptmxWrite [97, 98, 127, 13], .ptsRead 1, .ptmxWrite [4], .ptsRead 8, .ptsRead 8] := by
    refine ⟨⟨trivial, trivial⟩, ⟨trivial, fun _ => ?_⟩, ⟨trivial, trivial⟩, ⟨trivial, fun _ => ?_⟩,
      ⟨trivial, trivial⟩, ⟨trivial, trivial⟩, trivial⟩
    · decide +kernel
    · decide +kernel
  exact ⟨h, canonical_input false _ h⟩

theorem edit_lines (m : Mode) (n : Nat) {out : List Item} :
    (((List.replicate n [97, 10]).flatten.map (m, ·)).foldl
      (fun (e : Editor) (x : Mode × U8) => e.put x.1 x.2) ⟨[], out⟩).out.length = out.length + 2 * n := by
  have hput (out : List Item) : (Editor.put ⟨[], out⟩ m 97).put m 10 = ⟨[], out ++ [.byte 97, .byte 10]⟩ := by
    have hint (c : U8) (hc : (c == 3 || c == 26 || c == 28) = false) : Pty.interrupts m.sig c = false := by
      rw [Pty.interrupts, hc, Bool.and_false]
    simp [Editor.put, hint, Pty.crToNl, Pty.erases, Editor.pass]
  induction n generalizing out with
  | zero => rfl
  | succ n ih =>
    rw [List.replicate_succ, List.flatten_cons, List.map_append, List.foldl_append]
    simp only [List.map_cons, List.map_nil, List.foldl_cons, List.foldl_nil, hput, ih, List.length_append,
      List.length_cons, List.length_nil]
    omega

theorem accepted_firstWrite (buf : List U8) :
    (run (step false) (opened false) [.ptsOpen, .ptmxWrite buf]).accepted = buf.map (⟨true, true⟩, ·) := by
  have hmode : (opened false).pty.termios.isCanon false = true ∧ (opened false).pty.termios.isSig false = true ∧
      (opened false).pty.termios.icrnl = true := by decide
  simp only [run, List.foldl_cons, List.foldl_nil, step, State.ptmxWrite, hmode, Nat.succ_ne_zero,
    Bool.true_eq_false, or_self, if_false]
  rfl

/-- An end of file typed before a line is read behind it, of two one is left, and of 5000 bytes in short lines,
all counted as written, the slave can read no more than the ring holds. -/
theorem input_reordered :
    let write (buf : List U8) := run (step false) (opened false) [.ptsOpen, .ptmxWrite buf]
    let twice (s : State) := (s.ptsRead 16).ptsRead 16
    let lines := (List.replicate 2500 [97, 10]).flatten
    ((twice (write [4, 97, 10])).seen = [.byte 97, .byte 10, .eof] ∧
      (Editor.edit (write [4, 97, 10]).accepted).out = [.eof, .byte 97, .byte 10]) ∧
    ((twice (write [4, 4])).seen = [.eof] ∧ (Editor.edit (write [4, 4]).accepted).out = [.eof, .eof]) ∧
    (Editor.edit (write lines).accepted).out.length = 5000 ∧ (write lines).pty.toSlave.count ≤ 4096 := by
  refine ⟨by decide +kernel, by decide +kernel, ?_, PtyRing.count_le _⟩
  rw [accepted_firstWrite]
  exact edit_lines ⟨true, true⟩ 2500

end Sic.Ptys
