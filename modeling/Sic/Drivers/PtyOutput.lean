import Sic.Drivers.Pty

/-! What the master of a terminal reads against what the slave was told it wrote. A round of `pts_write` takes
as many bytes as the ring has room for, and newline translation can make two of one. -/

namespace Sic.Ptys

def translate (onlcr : Bool) (buf : List U8) : List U8 :=
  buf.flatMap fun c => if c = 10 ∧ onlcr = true then [13, 10] else [c]

theorem translate_append (onlcr : Bool) (xs ys : List U8) :
    translate onlcr (xs ++ ys) = translate onlcr xs ++ translate onlcr ys := List.flatMap_append

/-! ### The inner loop -/

theorem count_outPut_le (onlcr : Bool) (r : PtyRing) (c : U8) :
    (Pty.outPut onlcr r c).count ≤ r.count + (translate onlcr [c]).length := by
  have hpush (r : PtyRing) (c : U8) := (PtyRing.count_ringPush_le (r := r) c).2
  simp only [translate, List.flatMap_cons, List.flatMap_nil, List.append_nil, Pty.outPut]
  split
  · split
    · have h1 := hpush r 13
      have h2 := hpush (ringPush r 13) 10
      simp only [List.length_cons, List.length_nil]
      omega
    · have h1 := hpush r 10
      simp only [List.length_cons, List.length_nil]
      omega
  · exact hpush r c

theorem contents_outPut {onlcr : Bool} {r : PtyRing} {c : U8} (h : (translate onlcr [c]).length ≤ ringSpace r) :
    (Pty.outPut onlcr r c).contents = r.contents ++ translate onlcr [c] := by
  simp only [translate, List.flatMap_cons, List.flatMap_nil, List.append_nil] at h ⊢
  rw [Pty.outPut]
  split at h
  · next hc =>
    rw [if_pos hc, if_pos hc, if_pos (show 2 ≤ ringSpace r from h)]
    exact PtyRing.contents_pushAll (show [13, 10].length ≤ ringSpace r from h)
  · next hc =>
    rw [if_neg hc, if_neg hc]
    exact PtyRing.contents_pushAll (show [c].length ≤ ringSpace r from h)

theorem count_outPuts_le (onlcr : Bool) (xs : List U8) (r : PtyRing) :
    (xs.foldl (Pty.outPut onlcr) r).count ≤ r.count + (translate onlcr xs).length := by
  induction xs generalizing r with
  | nil => exact Nat.le_add_right ..
  | cons c xs ih =>
    have hone := count_outPut_le onlcr r c
    have hrest := ih (Pty.outPut onlcr r c)
    rw [← List.singleton_append, translate_append, List.length_append, List.singleton_append, List.foldl_cons]
    omega

theorem contents_outPuts {onlcr : Bool} {xs : List U8} {r : PtyRing}
    (h : (translate onlcr xs).length ≤ ringSpace r) :
    (xs.foldl (Pty.outPut onlcr) r).contents = r.contents ++ translate onlcr xs := by
  induction xs generalizing r with
  | nil => exact (List.append_nil _).symm
  | cons c xs ih =>
    rw [← List.singleton_append, translate_append, List.length_append, ringSpace] at h
    have hcount := count_outPut_le onlcr r c
    rw [List.foldl_cons, ih (by rw [ringSpace]; omega), contents_outPut (by rw [ringSpace]; omega),
      List.append_assoc, ← translate_append, List.singleton_append]

/-! ### What the slave was told -/

namespace State

def told (s : State) : List U8 :=
  s.wrote.flatMap (fun w => translate w.onlcr (w.buf.take w.answer.count)) ++
    match s.call with
    | none => []
    | some (buf, done) => translate s.pty.termios.onlcr (buf.take done)

def output (s : State) : List U8 := s.read ++ s.pty.toMaster.contents

variable {s : State} {buf : List U8} {done : Nat}

theorem told_answer {a : Answer} (h : s.call = some (buf, done)) (ha : a.count = done) :
    (s.answer buf a).told = s.told := by
  simp only [told, answer, h, List.flatMap_append, List.flatMap_cons, List.flatMap_nil, List.append_nil, ha]

theorem count_wroteOr {a : Answer} (h : a.count = 0) : (wroteOr done a).count = done := by
  rw [wroteOr]
  split
  · rfl
  · next hd => rw [h, not_not.mp hd]

theorem told_chunk (h : s.call = some (buf, done)) :
    told { s with
      pty := s.pty.outPuts (s.pty.chunk buf done)
      call := some (buf, done + (s.pty.chunk buf done).length) } =
      s.told ++ translate s.pty.termios.onlcr (s.pty.chunk buf done) := by
  have htake : buf.take (done + (s.pty.chunk buf done).length) = buf.take done ++ s.pty.chunk buf done := by
    rw [List.take_add, Pty.chunk, List.length_take]
    congr 1
    rw [List.take_eq_take_iff]
    omega
  simp only [told, h, htake, Pty.outPuts, translate_append, List.append_assoc]

end State

/-! ### Runs -/

/-- Echo is off, and the modes do not change the translation of a write under way. -/
def Quiet (s : State) : Event → Prop
  | .tcsets t => s.call = none ∨ t.onlcr = s.pty.termios.onlcr
  | .ptmxWrite _ => s.pty.termios.isEcho = false
  | .ptmxRaw _ echo => echo = false
  | _ => True

/-- What a round takes has room once it is translated. -/
def Fits (s : State) : Event → Prop
  | .ptsRound _ => ∀ c ∈ s.call, s.pty.masterOpen = true →
      (translate s.pty.termios.onlcr (s.pty.chunk c.1 c.2)).length ≤ ringSpace s.pty.toMaster
  | _ => True

def Exact (s : State) : Prop := s.output = s.told

def Behind (s : State) : Prop := s.output.length < s.told.length

theorem canonPut_toMaster (sig : Bool) (p : Pty) (c : U8) : (p.canonPut sig false c).toMaster = p.toMaster := by
  simp only [Pty.canonPut, Pty.echoes, Pty.flush, Bool.false_eq_true, if_false]
  repeat' split
  all_goals rfl

variable {ppc : Bool} {s : State} {e : Event}

theorem ptmxWrite_output (buf : List U8) (h : s.pty.termios.isEcho = false) :
    (s.ptmxWrite ppc buf).output = s.output ∧ (s.ptmxWrite ppc buf).told = s.told := by
  rw [State.ptmxWrite]
  split
  · exact ⟨rfl, rfl⟩
  have hkeep : (s.pty.ptmxWrite ppc buf).toMaster = s.pty.toMaster ∧
      (s.pty.ptmxWrite ppc buf).termios = s.pty.termios := by
    rw [Pty.ptmxWrite, h]
    refine invariant_foldl (P := fun p : Pty => p.toMaster = s.pty.toMaster ∧ p.termios = s.pty.termios) ?_ buf
      ⟨rfl, rfl⟩
    intro p c hp
    exact ⟨(canonPut_toMaster _ p c).trans hp.1, (Pty.canonPut_termios _ _ p c).trans hp.2⟩
  simp only [State.output, State.told, hkeep, and_self]

theorem ptmxRead_output (s : State) (len : Nat) : (s.ptmxRead len).output = s.output := by
  obtain ⟨htake, hdrop⟩ := PtyRing.contents_popLoop len s.pty.toMaster
  simp only [State.output, State.ptmxRead, htake, hdrop, List.append_assoc, List.take_append_drop]

theorem step_keeps (ppc : Bool) (hq : Quiet s e) (he : ∀ full, e ≠ .ptsRound full) :
    (step ppc s e).output = s.output ∧ (step ppc s e).told = s.told := by
  cases e with
  | ptsOpen => exact ⟨rfl, rfl⟩
  | ptsRelease => exact ⟨rfl, rfl⟩
  | ptmxRelease => exact ⟨rfl, rfl⟩
  | tcsets t =>
    refine ⟨rfl, ?_⟩
    rcases hq with hq | hq
    · simp only [step, State.told, hq]
    · simp only [step, State.told, hq]
  | ptmxRead len => exact ⟨ptmxRead_output s len, rfl⟩
  | ptmxWrite buf => exact ptmxWrite_output buf hq
  | ptmxRaw buf echo =>
    cases (hq : echo = false)
    simp only [step]
    split <;> exact ⟨rfl, rfl⟩
  | ptsRead len =>
    simp only [step, State.ptsRead]
    repeat' split
    all_goals exact ⟨rfl, rfl⟩
  | ptsWrite buf =>
    simp only [step]
    split
    · exact ⟨rfl, rfl⟩
    next hnone =>
    have hcall : s.call = none := by simpa using hnone
    refine ⟨rfl, ?_⟩
    simp only [State.told, hcall, List.take_zero]
    rfl
  | ptsRound full => exact absurd rfl (he full)

theorem ptsRound_cases {buf : List U8} {done : Nat} (h : s.call = some (buf, done)) (full : Full) :
    ((s.ptsRound buf done full).output = s.output ∧ (s.ptsRound buf done full).told = s.told ∧
        Fits s (.ptsRound full)) ∨
      (s.pty.masterOpen = true ∧
        s.ptsRound buf done full = { s with
          pty := s.pty.outPuts (s.pty.chunk buf done)
          call := some (buf, done + (s.pty.chunk buf done).length) }) := by
  have hfits (hnil : s.pty.masterOpen = true → s.pty.chunk buf done = []) : Fits s (.ptsRound full) := by
    intro c hc hopen
    obtain rfl : (buf, done) = c := Option.some.inj (h.symm.trans hc)
    simp only [hnil hopen]
    exact Nat.zero_le _
  unfold State.ptsRound
  split
  · split
    · next hclosed =>
      have hf := hfits fun hopen => absurd (hclosed.symm.trans hopen) Bool.false_ne_true
      exact .inl ⟨rfl, State.told_answer h (State.count_wroteOr rfl), hf⟩
    · next hopen =>
      split
      · exact .inr ⟨by simpa using hopen, rfl⟩
      next hroom =>
      have hf := hfits fun _ => by rw [Pty.chunk, Nat.eq_zero_of_not_pos hroom, List.take_zero]
      cases full with
      | nonblock => exact .inl ⟨rfl, State.told_answer h (State.count_wroteOr rfl), hf⟩
      | interrupted => exact .inl ⟨rfl, State.told_answer h (State.count_wroteOr rfl), hf⟩
      | woken => exact .inl ⟨rfl, rfl, hf⟩
  · next hdone =>
    have hf := hfits fun _ => by rw [Pty.chunk, List.drop_eq_nil_of_le (by omega), List.take_nil]
    exact .inl ⟨rfl, State.told_answer h rfl, hf⟩

theorem step_exact (hq : Quiet s e) (h : Exact s) (hfit : Fits s e) : Exact (step ppc s e) := by
  by_cases he : ∃ full, e = .ptsRound full
  · obtain ⟨full, rfl⟩ := he
    cases hcall : s.call with
    | none => simpa only [step, hcall] using h
    | some c =>
      obtain ⟨buf, done⟩ := c
      simp only [step, hcall]
      rcases ptsRound_cases hcall full with ⟨hout, htold, -⟩ | ⟨hopen, heq⟩
      · exact hout.trans (h.trans htold.symm)
      · rw [heq, Exact, State.told_chunk hcall, ← h, State.output, State.output, List.append_assoc]
        exact congrArg _ (contents_outPuts (hfit _ hcall hopen))
  · obtain ⟨hout, htold⟩ := step_keeps ppc hq fun full hf => he ⟨full, hf⟩
    exact hout.trans (h.trans htold.symm)

theorem step_length (ppc : Bool) (hq : Quiet s e) (h : s.output.length ≤ s.told.length) :
    (step ppc s e).output.length + (s.told.length - s.output.length) ≤ (step ppc s e).told.length ∧
      (¬ Fits s e → Behind (step ppc s e)) := by
  by_cases he : ∃ full, e = .ptsRound full
  · obtain ⟨full, rfl⟩ := he
    cases hcall : s.call with
    | none =>
      simp only [step, hcall]
      refine ⟨by omega, fun hn => absurd ?_ hn⟩
      intro c hc
      rw [hcall] at hc
      cases hc
    | some c =>
      obtain ⟨buf, done⟩ := c
      simp only [step, hcall]
      rcases ptsRound_cases hcall full with ⟨hout, htold, hfit⟩ | ⟨hopen, heq⟩
      · rw [hout, htold]
        exact ⟨by omega, fun hn => absurd hfit hn⟩
      have hcount := count_outPuts_le s.pty.termios.onlcr (s.pty.chunk buf done) s.pty.toMaster
      have hle := ((s.pty.chunk buf done).foldl (Pty.outPut s.pty.termios.onlcr) s.pty.toMaster).count_le
      have hlen : s.output.length = s.read.length + s.pty.toMaster.count := by
        rw [State.output, List.length_append, PtyRing.length_contents]
      rw [heq, Behind, State.told_chunk hcall, State.output, List.length_append, List.length_append,
        PtyRing.length_contents]
      simp only [Pty.outPuts]
      refine ⟨by omega, fun hn => ?_⟩
      have hover : ringSpace s.pty.toMaster < (translate s.pty.termios.onlcr (s.pty.chunk buf done)).length := by
        by_contra hfit
        refine hn fun c hc _ => ?_
        obtain rfl : (buf, done) = c := Option.some.inj (hcall.symm.trans hc)
        exact Nat.le_of_not_lt hfit
      rw [ringSpace] at hover
      omega
  · obtain ⟨hout, htold⟩ := step_keeps ppc hq fun full hf => he ⟨full, hf⟩
    rw [hout, htold]
    refine ⟨by omega, fun hn => absurd ?_ hn⟩
    cases e with
    | ptsRound full => exact absurd ⟨full, rfl⟩ he
    | _ => trivial

theorem run_behind {es : List Event} (hq : Along Quiet (step ppc) s es) (h : Behind s) :
    Behind (run (step ppc) s es) :=
  invariant_run (fun s e hs hq => by
    have hlen := (step_length ppc hq (Nat.le_of_lt hs)).1
    rw [Behind] at hs ⊢
    omega) h hq

theorem run_exact_iff {es : List Event} (hq : Along Quiet (step ppc) s es) (h : Exact s) :
    Exact (run (step ppc) s es) ↔ Along Fits (step ppc) s es := by
  induction es generalizing s with
  | nil => exact iff_of_true h trivial
  | cons e es ih =>
    obtain ⟨he, hrest⟩ := hq
    by_cases hfit : Fits s e
    · exact (ih hrest (step_exact he h hfit)).trans (and_iff_right hfit).symm
    have hlen : s.output.length ≤ s.told.length := by rw [h]
    have hbehind := run_behind hrest ((step_length ppc he hlen).2 hfit)
    refine iff_of_false (fun hexact => ?_) fun hall => hfit hall.1
    rw [Behind, show (run (step ppc) (step ppc s e) es).output = _ from hexact] at hbehind
    exact absurd hbehind (Nat.lt_irrefl _)

/-- In every run with echo off, the master's reads and what is left for it are the translated bytes that the
slave's writes have reported exactly if every round of a write finds room for its bytes once they are
translated. -/
theorem output_exact_iff (ppc : Bool) (es : List Event) (hq : Along Quiet (step ppc) (opened ppc) es) :
    (run (step ppc) (opened ppc) es).output = (run (step ppc) (opened ppc) es).told ↔
      Along Fits (step ppc) (opened ppc) es := run_exact_iff hq rfl

theorem output_exact_iff_line :
    let es : List Event := [.ptsWrite [97, 10], .ptsRound .woken, .ptsRound .woken, .ptmxRead 8]
    Along Quiet (step false) (opened false) es ∧
      ((run (step false) (opened false) es).output = (run (step false) (opened false) es).told ↔
        Along Fits (step false) (opened false) es) :=
  have hq := ⟨trivial, trivial, trivial, trivial, trivial⟩
  ⟨hq, output_exact_iff false _ hq⟩

theorem length_translate_replicate (n : Nat) : (translate true (List.replicate n 10)).length = 2 * n := by
  induction n with
  | zero => rfl
  | succ n ih =>
    rw [List.replicate_succ, ← List.singleton_append, translate_append, List.length_append, ih]
    change 2 + 2 * n = 2 * (n + 1)
    omega

theorem run_firstWrite {buf : List U8} (hpos : 0 < buf.length) (hle : buf.length ≤ ptyBufSize) :
    let s := run (step false) (opened false) [.ptsWrite buf, .ptsRound .woken, .ptsRound .woken]
    s.wrote = [⟨true, buf, .wrote buf.length⟩] ∧ s.call = none ∧ s.read = [] := by
  have hchunk : (ptmxOpen false).chunk buf 0 = buf := by
    rw [Pty.chunk, List.drop_zero]
    exact List.take_of_length_le hle
  have hfirst : step false ⟨ptmxOpen false, some (buf, 0), [], [], [], []⟩ (.ptsRound .woken) =
      ⟨(ptmxOpen false).outPuts buf, some (buf, buf.length), [], [], [], []⟩ := by
    simp only [step, State.ptsRound, hpos, if_true, hchunk, Nat.zero_add]
    rfl
  have hrun : run (step false) (opened false) [.ptsWrite buf, .ptsRound .woken, .ptsRound .woken] =
      step false (step false ⟨ptmxOpen false, some (buf, 0), [], [], [], []⟩ (.ptsRound .woken))
        (.ptsRound .woken) := rfl
  have honlcr : (ptmxOpen false).termios.onlcr = true := by decide
  rw [hrun, hfirst]
  simp only [step, State.ptsRound, State.answer, Pty.outPuts, Nat.lt_irrefl, if_false, honlcr, List.nil_append,
    and_self]

/-- A write of 4096 newlines to an empty ring reports them all, and half of the output is lost. -/
theorem newlines_lost :
    let s := run (step false) (opened false)
      [.ptsWrite (List.replicate 4096 10), .ptsRound .woken, .ptsRound .woken]
    s.wrote.map (·.answer) = [.wrote 4096] ∧ s.told.length = 8192 ∧ s.output.length ≤ 4096 := by
  have hlen : (List.replicate 4096 (10 : U8)).length = 4096 := List.length_replicate
  have htold := length_translate_replicate 4096
  generalize List.replicate 4096 (10 : U8) = buf at *
  obtain ⟨hwrote, hcall, hread⟩ := run_firstWrite (show 0 < buf.length by omega) (by rw [hlen]; decide)
  dsimp only at hwrote hcall hread ⊢
  refine ⟨?_, ?_, ?_⟩
  · rw [hwrote, hlen]
    rfl
  · simp only [State.told, hwrote, hcall, List.flatMap_cons, List.flatMap_nil, List.append_nil, Answer.count,
      List.take_length, htold]
  · rw [State.output, hread, List.nil_append, PtyRing.length_contents]
    exact PtyRing.count_le _

end Sic.Ptys
