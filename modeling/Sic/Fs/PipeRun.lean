import Sic.Fs.Pipe

/-! A pipe is a queue of bytes for all its readers and writers together, as long as no file is
closed for the last time while a call is using it. -/

namespace Sic.Pipes

open Function (update)

/-! ### The ring -/

def Pipe.ring (p : Pipe) : Ring U8 := ⟨p.buf, p.tail, p.count⟩

def Pipe.contents (p : Pipe) : List U8 := p.ring.contents pipeSize

structure RingOk (p : Pipe) : Prop where
  tail : p.tail < pipeSize
  count : p.count ≤ pipeSize
  head : p.head = (p.tail + p.count) % pipeSize

variable {p : Pipe} {s s' : Sys}

theorem readLoop_eq {buf : Nat → U8} {n tail count : Nat} (ht : tail < pipeSize) (hc : count ≤ pipeSize)
    (hn : n ≤ count) :
    readLoop buf n tail = ((Ring.contents pipeSize ⟨buf, tail, count⟩).take n, (tail + n) % pipeSize) := by
  induction n generalizing tail count with
  | zero => simp [readLoop, Nat.mod_eq_of_lt ht]
  | succ n ih =>
    obtain ⟨k, rfl⟩ : ∃ k, count = k + 1 := ⟨count - 1, by omega⟩
    have hnext : (tail + 1) % pipeSize < pipeSize := Nat.mod_lt _ (by omega)
    have hrest := ih hnext (show k ≤ pipeSize by omega) (by omega)
    rw [readLoop, hrest, Ring.contents_cons (r := ⟨buf, tail, k + 1⟩) ⟨ht, hc⟩ rfl]
    simp only [List.take_succ_cons, Nat.mod_add_mod, Nat.add_assoc, Nat.add_comm 1]

theorem writeLoop_eq (buf : Nat → U8) {tail count : Nat} (xs : List U8) (ht : tail < pipeSize)
    (hc : count + xs.length ≤ pipeSize) :
    Ring.contents pipeSize ⟨(writeLoop xs buf ((tail + count) % pipeSize)).1, tail, count + xs.length⟩ =
        Ring.contents pipeSize ⟨buf, tail, count⟩ ++ xs ∧
      (writeLoop xs buf ((tail + count) % pipeSize)).2 = (tail + (count + xs.length)) % pipeSize := by
  induction xs generalizing buf count with
  | nil => simp [writeLoop]
  | cons x xs ih =>
    rw [List.length_cons] at hc ⊢
    have hone := Ring.contents_snoc (r := ⟨buf, tail, count⟩) (N := pipeSize) ⟨ht, by dsimp only; omega⟩
      (by dsimp only; omega) x
    have hnext : ((tail + count) % pipeSize + 1) % pipeSize = (tail + (count + 1)) % pipeSize := by
      rw [Nat.mod_add_mod, Nat.add_assoc]
    obtain ⟨hcont, hhead⟩ := ih (update buf ((tail + count) % pipeSize) x)
      (show count + 1 + xs.length ≤ pipeSize by omega)
    rw [writeLoop, hnext, show count + (xs.length + 1) = count + 1 + xs.length by omega, hcont, hhead, hone]
    simp

theorem pipeRead_spec (h : RingOk p) (len : Nat) (nonblock : Bool) :
    ∃ xs : List U8, RingOk (pipeRead p len nonblock).1 ∧ p.contents = xs ++ (pipeRead p len nonblock).1.contents ∧
      (∀ a, (pipeRead p len nonblock).2 = some a → a.data = xs) ∧
        ((pipeRead p len nonblock).2 = none → xs = []) := by
  rw [pipeRead]
  split
  · have hn : (if len < p.count then len else p.count) ≤ p.count := by split <;> omega
    generalize (if len < p.count then len else p.count) = n at hn
    have hp := h.tail
    dsimp only
    rw [readLoop_eq h.tail h.count hn]
    refine ⟨p.contents.take n, ⟨Nat.mod_lt _ (by omega), by dsimp only; have := h.count; omega, ?_⟩, ?_, ?_,
      nofun⟩
    · dsimp only
      rw [h.head, Nat.mod_add_mod]
      congr 1
      omega
    · have hpop := Ring.contents_pop (N := pipeSize) (r := p.ring) n
      exact (List.take_append_drop n p.contents).symm.trans (congrArg _ hpop.symm)
    · intro a ha
      cases ha
      rfl
  · refine ⟨[], ?_⟩
    split
    · exact ⟨h, rfl, fun a ha => by cases ha; rfl, fun _ => rfl⟩
    split
    · exact ⟨h, rfl, fun a ha => by cases ha; rfl, fun _ => rfl⟩
    · exact ⟨h, rfl, nofun, fun _ => rfl⟩

theorem length_pipeChunk (p : Pipe) (buf : List U8) (done : Nat) :
    p.count ≤ pipeSize → p.count + (pipeChunk p buf done).length ≤ pipeSize := by
  intro h
  rw [pipeChunk, List.length_take]
  have hmin : (if buf.length - done < pipeSize - p.count then buf.length - done else pipeSize - p.count) ≤
      pipeSize - p.count := by split <;> omega
  omega

variable {buf : List U8} {done b : Nat} {nonblock : Bool} {p' : Pipe} {on : On}

theorem pipeWrite_round {n : Nat} (h : RingOk p) (hw : pipeWrite p buf done nonblock = (p', .round n)) :
    RingOk p' ∧ p'.contents = p.contents ++ pipeChunk p buf done := by
  rw [pipeWrite] at hw
  split at hw
  · cases hw
  split at hw
  · dsimp only at hw
    cases hw
    have hc := length_pipeChunk p buf done h.count
    obtain ⟨hcont, hhead⟩ := writeLoop_eq p.buf (pipeChunk p buf done) h.tail hc
    rw [← h.head] at hcont hhead
    exact ⟨⟨h.tail, hc, hhead⟩, hcont⟩
  · split at hw <;> cases hw

theorem pipeWrite_stay {next : Next}
    (hw : pipeWrite p buf done nonblock = (p', next)) (hn : ∀ n, next ≠ .round n) : p' = p := by
  rw [pipeWrite] at hw
  split at hw
  · cases hw
    rfl
  split at hw
  · dsimp only at hw
    cases hw
    exact absurd rfl (hn _)
  · split at hw <;> cases hw <;> rfl

def Pipe.ends (p : Pipe) : Int × Int × Nat × Bool := (p.readers, p.writers, p.id, p.freed)

theorem pipeRead_ends (p : Pipe) (len : Nat) (nonblock : Bool) : (pipeRead p len nonblock).1.ends = p.ends := by
  rw [pipeRead]
  split
  · rfl
  split
  · rfl
  · split <;> rfl

theorem pipeWrite_ends (p : Pipe) (buf : List U8) (done : Nat) (nonblock : Bool) :
    (pipeWrite p buf done nonblock).1.ends = p.ends := by
  rw [pipeWrite]
  split
  · rfl
  split
  · rfl
  · split <;> rfl

theorem pipeRead_eof {len : Nat} (hr : pipeRead p len nonblock = (p', some .eof)) :
    p.count = 0 ∧ p.writers = 0 := by
  rw [pipeRead] at hr
  split at hr
  · cases hr
  next hc =>
  split at hr
  · next hw => exact ⟨by omega, hw⟩
  · split at hr <;> cases hr

/-! ### The invariant -/

def openEnd (x : File) : Int := if 0 < x.refs then 1 else 0

structure Live (s : Sys) (a : Nat) : Prop where
  made : (s.pipes a).id < s.made
  rd : (s.file (2 * (s.pipes a).id)).pipe = a ∧ (s.file (2 * (s.pipes a).id)).rdonly = true ∧
    (s.pipes a).readers = openEnd (s.file (2 * (s.pipes a).id))
  wr : (s.file (2 * (s.pipes a).id + 1)).pipe = a ∧ (s.file (2 * (s.pipes a).id + 1)).rdonly = false ∧
    (s.pipes a).writers = openEnd (s.file (2 * (s.pipes a).id + 1))
  flow : s.got (s.pipes a).id ++ (s.pipes a).contents = s.put (s.pipes a).id

structure Inv (s : Sys) : Prop where
  files : s.files.length = 2 * s.made
  ring : ∀ a, RingOk (s.pipes a)
  live : ∀ a, (s.pipes a).freed = false → Live s a
  opened : ∀ f, 0 < (s.file f).refs → (s.pipes (s.file f).pipe).freed = false ∧
    (s.pipes (s.file f).pipe).id = f / 2
  hist : ∀ k, s.got k <+: s.put k
  unmade : ∀ k, s.made ≤ k → s.got k = [] ∧ s.put k = []
  calls : ∀ c ∈ s.calls, ∀ on, c.on? = some on → 0 < (s.file on.file).refs ∧ on = s.on on.file

theorem Inv.init : Inv {} := by
  refine ⟨rfl, fun _ => ⟨show 0 < pipeSize by decide, Nat.zero_le _, rfl⟩, nofun, fun f hf => ?_,
    fun _ => ⟨[], rfl⟩, fun _ _ => ⟨rfl, rfl⟩, nofun⟩
  cases hf

variable {a f : Nat}

theorem Inv.address_unique (h : Inv s) (ha : (s.pipes a).freed = false) (hb : (s.pipes b).freed = false)
    (hid : (s.pipes b).id = (s.pipes a).id) : b = a := by
  have h₁ := (h.live b hb).rd.1
  rw [hid] at h₁
  exact h₁.symm.trans (h.live a ha).rd.1

theorem Pipe.ends_iff {p : Pipe} :
    p'.ends = p.ends ↔ p'.readers = p.readers ∧ p'.writers = p.writers ∧ p'.id = p.id ∧ p'.freed = p.freed := by
  simp [Pipe.ends]

theorem Inv.flow (h : Inv s) (ha : (s.pipes a).freed = false) (hfiles : s'.files = s.files)
    (hcalls : s'.calls = s.calls)
    (hmade : s'.made = s.made) (hp : ∀ b, b ≠ a → s'.pipes b = s.pipes b) (hr : RingOk (s'.pipes a))
    (he : (s'.pipes a).ends = (s.pipes a).ends)
    (hh : ∀ k, k ≠ (s.pipes a).id → s'.got k = s.got k ∧ s'.put k = s.put k)
    (hf : s'.got (s.pipes a).id ++ (s'.pipes a).contents = s'.put (s.pipes a).id) : Inv s' := by
  have hfile : ∀ f, s'.file f = s.file f := fun f => by rw [Sys.file, Sys.file, hfiles]
  have hends : ∀ b, (s'.pipes b).ends = (s.pipes b).ends := by
    intro b
    by_cases hb : b = a
    · rw [hb, he]
    · rw [hp b hb]
  have hid : ∀ b, (s'.pipes b).id = (s.pipes b).id := fun b => (Pipe.ends_iff.mp (hends b)).2.2.1
  have hfree : ∀ b, (s'.pipes b).freed = (s.pipes b).freed := fun b => (Pipe.ends_iff.mp (hends b)).2.2.2
  have hlive := h.live a ha
  refine ⟨by rw [hfiles, hmade, h.files], fun b => ?_, fun b hb => ?_, fun f hf => ?_, fun k => ?_,
    fun k hk => ?_, fun c hc on hon => ?_⟩
  · by_cases hb : b = a
    · rw [hb]
      exact hr
    · rw [hp b hb]
      exact h.ring b
  · rw [hfree] at hb
    have hl := h.live b hb
    obtain ⟨hrd, hwr, -, -⟩ := Pipe.ends_iff.mp (hends b)
    refine ⟨?_, ?_, ?_, ?_⟩
    · rw [hid, hmade]
      exact hl.made
    · rw [hid, hfile, hrd]
      exact hl.rd
    · rw [hid, hfile, hwr]
      exact hl.wr
    rw [hid]
    by_cases hba : b = a
    · rw [hba]
      exact hf
    have hne : (s.pipes b).id ≠ (s.pipes a).id := fun he => hba (h.address_unique ha hb he)
    rw [(hh _ hne).1, (hh _ hne).2, hp b hba]
    exact hl.flow
  · rw [hfile] at hf ⊢
    rw [hfree, hid]
    exact h.opened f hf
  · by_cases hk : k = (s.pipes a).id
    · rw [hk]
      exact ⟨_, hf⟩
    · rw [(hh k hk).1, (hh k hk).2]
      exact h.hist k
  · rw [hmade] at hk
    have hne : k ≠ (s.pipes a).id := fun he => absurd hlive.made (by omega)
    rw [(hh k hne).1, (hh k hne).2]
    exact h.unmade k hk
  · rw [hcalls] at hc
    obtain ⟨hopen, heq⟩ := h.calls c hc on hon
    rw [Sys.on, hfile, hid]
    exact ⟨hopen, heq⟩

theorem Inv.take (h : Inv s) (ha : (s.pipes a).freed = false) {xs : List U8} (hr : RingOk p')
    (he : p'.ends = (s.pipes a).ends) (hc : (s.pipes a).contents = xs ++ p'.contents) :
    Inv ((s.setPipe a p').take (s.pipes a).id xs) := by
  have hself : ((s.setPipe a p').take (s.pipes a).id xs).pipes a = p' := Function.update_self ..
  refine h.flow ha rfl rfl rfl (fun b hb => Function.update_of_ne hb ..) ?_ ?_ (fun k hk => ⟨?_, rfl⟩) ?_
  · rw [hself]
    exact hr
  · rw [hself]
    exact he
  · exact Function.update_of_ne hk ..
  have hgot : ((s.setPipe a p').take (s.pipes a).id xs).got (s.pipes a).id = s.got (s.pipes a).id ++ xs :=
    Function.update_self ..
  rw [hself, hgot, List.append_assoc, ← hc]
  exact (h.live a ha).flow

theorem Inv.give (h : Inv s) (ha : (s.pipes a).freed = false) {xs : List U8} (hr : RingOk p')
    (he : p'.ends = (s.pipes a).ends) (hc : p'.contents = (s.pipes a).contents ++ xs) :
    Inv ((s.setPipe a p').give (s.pipes a).id xs) := by
  have hself : ((s.setPipe a p').give (s.pipes a).id xs).pipes a = p' := Function.update_self ..
  refine h.flow ha rfl rfl rfl (fun b hb => Function.update_of_ne hb ..) ?_ ?_ (fun k hk => ⟨rfl, ?_⟩) ?_
  · rw [hself]
    exact hr
  · rw [hself]
    exact he
  · exact Function.update_of_ne hk ..
  have hput : ((s.setPipe a p').give (s.pipes a).id xs).put (s.pipes a).id = s.put (s.pipes a).id ++ xs :=
    Function.update_self ..
  rw [hself, hput, hc, ← List.append_assoc]
  exact congrArg (· ++ xs) (h.live a ha).flow

theorem Inv.setCall (h : Inv s) (t : Nat) {c : Call}
    (hc : ∀ on, c.on? = some on → 0 < (s.file on.file).refs ∧ on = s.on on.file) : Inv (s.setCall t c) := by
  refine ⟨h.files, h.ring, fun a ha => ?_, h.opened, h.hist, h.unmade, fun c' hc' => ?_⟩
  · obtain ⟨hm, hrd, hwr, hf⟩ := h.live a ha
    exact ⟨hm, hrd, hwr, hf⟩
  rcases List.mem_or_eq_of_mem_set hc' with hc' | rfl
  · exact h.calls c' hc'
  · exact hc

/-! ### Files -/

theorem file_modifyFile (s : Sys) (f i : Nat) (g : File → File) :
    (s.modifyFile f g).file i = if i = f ∧ f < s.files.length then g (s.file f) else s.file i := by
  simp only [Sys.file, Sys.modifyFile, List.getD_eq_getElem?_getD, List.getElem?_modify]
  by_cases hi : i = f
  · subst hi
    by_cases hlt : i < s.files.length
    · simp [hlt]
    · simp [hlt]
  · simp [hi, Ne.symm hi]

theorem lt_of_refs {f : Nat} (h : 0 < (s.file f).refs) : f < s.files.length := by
  by_contra hge
  rw [Sys.file, List.getD_eq_getElem?_getD, List.getElem?_eq_none (by omega)] at h
  cases h

theorem Inv.modifyFile (h : Inv s) {f : Nat} {g : File → File} (hp : (g (s.file f)).pipe = (s.file f).pipe)
    (hrd : (g (s.file f)).rdonly = (s.file f).rdonly) (hr : 0 < (g (s.file f)).refs ↔ 0 < (s.file f).refs) :
    Inv (s.modifyFile f g) := by
  have hfile : ∀ i, ((s.modifyFile f g).file i).pipe = (s.file i).pipe ∧
      ((s.modifyFile f g).file i).rdonly = (s.file i).rdonly ∧
      (0 < ((s.modifyFile f g).file i).refs ↔ 0 < (s.file i).refs) := by
    intro i
    rw [file_modifyFile]
    split
    · next hi =>
      rw [hi.1]
      exact ⟨hp, hrd, hr⟩
    · exact ⟨rfl, rfl, .rfl⟩
  have hend : ∀ i, openEnd ((s.modifyFile f g).file i) = openEnd (s.file i) := by
    intro i
    simp only [openEnd, (hfile i).2.2]
  refine ⟨?_, h.ring, fun a ha => ?_, fun i hi => ?_, h.hist, h.unmade, fun c hc on hon => ?_⟩
  · rw [Sys.modifyFile]
    simpa using h.files
  · obtain ⟨hm, hrd, hwr, hf⟩ := h.live a ha
    refine ⟨hm, ?_, ?_, hf⟩
    · rw [(hfile _).1, (hfile _).2.1, hend]
      exact hrd
    · rw [(hfile _).1, (hfile _).2.1, hend]
      exact hwr
  · rw [(hfile i).1]
    exact h.opened i ((hfile i).2.2.mp hi)
  · obtain ⟨hopen, heq⟩ := h.calls c hc on hon
    rw [Sys.on, (hfile _).1]
    exact ⟨(hfile _).2.2.mpr hopen, heq⟩

theorem file_append {l : List File} {f : Nat} (hf : f < s.files.length) (hs : s'.files = s.files ++ l) :
    s'.file f = s.file f := by
  rw [Sys.file, Sys.file, hs, List.getD_eq_getElem?_getD, List.getD_eq_getElem?_getD,
    List.getElem?_append_left hf]

theorem Inv.pipeCreate (h : Inv s) (ha : (s.pipes a).freed = true) : Inv (pipeCreate s a) := by
  have hself : (Pipes.pipeCreate s a).pipes a = { readers := 1, writers := 1, id := s.made, freed := false } :=
    Function.update_self ..
  have hother : ∀ b, b ≠ a → (Pipes.pipeCreate s a).pipes b = s.pipes b := fun b hb => Function.update_of_ne hb ..
  have hnew : (Pipes.pipeCreate s a).file (2 * s.made) = ⟨a, true, false, 1⟩ ∧
      (Pipes.pipeCreate s a).file (2 * s.made + 1) = ⟨a, false, false, 1⟩ := by
    simp [Sys.file, Pipes.pipeCreate, ← h.files]
  have hold : ∀ f, f < 2 * s.made → (Pipes.pipeCreate s a).file f = s.file f :=
    fun f hf => file_append (by rw [h.files]; exact hf) rfl
  have hne : ∀ b, (s.pipes b).freed = false → b ≠ a := by
    rintro b hb rfl
    rw [ha] at hb
    cases hb
  refine ⟨?_, fun b => ?_, fun b hb => ?_, fun f hf => ?_, h.hist, fun k hk => h.unmade k (Nat.le_of_succ_le hk),
    fun c hc on hon => ?_⟩
  · simp only [Pipes.pipeCreate, List.length_append, List.length_cons, List.length_nil, h.files]
    omega
  · by_cases hb : b = a
    · rw [hb, hself]
      exact ⟨show 0 < pipeSize by decide, Nat.zero_le _, rfl⟩
    · rw [hother b hb]
      exact h.ring b
  · by_cases hba : b = a
    · subst hba
      refine ⟨?_, ?_, ?_, ?_⟩
      · rw [hself]
        exact Nat.lt_succ_self _
      · rw [hself, hnew.1]
        exact ⟨rfl, rfl, rfl⟩
      · rw [hself, hnew.2]
        exact ⟨rfl, rfl, rfl⟩
      obtain ⟨hg, hw⟩ := h.unmade s.made le_rfl
      rw [hself]
      exact (congrArg (· ++ []) hg).trans hw.symm
    · rw [hother b hba] at hb
      obtain ⟨hm, hrd, hwr, hf⟩ := h.live b hb
      refine ⟨?_, ?_, ?_, ?_⟩
      · rw [hother b hba]
        exact Nat.lt_succ_of_lt hm
      · rw [hother b hba, hold _ (by omega)]
        exact hrd
      · rw [hother b hba, hold _ (by omega)]
        exact hwr
      · rw [hother b hba]
        exact hf
  · by_cases hlt : f < 2 * s.made
    · rw [hold f hlt] at hf ⊢
      obtain ⟨hfree, hid⟩ := h.opened f hf
      rw [hother _ (hne _ hfree)]
      exact ⟨hfree, hid⟩
    · have hlen := lt_of_refs hf
      simp only [Pipes.pipeCreate, List.length_append, List.length_cons, List.length_nil, h.files] at hlen
      have hcase : f = 2 * s.made ∨ f = 2 * s.made + 1 := by omega
      rcases hcase with rfl | rfl
      · rw [hnew.1, hself]
        exact ⟨rfl, by dsimp only; omega⟩
      · rw [hnew.2, hself]
        exact ⟨rfl, by dsimp only; omega⟩
  · obtain ⟨hopen, heq⟩ := h.calls c hc on hon
    have hlt : on.file < 2 * s.made := by
      rw [← h.files]
      exact lt_of_refs hopen
    obtain ⟨hfree, -⟩ := h.opened _ hopen
    rw [Sys.on, hold _ hlt, hother _ (hne _ hfree)]
    exact ⟨hopen, heq⟩

/-! ### Closing -/

theorem pipeRelease_ring (h : RingOk p) (rdonly : Bool) : RingOk (pipeRelease p rdonly) := by
  obtain ⟨ht, hc, hh⟩ := h
  cases rdonly with
  | false => exact ⟨ht, hc, hh⟩
  | true => exact ⟨ht, hc, hh⟩

theorem pipeRelease_id (p : Pipe) (rdonly : Bool) : (pipeRelease p rdonly).id = p.id := by
  cases rdonly <;> rfl

theorem pipeRelease_contents (p : Pipe) (rdonly : Bool) : (pipeRelease p rdonly).contents = p.contents := by
  cases rdonly <;> rfl

theorem pipeRelease_freed {rdonly : Bool} (hf : p.freed = false) :
    (pipeRelease p rdonly).freed = true ↔ (pipeRelease p rdonly).readers = 0 ∧
      (pipeRelease p rdonly).writers = 0 := by
  cases rdonly <;> simp [pipeRelease, hf]

/-- A file is not closed for the last time while a call is using it. -/
def Held (s : Sys) : Event → Prop
  | .close f => (s.file f).refs = 1 → ∀ c ∈ s.calls, ∀ on ∈ c.on?, on.file ≠ f
  | _ => True

instance (s : Sys) (e : Event) : Decidable (Held s e) := by
  cases e with
  | close f => exact inferInstanceAs (Decidable (_ → ∀ c ∈ s.calls, ∀ on ∈ c.on?, on.file ≠ f))
  | _ => exact .isTrue trivial

def released (s : Sys) (f : Nat) : Sys :=
  (s.modifyFile f fun x => { x with refs := x.refs - 1 }).setPipe (s.file f).pipe
    (pipeRelease (s.pipes (s.file f).pipe) (s.file f).rdonly)

theorem file_released (h : (s.file f).refs = 1) (i : Nat) :
    (released s f).file i = if i = f then { s.file f with refs := 0 } else s.file i := by
  have hlt : f < s.files.length := lt_of_refs (by omega)
  refine (file_modifyFile s f i _).trans ?_
  simp [hlt, h]

theorem pipes_released_self (s : Sys) (f : Nat) :
    (released s f).pipes (s.file f).pipe = pipeRelease (s.pipes (s.file f).pipe) (s.file f).rdonly :=
  Function.update_self ..

theorem pipes_released_of_ne (hb : b ≠ (s.file f).pipe) : (released s f).pipes b = s.pipes b :=
  Function.update_of_ne hb ..

theorem released_id (s : Sys) (f b : Nat) : ((released s f).pipes b).id = (s.pipes b).id := by
  by_cases hb : b = (s.file f).pipe
  · rw [hb, pipes_released_self, pipeRelease_id]
  · rw [pipes_released_of_ne hb]

theorem Live.released (h : Live s (s.file f).pipe) (hr : (s.file f).refs = 1)
    (hid : (s.pipes (s.file f).pipe).id = f / 2) : Live (released s f) (s.file f).pipe := by
  obtain ⟨hm, ⟨hrp, hrd, hrn⟩, ⟨hwp, hwd, hwn⟩, hf⟩ := h
  refine ⟨?_, ?_, ?_, ?_⟩
  · rw [released_id]
    exact hm
  · rw [released_id, file_released hr, hid]
    rw [hid] at hrp hrd hrn
    by_cases he : 2 * (f / 2) = f
    · rw [he] at hrp hrd hrn
      rw [if_pos he, pipes_released_self, hrd]
      refine ⟨rfl, rfl, ?_⟩
      simp [pipeRelease, hrn, openEnd, hr]
    · have hodd : 2 * (f / 2) + 1 = f := by omega
      rw [hid, hodd] at hwd
      rw [if_neg he, pipes_released_self, hwd]
      exact ⟨hrp, hrd, hrn⟩
  · rw [released_id, file_released hr, hid]
    rw [hid] at hwp hwd hwn
    by_cases he : 2 * (f / 2) + 1 = f
    · rw [he] at hwp hwd hwn
      rw [if_pos he, pipes_released_self, hwd]
      refine ⟨rfl, rfl, ?_⟩
      simp [pipeRelease, hwn, openEnd, hr]
    · have heven : 2 * (f / 2) = f := by omega
      rw [hid, heven] at hrd
      rw [if_neg he, pipes_released_self, hrd]
      exact ⟨hwp, hwd, hwn⟩
  · rw [released_id, pipes_released_self, pipeRelease_contents]
    exact hf

theorem Inv.released (h : Inv s) (hr : (s.file f).refs = 1) (hd : ∀ c ∈ s.calls, ∀ on ∈ c.on?, on.file ≠ f) :
    Inv (released s f) := by
  obtain ⟨hfree, hid⟩ := h.opened f (by omega)
  have hlive := (h.live _ hfree).released hr hid
  have hne : ∀ i, i ≠ f → (Pipes.released s f).file i = s.file i :=
    fun i hi => by rw [file_released hr, if_neg hi]
  refine ⟨?_, fun b => ?_, fun b hb => ?_, fun i hi => ?_, h.hist, h.unmade, fun c hc on hon => ?_⟩
  · rw [Pipes.released, Sys.setPipe, Sys.modifyFile]
    simpa using h.files
  · by_cases hb : b = (s.file f).pipe
    · rw [hb, pipes_released_self]
      exact pipeRelease_ring (h.ring _) _
    · rw [pipes_released_of_ne hb]
      exact h.ring b
  · by_cases hba : b = (s.file f).pipe
    · rw [hba]
      exact hlive
    · rw [pipes_released_of_ne hba] at hb
      have hids : (s.pipes b).id ≠ f / 2 := fun he => hba (h.address_unique hfree hb (he.trans hid.symm))
      obtain ⟨hm, hrd, hwr, hf⟩ := h.live b hb
      refine ⟨?_, ?_, ?_, ?_⟩
      · rw [released_id]
        exact hm
      · rw [pipes_released_of_ne hba, hne _ (by omega)]
        exact hrd
      · rw [pipes_released_of_ne hba, hne _ (by omega)]
        exact hwr
      · rw [pipes_released_of_ne hba]
        exact hf
  · have hif : i ≠ f := by
      rintro rfl
      rw [file_released hr, if_pos rfl] at hi
      cases hi
    rw [hne i hif] at hi ⊢
    obtain ⟨hifree, hiid⟩ := h.opened i hi
    rw [released_id]
    refine ⟨?_, hiid⟩
    by_cases hb : (s.file i).pipe = (s.file f).pipe
    · -- the other end is open, so the pipe stays
      have hhalf : i / 2 = f / 2 := by rw [← hiid, hb, hid]
      have hopen : openEnd ((Pipes.released s f).file i) = 1 := by
        rw [hne i hif]
        exact if_pos hi
      rw [hb, pipes_released_self, ← Bool.not_eq_true, pipeRelease_freed hfree, ← pipes_released_self]
      have hrd := hlive.rd.2.2
      have hwr := hlive.wr.2.2
      rw [released_id, hid] at hrd hwr
      rintro ⟨hr0, hw0⟩
      have hcase : i = 2 * (f / 2) ∨ i = 2 * (f / 2) + 1 := by omega
      rcases hcase with hi' | hi'
      · rw [← hi', hopen, hr0] at hrd
        cases hrd
      · rw [← hi', hopen, hw0] at hwr
        cases hwr
    · rw [pipes_released_of_ne hb]
      exact hifree
  · obtain ⟨hopen, heq⟩ := h.calls c hc on hon
    rw [Sys.on, hne _ (hd c hc on hon), released_id]
    exact ⟨hopen, heq⟩

theorem Inv.fileClose (h : Inv s) (hf : 0 < (s.file f).refs)
    (hd : (s.file f).refs = 1 → ∀ c ∈ s.calls, ∀ on ∈ c.on?, on.file ≠ f) : Inv (fileClose s f) := by
  have hlt := lt_of_refs hf
  have hx : (s.modifyFile f fun x => { x with refs := x.refs - 1 }).file f =
    { s.file f with refs := (s.file f).refs - 1 } := by
    rw [file_modifyFile, if_pos ⟨rfl, hlt⟩]
  rw [Pipes.fileClose, hx]
  split
  · next hz =>
    have hone : (s.file f).refs = 1 := by
      dsimp only at hz
      omega
    exact h.released hone (hd hone)
  · next hz =>
    refine h.modifyFile rfl rfl ?_
    dsimp only at hz ⊢
    omega

/-! ### Calls -/

theorem Sys.on_setPipe {a : Nat} (he : p.ends = (s.pipes b).ends) : (s.setPipe b p).on a = s.on a := by
  have hid := (Pipe.ends_iff.mp he).2.2.1
  rw [Sys.on, Sys.on]
  by_cases hb : (s.file a).pipe = b
  · subst hb
    have hp : (s.setPipe (s.file a).pipe p).pipes (s.file a).pipe = p := Function.update_self ..
    simp only [Sys.file, Sys.setPipe] at hp hid ⊢
    rw [hp, hid]
  · have hp : (s.setPipe b p).pipes (s.file a).pipe = s.pipes (s.file a).pipe := Function.update_of_ne hb ..
    simp only [Sys.file, Sys.setPipe] at hp ⊢
    rw [hp]

theorem setPipe_self (s : Sys) (a : Nat) : s.setPipe a (s.pipes a) = s := by
  rw [Sys.setPipe, Function.update_eq_self]

theorem pipeRead_none {len : Nat} (hr : pipeRead p len nonblock = (p', none)) : p' = p := by
  rw [pipeRead] at hr
  split at hr
  · cases hr
  split at hr
  · cases hr
  · split at hr <;> cases hr
    rfl

def Using (s : Sys) (on : On) : Prop := 0 < (s.file on.file).refs ∧ on = s.on on.file

theorem Inv.using_pipe (h : Inv s) (hu : Using s on) :
    (s.pipes on.pipe).freed = false ∧ on.id = (s.pipes on.pipe).id := by
  obtain ⟨hopen, heq⟩ := hu
  have hp : on.pipe = (s.file on.file).pipe := congrArg On.pipe heq
  rw [hp]
  exact ⟨(h.opened _ hopen).1, congrArg On.id heq⟩

theorem Inv.using_of_call (h : Inv s) {t : Nat} {c : Call} (hc : s.calls.getD t .idle = c)
    (hon : c.on? = some on) :
    Using s on := by
  rw [List.getD_eq_getElem?_getD] at hc
  cases ht : s.calls[t]? with
  | none =>
    rw [ht] at hc
    subst hc
    cases hon
  | some c' =>
    rw [ht] at hc
    subst hc
    exact h.calls _ (List.mem_of_getElem? ht) on hon

theorem Inv.readTurn (h : Inv s) (hu : Using s on) (t len : Nat) : Inv (readTurn s t on len).1 := by
  obtain ⟨hfree, hid⟩ := h.using_pipe hu
  obtain ⟨xs, hring, hcont, hdata, -⟩ := pipeRead_spec (h.ring on.pipe) len (s.file on.file).nonblock
  have hends := pipeRead_ends (s.pipes on.pipe) len (s.file on.file).nonblock
  rw [Pipes.readTurn]
  split
  · next p hr =>
    rw [pipeRead_none hr, setPipe_self]
    refine h.setCall t fun on' hon' => ?_
    cases hon'
    exact hu
  · next p a hr =>
    rw [hr] at hring hcont hdata hends
    rw [hdata a rfl, hid]
    exact (h.take hfree hring hends hcont).setCall t nofun

theorem Inv.writeTurn (h : Inv s) (hu : Using s on) (t : Nat) (buf : List U8) (done : Nat) :
    Inv (writeTurn s t on buf done).1 := by
  obtain ⟨hfree, hid⟩ := h.using_pipe hu
  have hends := pipeWrite_ends (s.pipes on.pipe) buf done (s.file on.file).nonblock
  rw [Pipes.writeTurn]
  split
  · split
    · next p a hw =>
      rw [pipeWrite_stay hw nofun, setPipe_self]
      exact h.setCall t nofun
    · next p done' hw =>
      obtain ⟨hring, hcont⟩ := pipeWrite_round (h.ring on.pipe) hw
      rw [hw] at hends
      rw [hid]
      refine (h.give hfree hring hends hcont).setCall t fun on' hon' => ?_
      cases hon'
      exact ⟨hu.1, hu.2.trans (Sys.on_setPipe hends).symm⟩
    · next p hw =>
      rw [pipeWrite_stay hw nofun, setPipe_self]
      refine h.setCall t fun on' hon' => ?_
      cases hon'
      exact hu
  · exact h.setCall t nofun

theorem Inv.turn (h : Inv s) (t : Nat) (signal : Bool) : Inv (turn s t signal).1 := by
  rw [Pipes.turn]
  split
  · exact h
  · next on len hc => exact h.readTurn (h.using_of_call hc rfl) t len
  · next on len hc =>
    split
    · refine h.setCall t fun on' hon' => ?_
      cases hon'
      exact h.using_of_call hc rfl
    · split
      · exact h.setCall t nofun
      · exact h
  · next on buf done hc => exact h.writeTurn (h.using_of_call hc rfl) t buf done
  · next on buf done hc =>
    split
    · refine h.setCall t fun on' hon' => ?_
      cases hon'
      exact h.using_of_call hc rfl
    · split
      · exact h.setCall t nofun
      · exact h

/-! ### Runs -/

theorem Inv.step (h : Inv s) {e : Event} (hd : Held s e) : Inv (step s e) := by
  cases e with
  | task =>
    refine ⟨h.files, h.ring, fun a ha => ?_, h.opened, h.hist, h.unmade, fun c hc => ?_⟩
    · obtain ⟨hm, hrd, hwr, hf⟩ := h.live a ha
      exact ⟨hm, hrd, hwr, hf⟩
    rcases List.mem_append.mp hc with hc | hc
    · exact h.calls c hc
    · rw [List.mem_singleton.mp hc]
      nofun
  | pipe a =>
    rw [Pipes.step, act]
    dsimp only
    split
    · next ha => exact h.pipeCreate ha
    · exact h
  | dup f =>
    rw [Pipes.step, act]
    dsimp only
    split
    · next hf => exact h.modifyFile rfl rfl ⟨fun _ => hf, fun _ => Nat.succ_pos _⟩
    · exact h
  | setNonblock f on => exact h.modifyFile rfl rfl .rfl
  | read t f len =>
    rw [Pipes.step, act]
    split
    · next hc =>
      split
      · exact h
      refine h.setCall t fun on' hon' => ?_
      cases hon'
      exact ⟨hc.2, rfl⟩
    · exact h
  | write t f buf =>
    rw [Pipes.step, act]
    split
    · next hc =>
      refine h.setCall t fun on' hon' => ?_
      cases hon'
      exact ⟨hc.2, rfl⟩
    · exact h
  | poll f => exact h
  | turn t signal => exact h.turn t signal
  | close f =>
    rw [Pipes.step, act]
    dsimp only
    split
    · next hf => exact h.fileClose hf hd
    · exact h

theorem inv_run {es : List Event} (h : Along Held step {} es) : Inv (run step {} es) :=
  invariant_run (P := Inv) (fun _ _ hs hd => hs.step hd) Inv.init h

theorem pipeWrite_ret {a : Answer} (hw : pipeWrite p buf done nonblock = (p', .ret a)) : a ≠ .eof := by
  have hor : ∀ b, b ≠ .eof → wroteOr done b ≠ .eof := by
    intro b hb
    rw [wroteOr]
    split
    · nofun
    · exact hb
  rw [pipeWrite] at hw
  split at hw
  · cases hw
    exact hor _ nofun
  split at hw
  · cases hw
  · split at hw <;> cases hw
    exact hor _ nofun

def Sys.writeEnd (s : Sys) (k : Nat) : File := s.file (2 * k + 1)

theorem Inv.eof (h : Inv s) {t : Nat} {signal : Bool} (ha : answer s (.turn t signal) = some .eof) :
    ∃ on len, s.calls.getD t .idle = .read on len false ∧ (s.writeEnd on.id).refs = 0 ∧
      s.got on.id = s.put on.id := by
  rw [answer, act, Pipes.turn] at ha
  split at ha
  · cases ha
  · next on len hc =>
    obtain ⟨hfree, hid⟩ := h.using_pipe (h.using_of_call hc rfl)
    have hl := h.live _ hfree
    refine ⟨on, len, hc, ?_⟩
    rw [Pipes.readTurn] at ha
    split at ha
    · cases ha
    next p a hr =>
    cases ha
    obtain ⟨hcount, hw⟩ := pipeRead_eof hr
    have hclosed := hl.wr.2.2
    have hflow := hl.flow
    rw [hw, openEnd] at hclosed
    rw [hid, Sys.writeEnd]
    refine ⟨?_, ?_⟩
    · split at hclosed
      · cases hclosed
      · omega
    · have hempty : (s.pipes on.pipe).contents = [] := by
        rw [Pipe.contents, Pipe.ring, Ring.contents, hcount]
        rfl
      rw [hempty, List.append_nil] at hflow
      exact hflow
  · split at ha
    · cases ha
    · split at ha <;> cases ha
  · next on buf done _ =>
    rw [Pipes.writeTurn] at ha
    split at ha
    · split at ha
      · next hw =>
        cases ha
        exact absurd rfl (pipeWrite_ret hw)
      · cases ha
      · cases ha
    · cases ha
  · split at ha
    · cases ha
    · split at ha
      · rw [wroteOr] at ha
        split at ha <;> cases ha
      · cases ha

/-- In every run that closes no file under a call: what the reads from a pipe have returned is
the beginning of what the writes have put in, the ring is in order, and a reader is told of the
end of file only when the write end is closed and every byte has been read. -/
theorem pipe_streams {es : List Event} (h : Along Held step {} es) :
    (∀ k, (run step {} es).got k <+: (run step {} es).put k) ∧
    (∀ a, ((run step {} es).pipes a).head =
        (((run step {} es).pipes a).tail + ((run step {} es).pipes a).count) % pipeSize ∧
      ((run step {} es).pipes a).count ≤ pipeSize) ∧
    ∀ t signal, answer (run step {} es) (.turn t signal) = some .eof →
      ∃ on len, (run step {} es).calls.getD t .idle = .read on len false ∧
        ((run step {} es).writeEnd on.id).refs = 0 ∧ (run step {} es).got on.id = (run step {} es).put on.id := by
  have hi := inv_run h
  exact ⟨hi.hist, fun a => ⟨(hi.ring a).head, (hi.ring a).count⟩, fun _ _ ha => hi.eof ha⟩

def sharedRun : List Event :=
  [.task, .task, .task, .pipe 0, .dup 1, .read 0 0 2, .turn 0 false, .write 1 1 [1, 2, 3], .turn 1 false,
    .write 2 1 [4], .turn 2 false, .turn 0 false, .turn 0 false, .turn 1 false, .turn 2 false, .close 1,
    .read 1 0 9, .turn 1 false, .close 1, .read 2 0 9]

theorem pipe_streams_sharedRun :
    Along Held step {} sharedRun ∧ (run step {} sharedRun).got 0 = [1, 2, 3, 4] ∧
      answer (run step {} sharedRun) (.turn 2 false) = some .eof ∧
      (run step {} sharedRun).got 0 <+: (run step {} sharedRun).put 0 := by
  have h : Along Held step {} sharedRun := by decide +kernel
  exact ⟨h, by decide +kernel, by decide +kernel, (pipe_streams h).1 0⟩

def staleReader : List Event :=
  [.task, .task, .pipe 0, .read 0 0 1, .turn 0 false, .close 0, .close 1, .pipe 0, .write 1 3 [7], .turn 1 false,
    .turn 0 false, .turn 0 false]

theorem stale_reader_takes_foreign_bytes :
    (run step {} staleReader).put 0 = [] ∧ (run step {} staleReader).got 0 = [7] ∧
      (run step {} staleReader).put 1 = [7] ∧ (run step {} staleReader).got 1 = [] ∧
      ((run step {} staleReader).pipes 0).count = 0 := by decide +kernel

end Sic.Pipes
