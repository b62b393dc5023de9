import Mathlib.Algebra.Order.BigOperators.Group.Finset
import Sic.Lib.Count
import Sic.Proc.Epoll

/-! An epoll item knows its file by the address. It stands for the file that was registered as
long as no new file takes the address, and what a wait reports is true as long as the
descriptors it looks at keep their files. -/

namespace Sic.Epoll

variable {s s' : Sys} {a fd : Nat} {hand : Option Nat}

/-- No item of an instance that exists remembers the address. -/
def Forgotten (s : Sys) (a : Nat) : Prop :=
  ∀ b < s.top, (s.file b).freed = false → ∀ it ∈ (s.instance? b).items, it.f ≠ a

/-- No wait has collected the descriptor. -/
def Untouched (s : Sys) (fd : Nat) : Prop := ∀ w ∈ s.waits, ∀ x ∈ w, ∀ sl ∈ x.slots, sl.fd ≠ fd

/-- No wait is on the instance at the address, if this is its last reference. -/
def Unwaited (s : Sys) (a : Nat) : Prop := (s.file a).refs ≤ 1 → ∀ w ∈ s.waits, ∀ x ∈ w, x.ep ≠ a

def ClosesSafely (s : Sys) (fd : Nat) : Prop := Untouched s fd ∧ ∀ a ∈ s.fds fd, Unwaited s a

def Steady (s : Sys) : Event → Prop
  | .openFile a => Forgotten s a
  | .epollCreate a => Forgotten s a
  | .close fd => ClosesSafely s fd
  | .dup3 _ nfd => ClosesSafely s nfd
  | _ => True

instance (s : Sys) (a : Nat) : Decidable (Forgotten s a) :=
  inferInstanceAs (Decidable (∀ b < s.top, (s.file b).freed = false → ∀ it ∈ (s.instance? b).items, it.f ≠ a))

instance (s : Sys) (fd : Nat) : Decidable (Untouched s fd) :=
  inferInstanceAs (Decidable (∀ w ∈ s.waits, ∀ x ∈ w, ∀ sl ∈ x.slots, sl.fd ≠ fd))

instance (s : Sys) (a : Nat) : Decidable (Unwaited s a) :=
  inferInstanceAs (Decidable (_ → ∀ w ∈ s.waits, ∀ x ∈ w, x.ep ≠ a))

instance (s : Sys) (fd : Nat) : Decidable (ClosesSafely s fd) :=
  inferInstanceAs (Decidable (_ ∧ ∀ a ∈ s.fds fd, _))

instance (s : Sys) (e : Event) : Decidable (Steady s e) := by
  cases e with
  | openFile a => exact inferInstanceAs (Decidable (Forgotten s a))
  | epollCreate a => exact inferInstanceAs (Decidable (Forgotten s a))
  | close fd => exact inferInstanceAs (Decidable (ClosesSafely s fd))
  | dup3 fd nfd => exact inferInstanceAs (Decidable (ClosesSafely s nfd))
  | _ => exact .isTrue trivial

/-! ### References -/

def descriptors (fds : Nat → Option Nat) (a : Nat) : Nat :=
  ∑ fd ∈ Finset.range maxFds, if fds fd = some a then 1 else 0

structure Refs (s : Sys) (hand : Option Nat) : Prop where
  high : ∀ fd a, s.fds fd = some a → fd < maxFds
  count : ∀ a, descriptors s.fds a + (if hand = some a then 1 else 0) ≤ (s.file a).refs
  gone : ∀ a, (s.file a).freed = true → (s.file a).refs = 0

theorem Refs.init : Refs {} none := ⟨nofun, fun a => by simp [descriptors], fun _ _ => rfl⟩

theorem file_modifyFile_cases (s : Sys) (a : Nat) (g : File → File) (b : Nat) :
    b = a ∧ (s.modifyFile a g).file b = g (s.file a) ∨ b ≠ a ∧ (s.modifyFile a g).file b = s.file b := by
  by_cases h : b = a
  · exact .inl ⟨h, by rw [h]; exact Function.update_self ..⟩
  · exact .inr ⟨h, Function.update_of_ne h ..⟩

theorem file_modifyFile_self (s : Sys) (a : Nat) (g : File → File) : (s.modifyFile a g).file a = g (s.file a) :=
  Function.update_self ..

theorem descriptors_update {fds : Nat → Option Nat} (hfd : fd < maxFds) (f : Option Nat) (a : Nat) :
    descriptors (Function.update fds fd f) a + (if fds fd = some a then 1 else 0) =
      descriptors fds a + (if f = some a then 1 else 0) := by
  have hsum := sum_update (Finset.mem_range.mpr hfd) (fun i => if fds i = some a then 1 else 0)
    (if f = some a then 1 else 0)
  have hnew : descriptors (Function.update fds fd f) a = ∑ i ∈ Finset.range maxFds,
      Function.update (fun i => if fds i = some a then 1 else 0) fd (if f = some a then 1 else 0) i := by
    refine Finset.sum_congr rfl fun i _ => ?_
    by_cases hi : i = fd
    · subst hi
      rw [Function.update_self, Function.update_self]
    · rw [Function.update_of_ne hi, Function.update_of_ne hi]
  rw [hnew]
  exact hsum

theorem descriptors_pos {fds : Nat → Option Nat} (hfd : fd < maxFds) (ha : fds fd = some a) :
    0 < descriptors fds a := by
  have hsome : 0 < if fds fd = some a then 1 else 0 := by
    rw [if_pos ha]
    exact Nat.one_pos
  exact hsome.trans_le
    (Finset.single_le_sum (f := fun i => if fds i = some a then 1 else 0) (fun _ _ => Nat.zero_le _)
      (Finset.mem_range.mpr hfd))

theorem Refs.pos (h : Refs s hand) (hfd : s.fds fd = some a) : 0 < (s.file a).refs := by
  have hpos := descriptors_pos (h.high fd a hfd) hfd
  have := h.count a
  omega

theorem Refs.live (h : Refs s hand) (hfd : s.fds fd = some a) : (s.file a).freed = false := by
  have hpos := h.pos hfd
  cases hf : (s.file a).freed with
  | false => rfl
  | true =>
    rw [h.gone a hf] at hpos
    cases hpos

theorem Refs.setFd (h : Refs s hand) (hfd : fd < maxFds) : Refs (s.setFd fd hand) (s.fds fd) := by
  refine ⟨fun i a hi => ?_, fun a => ?_, h.gone⟩
  · by_cases hne : i = fd
    · rw [hne]
      exact hfd
    · have hi : s.fds i = some a := (Function.update_of_ne hne ..).symm.trans hi
      exact h.high i a hi
  · exact (descriptors_update hfd hand a).trans_le (h.count a)

variable {g : File → File} {n ep : Nat} {items : List Item}

theorem Refs.modifyFile {other : Option Nat} (h : Refs s hand)
    (hcount : descriptors s.fds a + (if other = some a then 1 else 0) ≤ (g (s.file a)).refs)
    (hgone : (g (s.file a)).freed = true → (g (s.file a)).refs = 0)
    (hhand : ∀ b, b ≠ a → (other = some b ↔ hand = some b)) : Refs (s.modifyFile a g) other := by
  refine ⟨h.high, fun b => ?_, fun b => ?_⟩
  · rcases file_modifyFile_cases s a g b with ⟨rfl, he⟩ | ⟨hb, he⟩ <;> rw [he]
    · exact hcount
    · simp only [hhand b hb]
      exact h.count b
  · rcases file_modifyFile_cases s a g b with ⟨-, he⟩ | ⟨-, he⟩ <;> rw [he]
    · exact hgone
    · exact h.gone b

theorem hand_of_ne {b : Nat} (h : b ≠ a) : some a = some b ↔ (none : Option Nat) = some b :=
  iff_of_false (fun he => h (Option.some.inj he).symm) nofun

theorem Refs.fileDup (h : Refs s none) (ha : (s.file a).freed = false) : Refs (fileDup s a) (some a) := by
  have hcount := h.count a
  rw [if_neg nofun, Nat.add_zero] at hcount
  refine h.modifyFile ?_ (fun hf => ?_) fun b => hand_of_ne
  · rw [if_pos rfl]
    exact Nat.add_le_add_right hcount 1
  · cases ha.symm.trans hf

theorem Refs.fileClose (h : Refs s (some a)) : Refs (fileClose s a) none := by
  have hcount := h.count a
  rw [if_pos rfl] at hcount
  refine h.modifyFile ?_ (fun hf => ?_) fun b hb => (hand_of_ne hb).symm
  · rw [if_neg nofun]
    exact Nat.le_sub_one_of_lt hcount
  simp only [Bool.or_eq_true, beq_iff_eq] at hf
  rcases hf with hf | hf
  · rw [h.gone a hf]
  · exact hf

theorem Refs.place (h : Refs s none) (ha : (s.file a).freed = true) (epoll : Option Instance) :
    Refs (place s a epoll) (some a) := by
  have hcount := h.count a
  rw [h.gone a ha, if_neg nofun, Nat.add_zero] at hcount
  have hfile : Refs (s.modifyFile a fun _ => ⟨epoll, 1, s.made, false⟩) (some a) := by
    refine h.modifyFile ?_ nofun fun b => hand_of_ne
    rw [if_pos rfl]
    exact Nat.add_le_add_right hcount 1
  exact ⟨hfile.high, hfile.count, hfile.gone⟩

def Quiet (s s' : Sys) : Prop :=
  s'.fds = s.fds ∧ ∀ b, (s'.file b).refs = (s.file b).refs ∧ (s'.file b).freed = (s.file b).freed

theorem Quiet.refl (s : Sys) : Quiet s s := ⟨rfl, fun _ => ⟨rfl, rfl⟩⟩

theorem Quiet.modifyFile (hr : (g (s.file a)).refs = (s.file a).refs)
    (hf : (g (s.file a)).freed = (s.file a).freed) : Quiet s (s.modifyFile a g) := by
  refine ⟨rfl, fun b => ?_⟩
  rcases file_modifyFile_cases s a g b with ⟨rfl, he⟩ | ⟨-, he⟩ <;> rw [he]
  · exact ⟨hr, hf⟩
  · exact ⟨rfl, rfl⟩

theorem Quiet.setItems (s : Sys) (ep : Nat) (items : List Item) : Quiet s (s.setItems ep items) :=
  .modifyFile rfl rfl

def Item.same (x y : Item) : Prop := x.fd = y.fd ∧ x.f = y.f ∧ x.id = y.id

theorem Item.same.refl (x : Item) : x.same x := ⟨rfl, rfl, rfl⟩

theorem Item.same.trans {x y z : Item} (h : x.same y) (h' : y.same z) : x.same z :=
  ⟨h.1.trans h'.1, h.2.1.trans h'.2.1, h.2.2.trans h'.2.2⟩

/-- What a registration call can do: nothing, add an item for the file that the descriptor has,
or change and drop items. -/
theorem sysEpollCtl_cases {P : Sys → Prop} {epfd : Nat} {op : Op} {uev : Option (U32 × U64)} {mem : Bool}
    (h : P s)
    (hadd : ∀ ep cap it, s.fds it.fd = some it.f → it.id = (s.file it.f).id →
      P (s.modifyFile ep fun x => { x with epoll := some ⟨(s.instance? ep).items ++ [it], cap⟩ }))
    (hset : ∀ ep items, (∀ it ∈ items, ∃ x ∈ (s.instance? ep).items, x.same it) → P (s.setItems ep items)) :
    P (sysEpollCtl s epfd op fd uev mem).1 := by
  rw [sysEpollCtl]
  split
  · exact h
  split
  · exact h
  next ep hep =>
  split
  · exact h
  next f hf =>
  split
  · exact h
  split
  · exact h
  dsimp only
  generalize hk : List.findIdx? (fun it : Item => it.fd == fd && it.f == f) (s.instance? ep).items = k
  split
  · exact h
  · split
    · exact h
    · exact hadd ep _ ⟨fd, f, _, _, true, (s.file f).id⟩ hf rfl
  · refine hset ep _ fun it hit => ?_
    obtain ⟨x, hx, rfl | rfl⟩ := exists_of_mem_modify hit
    · exact ⟨_, hx, .refl _⟩
    · exact ⟨x, hx, rfl, rfl, rfl⟩
  · have hlt := (List.findIdx?_eq_some_iff_getElem.mp hk).1
    exact hset ep _ fun it hit => ⟨it, mem_of_mem_swapRemove hlt hit, .refl it⟩
  · exact h
  · exact h
  · exact h

theorem waitBegin_quiet (s : Sys) (t epfd max : Nat) : Quiet s (waitBegin s t epfd max).1 := by
  rw [waitBegin]
  split
  · exact .refl s
  split
  · exact .refl s
  split
  · exact .refl s
  · exact .setItems s ..

theorem waitTurn_quiet (s : Sys) (t : Nat) (w : Wait) (ready : Nat → U32) (n : Nat) (quit : Quit) :
    Quiet s (waitTurn s t w ready n quit).1 := by
  unfold waitTurn
  split
  · split <;> exact .refl s
  split
  · exact .setItems s ..
  · split <;> exact .refl s

theorem Refs.quiet (h : Refs s hand) (hq : Quiet s s') : Refs s' hand := by
  obtain ⟨hfds, hfile⟩ := hq
  refine ⟨fun fd a => ?_, fun a => ?_, fun a => ?_⟩
  · rw [hfds]
    exact h.high fd a
  · rw [hfds, (hfile a).1]
    exact h.count a
  · rw [(hfile a).1, (hfile a).2]
    exact h.gone a

/-! ### The invariant -/

def Item.current (s : Sys) (it : Item) : Prop := s.fds it.fd = some it.f

structure Inv (s : Sys) : Prop where
  blank : ∀ b, s.top ≤ b → (s.file b).freed = true
  known : ∀ b, (s.file b).freed = false → ∀ it ∈ (s.instance? b).items, (s.file it.f).id = it.id
  waits : ∀ w ∈ s.waits, ∀ x ∈ w, (s.file x.ep).freed = false ∧
    ∀ sl ∈ x.slots, ∀ it ∈ (s.instance? x.ep).items, it.fd = sl.fd → it.current s

theorem Inv.init : Inv {} := ⟨fun _ _ => rfl, nofun, nofun⟩

theorem Inv.shrink (h : Inv s) (htop : s'.top = s.top)
    (hfile : ∀ b, (s'.file b).id = (s.file b).id ∧ ((s'.file b).freed = false → (s.file b).freed = false) ∧
      ∀ it ∈ (s'.instance? b).items, ∃ x ∈ (s.instance? b).items, x.same it)
    (hw : ∀ w ∈ s'.waits, ∀ x ∈ w, (s'.file x.ep).freed = false ∧
      ∀ sl ∈ x.slots, ∀ it ∈ (s'.instance? x.ep).items, it.fd = sl.fd → it.current s') : Inv s' := by
  refine ⟨fun b hb => ?_, fun b hb it hit => ?_, hw⟩
  · rw [htop] at hb
    have hold := h.blank b hb
    cases hf : (s'.file b).freed with
    | true => rfl
    | false =>
      rw [(hfile b).2.1 hf] at hold
      cases hold
  · obtain ⟨hid, hfree, hitems⟩ := hfile b
    obtain ⟨x, hx, -, hxf, hxid⟩ := hitems it hit
    rw [(hfile it.f).1, ← hxf, ← hxid]
    exact h.known b (hfree hb) x hx

/-! ### Descriptors -/

theorem Inv.modifyFile (h : Inv s) (hep : (g (s.file a)).epoll = (s.file a).epoll)
    (hid : (g (s.file a)).id = (s.file a).id) (hfree : (g (s.file a)).freed = false → (s.file a).freed = false)
    (hw : ∀ w ∈ s.waits, ∀ x ∈ w, x.ep = a → (s.file a).freed = false → (g (s.file a)).freed = false) :
    Inv (s.modifyFile a g) := by
  have hitems (b : Nat) : (s.modifyFile a g).instance? b = s.instance? b := by
    rw [Sys.instance?, Sys.instance?]
    rcases file_modifyFile_cases s a g b with ⟨rfl, he⟩ | ⟨-, he⟩ <;> rw [he]
    rw [hep]
  refine h.shrink rfl (fun b => ?_) fun w hw' x hx => ?_
  · rw [hitems]
    rcases file_modifyFile_cases s a g b with ⟨rfl, he⟩ | ⟨-, he⟩ <;> rw [he]
    · exact ⟨hid, hfree, fun it hit => ⟨it, hit, .refl it⟩⟩
    · exact ⟨rfl, id, fun it hit => ⟨it, hit, .refl it⟩⟩
  · obtain ⟨hf, hcur⟩ := h.waits w hw' x hx
    rw [hitems]
    refine ⟨?_, hcur⟩
    rcases file_modifyFile_cases s a g x.ep with ⟨hep, he⟩ | ⟨-, he⟩ <;> rw [he]
    · exact hw w hw' x hx hep (hep ▸ hf)
    · exact hf

theorem Inv.fileClose (h : Inv s) (ha : Unwaited s a) : Inv (fileClose s a) := by
  refine h.modifyFile rfl rfl (by simp +contextual) fun w hw x hx hep hfree => ?_
  have hrefs : ¬ (s.file a).refs ≤ 1 := fun hle => ha hle w hw x hx hep
  simp only [hfree, Bool.false_or, beq_eq_false_iff_ne]
  omega

theorem Inv.setFd (h : Inv s) (hu : Untouched s fd ∨ s.fds fd = none) (f : Option Nat) : Inv (s.setFd fd f) := by
  refine h.shrink rfl (fun b => ⟨rfl, id, fun it hit => ⟨it, hit, .refl it⟩⟩) fun w hw x hx => ?_
  obtain ⟨hfree, hcur⟩ := h.waits w hw x hx
  refine ⟨hfree, fun sl hsl it hit he => ?_⟩
  have hold := hcur sl hsl it hit he
  have hne : it.fd ≠ fd := by
    intro hfd
    rcases hu with hu | hu
    · exact hu w hw x hx sl hsl (he.symm.trans hfd)
    · rw [Item.current, hfd, hu] at hold
      cases hold
  exact (Function.update_of_ne hne ..).trans hold

theorem allocFrom_free (h : allocFrom s n = some fd) : s.fds fd = none := by
  have := List.find?_some h
  simpa using this

theorem Inv.fileDup (h : Inv s) (a : Nat) : Inv (fileDup s a) :=
  h.modifyFile rfl rfl id fun _ _ _ _ _ => id

theorem Inv.place (h : Inv s) (ha : (s.file a).freed = true) (hf : Forgotten s a) {epoll : Option Instance}
    (he : (epoll.getD {}).items = []) : Inv (place s a epoll) := by
  have hself : (Epoll.place s a epoll).file a = ⟨epoll, 1, s.made, false⟩ := Function.update_self ..
  have hother : ∀ b, b ≠ a → (Epoll.place s a epoll).file b = s.file b := fun b hb => Function.update_of_ne hb ..
  have hinst : ∀ b, b ≠ a → (Epoll.place s a epoll).instance? b = s.instance? b := by
    intro b hb
    rw [Sys.instance?, Sys.instance?, hother b hb]
  have hlive : ∀ b, (s.file b).freed = false → b ≠ a := by
    rintro b hb rfl
    rw [ha] at hb
    cases hb
  refine ⟨fun b hb => ?_, fun b hb it hit => ?_, fun w hw x hx => ?_⟩
  · have hle : max s.top (a + 1) ≤ b := hb
    rw [hother b (by omega)]
    exact h.blank b (by omega)
  · by_cases hba : b = a
    · rw [hba, Sys.instance?, hself, he] at hit
      cases hit
    · rw [hother b hba] at hb
      rw [hinst b hba] at hit
      have hlt : b < s.top := by
        by_contra hge
        rw [h.blank b (by omega)] at hb
        cases hb
      rw [hother _ (hf b hlt hb it hit)]
      exact h.known b hb it hit
  · obtain ⟨hfree, hcur⟩ := h.waits w hw x hx
    rw [hother _ (hlive _ hfree), hinst _ (hlive _ hfree)]
    exact ⟨hfree, hcur⟩

theorem Inv.openAt (h : Inv s) (ha : (s.file a).freed = true) (hf : Forgotten s a) {epoll : Option Instance}
    (he : (epoll.getD {}).items = []) : Inv (openAt s a epoll) := by
  have hp := h.place ha hf he
  rw [Epoll.openAt]
  split
  · refine hp.fileClose fun _ w hw x hx hep => ?_
    have hfree := (h.waits w hw x hx).1
    rw [hep, ha] at hfree
    cases hfree
  · next hfd => exact hp.setFd (.inr (allocFrom_free hfd)) (some a)

theorem Inv.sysClose (h : Inv s) (hc : ClosesSafely s fd) : Inv (sysClose s fd) := by
  rw [Epoll.sysClose]
  split
  · exact h
  · next a ha => exact (h.setFd (.inl hc.1) none).fileClose (hc.2 a ha)

theorem Inv.sysDup (h : Inv s) (hr : Refs s none) (fd : Nat) : Inv (sysDup s fd) := by
  rw [Epoll.sysDup]
  split
  · exact h
  next a ha =>
  split
  · refine (h.fileDup a).fileClose fun hle => ?_
    have hpos := hr.pos ha
    rw [Epoll.fileDup, file_modifyFile_self] at hle
    dsimp only at hle
    omega
  · next hfd => exact (h.fileDup a).setFd (.inr (allocFrom_free hfd)) (some a)

theorem refs_le_fileDup (s : Sys) (a b : Nat) : (s.file b).refs ≤ ((fileDup s a).file b).refs := by
  rw [fileDup]
  rcases file_modifyFile_cases s a (fun f => { f with refs := f.refs + 1 }) b with ⟨rfl, he⟩ | ⟨-, he⟩ <;> rw [he]
  exact Nat.le_succ _

theorem Inv.sysDup3 (h : Inv s) {nfd : Nat} (hc : ClosesSafely s nfd) (fd : Nat) : Inv (sysDup3 s fd nfd) := by
  rw [Epoll.sysDup3]
  split
  · exact h
  next a ha =>
  split
  · exact h
  have hset := (h.fileDup a).setFd (.inl hc.1) (some a)
  dsimp only
  split
  · exact hset
  · next old hold => exact hset.fileClose fun hle => hc.2 old hold ((refs_le_fileDup s a old).trans hle)

theorem allocFrom_lt (h : allocFrom s n = some fd) : fd < maxFds := by
  have hmem := List.mem_of_find?_eq_some h
  have := List.mem_range'_1.mp hmem
  omega

theorem Refs.openAt (h : Refs s none) (ha : (s.file a).freed = true) (epoll : Option Instance) :
    Refs (openAt s a epoll) none := by
  have hp := h.place ha epoll
  rw [Epoll.openAt]
  split
  · exact hp.fileClose
  next fd hfd =>
  have hset := hp.setFd (allocFrom_lt hfd)
  have hfree : (Epoll.place s a epoll).fds fd = none := allocFrom_free hfd
  rw [hfree] at hset
  exact hset

theorem Refs.sysClose (h : Refs s none) (fd : Nat) : Refs (sysClose s fd) none := by
  rw [Epoll.sysClose]
  split
  · exact h
  next a ha =>
  have hset := h.setFd (h.high fd a ha)
  rw [ha] at hset
  exact hset.fileClose

theorem Refs.sysDup (h : Refs s none) (fd : Nat) : Refs (sysDup s fd) none := by
  rw [Epoll.sysDup]
  split
  · exact h
  next a ha =>
  have hdup := h.fileDup (h.live ha)
  split
  · exact hdup.fileClose
  next nfd hnfd =>
  have hset := hdup.setFd (allocFrom_lt hnfd)
  have hfree : (Epoll.fileDup s a).fds nfd = none := allocFrom_free hnfd
  rw [hfree] at hset
  exact hset

theorem Refs.sysDup3 (h : Refs s none) (fd nfd : Nat) : Refs (sysDup3 s fd nfd) none := by
  rw [Epoll.sysDup3]
  split
  · exact h
  next a ha =>
  split
  · exact h
  next hne =>
  have hset := (h.fileDup (h.live ha)).setFd (show nfd < maxFds by omega)
  have hsame : (Epoll.fileDup s a).fds nfd = s.fds nfd := rfl
  rw [hsame] at hset
  dsimp only
  split
  · next hold =>
    rw [hold] at hset
    exact hset
  · next old hold =>
    rw [hold] at hset
    exact hset.fileClose

/-! ### Registrations -/

theorem mem_setItems {s : Sys} {it : Item}
    (h : it ∈ ((s.setItems ep items).instance? ep).items) : it ∈ items := by
  rw [Sys.instance?, Sys.setItems, file_modifyFile_self] at h
  cases he : (s.file ep).epoll with
  | none =>
    rw [he] at h
    cases h
  | some e =>
    rw [he] at h
    exact h

theorem file_setItems (s : Sys) (ep : Nat) (items : List Item) (b : Nat) :
    ((s.setItems ep items).file b).id = (s.file b).id ∧
      ((s.setItems ep items).file b).freed = (s.file b).freed := by
  rw [Sys.setItems]
  rcases file_modifyFile_cases s ep _ b with ⟨rfl, he⟩ | ⟨-, he⟩ <;> rw [he] <;> exact ⟨rfl, rfl⟩

theorem Inv.setItems (h : Inv s)
    (hi : ∀ it ∈ items, ∃ x ∈ (s.instance? ep).items, x.same it) : Inv (s.setItems ep items) := by
  have hall : ∀ b, ∀ it ∈ ((s.setItems ep items).instance? b).items, ∃ x ∈ (s.instance? b).items, x.same it := by
    intro b it hit
    by_cases hb : b = ep
    · rw [hb] at hit ⊢
      exact hi it (mem_setItems hit)
    · rw [Sys.instance?, Sys.setItems, (file_modifyFile_cases s ep _ b).resolve_left (hb ·.1) |>.2] at hit
      exact ⟨it, hit, .refl it⟩
  refine h.shrink rfl (fun b => ?_) fun w hw x hx => ?_
  · obtain ⟨hid, hfree⟩ := file_setItems s ep items b
    exact ⟨hid, fun hf => hfree ▸ hf, hall b⟩
  obtain ⟨hfree, hcur⟩ := h.waits w hw x hx
  refine ⟨(file_setItems s ep items x.ep).2.trans hfree, fun sl hsl it hit he => ?_⟩
  obtain ⟨y, hy, hfd, hf, -⟩ := hall x.ep it hit
  have hcy := hcur sl hsl y hy (hfd.trans he)
  rw [Item.current, hfd, hf] at hcy
  exact hcy

theorem Inv.addItem (h : Inv s) (ep cap : Nat) (it : Item) (hf : s.fds it.fd = some it.f)
    (hid : it.id = (s.file it.f).id) :
    Inv (s.modifyFile ep fun x => { x with epoll := some ⟨(s.instance? ep).items ++ [it], cap⟩ }) := by
  generalize hg : (fun x : File => { x with epoll := some (Instance.mk ((s.instance? ep).items ++ [it]) cap) }) =
    g
  have hg : g (s.file ep) = { s.file ep with epoll := some ⟨(s.instance? ep).items ++ [it], cap⟩ } := by rw [← hg]
  have hfile (b : Nat) : ((s.modifyFile ep g).file b).id = (s.file b).id ∧
      ((s.modifyFile ep g).file b).freed = (s.file b).freed ∧
      ∀ y ∈ ((s.modifyFile ep g).instance? b).items, y ∈ (s.instance? b).items ∨ y = it := by
    rw [Sys.instance?]
    rcases file_modifyFile_cases s ep g b with ⟨rfl, he⟩ | ⟨-, he⟩ <;> rw [he]
    · rw [hg]
      exact ⟨rfl, rfl, fun y hy => (List.mem_append.mp hy).imp_right List.mem_singleton.mp⟩
    · exact ⟨rfl, rfl, fun y => .inl⟩
  refine ⟨fun b hb => ?_, fun b hb y hy => ?_, fun w hw x hx => ?_⟩
  · rw [(hfile b).2.1]
    exact h.blank b hb
  · rw [(hfile b).2.1] at hb
    rw [(hfile y.f).1]
    rcases (hfile b).2.2 y hy with hy | rfl
    · exact h.known b hb y hy
    · exact hid.symm
  · obtain ⟨hfree, hcur⟩ := h.waits w hw x hx
    refine ⟨(hfile _).2.1.trans hfree, fun sl hsl y hy he => ?_⟩
    rcases (hfile x.ep).2.2 y hy with hy | rfl
    · exact hcur sl hsl y hy he
    · exact hf

/-! ### Waiting -/

theorem collectLoop_spec {k i : Nat} (slots : List Slot) (hk : items.length = i + k)
    (hpre : ∀ j < i, ∀ it, items[j]? = some it → it.current s) :
    ∀ it ∈ (collectLoop s k items i slots).1, it.current s ∧ it ∈ items := by
  induction k generalizing items i slots with
  | zero =>
    intro it hit
    obtain ⟨j, hj⟩ := List.mem_iff_getElem?.mp hit
    have hlt : j < items.length := (List.getElem?_eq_some_iff.mp hj).1
    exact ⟨hpre j (by omega) it hj, hit⟩
  | succ k ih =>
    have hlt : i < items.length := by omega
    have hget := List.getElem?_eq_getElem hlt
    rw [collectLoop, hget]
    dsimp only
    split
    · intro it hit
      have hlen := swapRemove_length hget
      have hkeep : ∀ j < i, ∀ it, (swapRemove items i)[j]? = some it → it.current s := by
        intro j hj it hjt
        rw [getElem?_swapRemove_of_lt hlt hj] at hjt
        exact hpre j hj it hjt
      obtain ⟨hcur, hmem⟩ := ih slots (by omega) hkeep it hit
      exact ⟨hcur, mem_of_mem_swapRemove hlt hmem⟩
    · next hcur =>
      refine ih _ (by omega) fun j hj it hjt => ?_
      by_cases hji : j = i
      · rw [hji, hget] at hjt
        cases hjt
        exact not_not.mp hcur
      · exact hpre j (by omega) it hjt

theorem reportLoop_spec (slots : List Slot) (room : Nat) (items : List Item) :
    (∀ r ∈ (reportLoop slots room items).1, ∃ sl ∈ slots, r.item.fd = sl.fd ∧ ∃ x ∈ items, x.same r.item) ∧
      ∀ it ∈ (reportLoop slots room items).2, ∃ x ∈ items, x.same it := by
  induction slots generalizing room items with
  | nil => exact ⟨nofun, fun it hit => ⟨it, hit, .refl it⟩⟩
  | cons sl slots ih =>
    have hskip : (∀ r ∈ (reportLoop slots room items).1, ∃ y ∈ sl :: slots, r.item.fd = y.fd ∧ ∃ x ∈ items,
      x.same r.item) ∧
        ∀ it ∈ (reportLoop slots room items).2, ∃ x ∈ items, x.same it := by
      refine ⟨fun r hr => ?_, (ih room items).2⟩
      obtain ⟨y, hy, h⟩ := (ih room items).1 r hr
      exact ⟨y, List.mem_cons_of_mem sl hy, h⟩
    rw [reportLoop]
    split
    · exact ⟨nofun, fun it hit => ⟨it, hit, .refl it⟩⟩
    split
    · exact hskip
    next it hit =>
    split
    · exact hskip
    next hok =>
    have hmem := List.mem_of_getElem? hit
    have hdisarm : ∀ y ∈ (if it.events &&& epollOneshot ≠ 0 then
        items.modify sl.map fun x => { x with armed := false } else items), ∃ x ∈ items, x.same y := by
      intro y hy
      split at hy
      · obtain ⟨x, hx, rfl | rfl⟩ := exists_of_mem_modify hy
        · exact ⟨_, hx, .refl _⟩
        · exact ⟨x, hx, rfl, rfl, rfl⟩
      · exact ⟨y, hy, .refl y⟩
    refine ⟨fun r hr => ?_, fun y hy => ?_⟩
    · rcases List.mem_cons.mp hr with rfl | hr
      · exact ⟨sl, List.mem_cons_self, not_not.mp fun hne => hok (.inr (.inl hne)), it, hmem, .refl it⟩
      · obtain ⟨z, hz, hfd, x, hx, hxr⟩ := (ih _ _).1 r hr
        obtain ⟨x', hx', hxx⟩ := hdisarm x hx
        exact ⟨z, List.mem_cons_of_mem sl hz, hfd, x', hx', hxx.trans hxr⟩
    · obtain ⟨x, hx, hxy⟩ := (ih _ _).2 y hy
      obtain ⟨x', hx', hxx⟩ := hdisarm x hx
      exact ⟨x', hx', hxx.trans hxy⟩

theorem Inv.setWait (h : Inv s) (t : Nat) {w : Option Wait}
    (hw : ∀ x ∈ w, (s.file x.ep).freed = false ∧
      ∀ sl ∈ x.slots, ∀ it ∈ (s.instance? x.ep).items, it.fd = sl.fd → it.current s) :
    Inv { s with waits := s.waits.set t w } := by
  refine ⟨h.blank, h.known, fun w' hw' => ?_⟩
  rcases List.mem_or_eq_of_mem_set hw' with hw' | rfl
  · exact h.waits w' hw'
  · exact hw

theorem epollOf_fds {epfd : Nat} (h : epollOf s epfd = some ep) : s.fds epfd = some ep := by
  rw [epollOf] at h
  split at h
  · cases h
  next f hf =>
  split at h
  · cases h
    exact hf
  · cases h

theorem Inv.waitBegin (h : Inv s) (hr : Refs s none) (t epfd max : Nat) : Inv (waitBegin s t epfd max).1 := by
  rw [Epoll.waitBegin]
  split
  · exact h
  split
  · exact h
  next ep hep =>
  split
  · exact h
  have hspec := collectLoop_spec (s := s) [] (Nat.zero_add (s.instance? ep).items.length).symm nofun
  dsimp only
  refine (h.setItems fun it hit => ⟨it, (hspec it hit).2, .refl it⟩).setWait t fun x hx => ?_
  cases hx
  refine ⟨(file_setItems ..).2.trans (hr.live (epollOf_fds hep)), fun sl _ it hit _ => ?_⟩
  exact (hspec it (mem_setItems hit)).1

theorem Inv.waitTurn (h : Inv s) {t : Nat} {w : Wait} (hw : s.waits[t]? = some (some w)) (ready : Nat → U32)
    (n : Nat)
    (quit : Quit) : Inv (waitTurn s t w ready n quit).1 := by
  obtain ⟨hfree, hcur⟩ := h.waits _ (List.mem_of_getElem? hw) w rfl
  unfold Epoll.waitTurn
  split
  · next sl hsl =>
    split
    · exact h
    next r _ =>
    refine h.setWait t fun x hx => ?_
    cases hx
    refine ⟨hfree, fun y hy it hit he => ?_⟩
    rcases List.mem_or_eq_of_mem_set hy with hy | rfl
    · exact hcur y hy it hit he
    · exact hcur sl (List.mem_of_getElem? hsl) it hit he
  · split
    · exact (h.setItems (reportLoop_spec w.slots w.max _).2).setWait t nofun
    · split
      · refine h.setWait t fun x hx => ?_
        cases hx
        exact ⟨hfree, hcur⟩
      · exact h.setWait t nofun
      · exact h.setWait t nofun

/-! ### Runs -/

theorem Refs.step (h : Refs s none) (e : Event) : Refs (step s e) none := by
  cases e with
  | thread => exact h.quiet (.refl s)
  | openFile a =>
    rw [Epoll.step, act]
    dsimp only
    split
    · next ha => exact h.openAt ha none
    · exact h
  | epollCreate a =>
    rw [Epoll.step, act]
    dsimp only
    split
    · next ha => exact h.openAt ha _
    · exact h
  | close fd => exact h.sysClose fd
  | dup fd => exact h.sysDup fd
  | dup3 fd nfd => exact h.sysDup3 fd nfd
  | epollCtl epfd op fd uev mem =>
    exact h.quiet (sysEpollCtl_cases (.refl s) (fun _ _ _ _ _ => .modifyFile rfl rfl) fun ep items _ =>
      .setItems s ep items)
  | epollWait t epfd max =>
    rw [Epoll.step, act]
    split
    · exact h.quiet (waitBegin_quiet ..)
    · exact h
  | turn t ready n quit =>
    rw [Epoll.step, act]
    split
    · exact h.quiet (waitTurn_quiet ..)
    · exact h

theorem Inv.step (h : Inv s) (hr : Refs s none) {e : Event} (he : Steady s e) : Inv (step s e) := by
  cases e with
  | thread =>
    refine ⟨h.blank, h.known, fun w hw => ?_⟩
    rcases List.mem_append.mp hw with hw | hw
    · exact h.waits w hw
    · rw [List.mem_singleton.mp hw]
      nofun
  | openFile a =>
    rw [Epoll.step, act]
    dsimp only
    split
    · next ha => exact h.openAt ha he rfl
    · exact h
  | epollCreate a =>
    rw [Epoll.step, act]
    dsimp only
    split
    · next ha => exact h.openAt ha he rfl
    · exact h
  | close fd => exact h.sysClose he
  | dup fd => exact h.sysDup hr fd
  | dup3 fd nfd => exact h.sysDup3 he fd
  | epollCtl epfd op fd uev mem => exact sysEpollCtl_cases h h.addItem fun _ _ => h.setItems
  | epollWait t epfd max =>
    rw [Epoll.step, act]
    split
    · exact h.waitBegin hr t epfd max
    · exact h
  | turn t ready n quit =>
    rw [Epoll.step, act]
    split
    · next w hw => exact h.waitTurn hw ready n quit
    · exact h

theorem inv_run {es : List Event} (h : Along Steady step {} es) : Inv (run step {} es) := by
  have hboth : Refs (run step {} es) none ∧ Inv (run step {} es) :=
    invariant_run (P := fun s => Refs s none ∧ Inv s) (fun _ e ⟨hr, hi⟩ he => ⟨hr.step e, hi.step hr he⟩)
      ⟨Refs.init, Inv.init⟩ h
  exact hboth.2

theorem Inv.reported (h : Inv s) {t : Nat} {ready : Nat → U32} {quit : Quit} {l : List Report}
    (ha : answer s (.turn t ready n quit) = some (.reported l)) :
    ∀ r ∈ l, s.fds r.item.fd = some r.item.f ∧ (s.file r.item.f).id = r.item.id := by
  rw [answer, act] at ha
  split at ha
  · next w hw =>
    obtain ⟨hfree, hcur⟩ := h.waits _ (List.mem_of_getElem? hw) w rfl
    unfold Epoll.waitTurn at ha
    split at ha
    · split at ha <;> cases ha
    split at ha
    · cases ha
      intro r hr
      obtain ⟨sl, hsl, hfd, x, hx, hxfd, hxf, hxid⟩ := (reportLoop_spec ..).1 r hr
      have hc := hcur sl hsl x hx (hxfd.trans hfd)
      have hk := h.known _ hfree x hx
      rw [Item.current, hxfd, hxf] at hc
      rw [hxf, hxid] at hk
      exact ⟨hc, hk⟩
    · split at ha <;> cases ha
      nofun
  · cases ha

/-- In every run in which no new file takes an address that an item remembers and no
descriptor changes under a wait that looks at it, an event is reported for a registration only
if its descriptor has the very file that was registered. -/
theorem reports_registered_file {es : List Event} (h : Along Steady step {} es) (t : Nat) (ready : Nat → U32)
    (n : Nat)
    (quit : Quit) {l : List Report} (ha : answer (run step {} es) (.turn t ready n quit) = some (.reported l)) :
    ∀ r ∈ l, (run step {} es).fds r.item.fd = some r.item.f ∧ ((run step {} es).file r.item.f).id = r.item.id :=
  (inv_run h).reported ha

def reopened : List Event :=
  [.thread, .epollCreate 0, .openFile 1, .epollCtl 0 .add 1 (some (1, 7)) true, .close 1, .openFile 2,
    .epollWait 0 0 4,
    .turn 0 (fun _ => 1) 1 .timeout, .epollCtl 0 .add 1 (some (1, 8)) true, .epollWait 0 0 4,
      .turn 0 (fun _ => 1) 1 .stay]

theorem reports_registered_file_reopened :
    Along Steady step {} reopened ∧
      answer (run step {} reopened) (.turn 0 (fun _ => 1) 1 .stay) =
        some (.reported [⟨1, 8, ⟨1, 2, 1, 8, true, 2⟩⟩]) ∧
      ((run step {} reopened).file 2).id = 2 := by
  have h : Along Steady step {} reopened := by decide +kernel
  have ha : answer (run step {} reopened) (.turn 0 (fun _ => 1) 1 .stay) =
      some (.reported [⟨1, 8, ⟨1, 2, 1, 8, true, 2⟩⟩]) := by decide +kernel
  exact ⟨h, ha, (reports_registered_file h 0 (fun _ => 1) 1 .stay ha _ List.mem_cons_self).2⟩

def addressReused : List Event :=
  [.thread, .epollCreate 0, .openFile 1, .epollCtl 0 .add 1 (some (1, 7)) true, .close 1, .openFile 1,
    .epollWait 0 0 4, .turn 0 (fun _ => 1) 1 .stay]

theorem reused_address_reports_new_file :
    answer (run step {} addressReused) (.turn 0 (fun _ => 1) 1 .stay) =
      some (.reported [⟨1, 7, ⟨1, 1, 1, 7, true, 1⟩⟩]) ∧
      ((run step {} addressReused).file 1).id = 2 := by decide +kernel

end Sic.Epoll
