import Sic.Lib.Run
import Sic.Mm.HeapFree

/-! The heap over whole runs of its calls, with the stores of those who own the
allocations in between. -/

namespace Sic.Heap

variable {L : Layout} {h : State} {live : List Alloc} {regs : List Region} {free : Nat → List Nat}
  {r : Region} {a b : Alloc}

inductive Call where
  | kmalloc (size : Nat) (frames : List U64)
  | kzalloc (size : Nat) (frames : List U64)
  | krealloc (ptr : Option Nat) (size : Nat) (frames : List U64)
  | kfree (ptr : Option Nat)
  /-- An owner stores a byte. -/
  | store (x : Nat) (v : U8)

structure Machine where
  state : State := {}
  live : List Alloc := []

def storeByte (L : Layout) (w : Nat → Nat) (x : Nat) (v : U8) : Nat → Nat :=
  let y := L.wordOf x
  let k := 256 ^ (x % L.wordBytes)
  Function.update w y (w y / (k * 256) * (k * 256) + v.toNat * k + w y % k)

def reallocs (live : List Alloc) (ptr : Option Nat) (size : Nat) (out : Option Nat) : List Alloc :=
  match ptr with
  | none => adds live size out
  | some p => if size = 0 ∨ out.isSome then adds (without live p) size out else live

def step (L : Layout) (m : Machine) : Call → Machine
  | .kmalloc size frames =>
    let (h, out) := kmalloc L m.state size frames
    ⟨h, adds m.live size out⟩
  | .kzalloc size frames =>
    let (h, out) := kzalloc L m.state size frames
    ⟨h, adds m.live size out⟩
  | .krealloc ptr size frames =>
    let (h, out) := krealloc L m.state ptr size frames
    ⟨h, reallocs m.live ptr size out⟩
  | .kfree ptr => ⟨kfree L m.state ptr, (ptr.map (without m.live)).getD m.live⟩
  | .store x v => ⟨{ m.state with word := storeByte L m.state.word x v }, m.live⟩

def Usable (L : Layout) (h : State) (a : Alloc) (x : Nat) : Prop :=
  a.ptr ≤ x ∧ x < a.ptr + (usableSize L h a.ptr).1

/-- A size is a `size_t`, only live pointers are freed, and owners store into their own bytes. -/
def Proper (L : Layout) (m : Machine) : Call → Prop
  | .kmalloc size _ | .kzalloc size _ => size < 2 ^ L.bits
  | .krealloc ptr size _ => size < 2 ^ L.bits ∧ ∀ p ∈ ptr, p ∈ m.live.map Alloc.ptr
  | .kfree ptr => ∀ p ∈ ptr, p ∈ m.live.map Alloc.ptr
  | .store x _ => ∃ a ∈ m.live, Usable L m.state a x

/-- Adding a header to the size does not wrap past zero. -/
def Call.Fits (L : Layout) : Call → Prop
  | .kmalloc size _ | .kzalloc size _ | .krealloc _ size _ => size ≤ 2 ^ L.bits - largeHdrSize
  | .kfree _ | .store _ _ => True

instance (L : Layout) (h : State) (a : Alloc) (x : Nat) : Decidable (Usable L h a x) :=
  inferInstanceAs (Decidable (_ ∧ _))

instance (L : Layout) (m : Machine) : (e : Call) → Decidable (Proper L m e)
  | .kmalloc size _ | .kzalloc size _ => inferInstanceAs (Decidable (size < 2 ^ L.bits))
  | .krealloc ptr size _ => inferInstanceAs (Decidable (size < 2 ^ L.bits ∧ ∀ p ∈ ptr, p ∈ m.live.map Alloc.ptr))
  | .kfree ptr => inferInstanceAs (Decidable (∀ p ∈ ptr, p ∈ m.live.map Alloc.ptr))
  | .store x _ => inferInstanceAs (Decidable (∃ a ∈ m.live, Usable L m.state a x))

instance (L : Layout) : (e : Call) → Decidable (e.Fits L)
  | .kmalloc size _ | .kzalloc size _ | .krealloc _ size _ =>
    inferInstanceAs (Decidable (size ≤ 2 ^ L.bits - largeHdrSize))
  | .kfree _ | .store _ _ => .isTrue trivial

inductive Linked (w : Nat → Nat) : Nat → Nat → Prop where
  | here {o : Nat} (h : o ≠ 0) : Linked w o o
  | next {a o : Nat} (h : a ≠ 0) (hl : Linked w (w a) o) : Linked w a o

inductive MetaByte (L : Layout) (m : Machine) : Nat → Prop where
  | slabHeader {s x : Nat} (ho : m.state.pages.owner s = .slab s) (hlo : L.pageAddr s ≤ x)
      (hx : x < L.pageAddr s + slabHdrSize) : MetaByte L m x
  | largeHeader {a : Alloc} {x : Nat} (ha : a ∈ m.live)
      (ho : m.state.pages.owner (L.pageIndex a.ptr) = .large) (hlo : a.ptr ≤ x + largeHdrSize)
      (hx : x < a.ptr) : MetaByte L m x
  | link {s o x : Nat} (ho : m.state.pages.owner s = .slab s)
      (hl : Linked m.state.word (m.state.slab s).freelist o) (hlo : o ≤ x) (hx : x < o + L.wordBytes) :
        MetaByte L m x

structure AllocOk (L : Layout) (m : Machine) (a : Alloc) : Prop where
  aligned : a.ptr % 16 = 0
  address : 0 < a.ptr ∧ a.ptr + (usableSize L m.state a.ptr).1 ≤ 2 ^ L.bits
  size : a.size ≤ (usableSize L m.state a.ptr).1
  mapped : ∀ x, Usable L m.state a x → L.base ≤ x ∧ x < L.base + L.pages * pageSize ∧
    (m.state.pages.vmm (L.pageIndex x)).isSome = true
  apart : ∀ b ∈ m.live, b ≠ a → ∀ x, Usable L m.state a x → ¬ Usable L m.state b x
  clear : ∀ x, Usable L m.state a x → ¬ MetaByte L m x

/-! ### What the invariant gives -/

theorem Held.usable (ha : Held L h free a r) (hi : Inv L h live regs free) (hr : r ∈ regs) :
    (usableSize L h a.ptr).1 = r.cap h := by
  unfold usableSize
  rw [(hi.owned r hr _ (ha.ptr_byte hi hr).has).2]
  cases ha with
  | large hk hptr hm hp hsize =>
    have hidx : L.pageIndex (a.ptr - largeHdrSize) = r.ext.start := by
      simp only [Layout.pageIndex, Layout.pageAddr, pageSize] at hptr ⊢
      omega
    simp only [Region.owner, Region.cap, hk, Bool.false_eq_true, if_false, hidx, hp]
  | slab i hk hlt hptr hnot hsize => simp only [Region.owner, Region.cap, hk, if_true]

theorem Held.size_le (ha : Held L h free a r) : a.size ≤ r.cap h := by
  cases ha with
  | large hk _ _ _ hsize =>
    simp only [Region.cap, hk, Bool.false_eq_true, if_false]
    omega
  | slab _ hk _ _ _ hsize =>
    simp only [Region.cap, hk, if_true]
    exact hsize

theorem Held.aligned (ha : Held L h free a r) (hi : Inv L h live regs free) (hr : r ∈ regs) :
    a.ptr % 16 = 0 := by
  have hb := L.aligned
  cases ha with
  | large _ hptr _ _ _ =>
    simp only [Layout.pageAddr, pageSize, largeHdrSize] at hb hptr
    omega
  | slab i hk _ hptr _ _ =>
    have hmul : i * (h.slab r.ext.start).objSize % 16 = 0 := by
      rw [Nat.mul_mod, (hi.slabs r hr hk).2.size_pos.2.1, Nat.mul_zero, Nat.zero_mod]
    simp only [objAddr, Layout.pageAddr, pageSize, slabHdrSize] at hb hptr
    omega

variable {x size : Nat}

theorem Chain.mem_of_linked {w : Nat → Nat} {o : Nat} {l : List Nat} (hc : Chain w x l)
    (hl : Linked w x o) : o ∈ l := by
  induction hl generalizing l with
  | @here o hne =>
    cases l with
    | nil => exact absurd hc hne
    | cons y l => exact hc.1 ▸ List.mem_cons_self ..
  | @next x o hne _ ih =>
    cases l with
    | nil => exact absurd hc hne
    | cons y l =>
      obtain ⟨rfl, hc⟩ := hc
      exact List.mem_cons_of_mem _ (ih hc)

theorem Held.apart_free (ha : Held L h free a r) (hi : Inv L h live regs free) (hr : r ∈ regs)
    (hk : r.slab = true) {o : Nat} (ho : o ∈ free r.ext.start)
    (hx : a.ptr ≤ x ∧ x < a.ptr + r.cap h) : ¬ (o ≤ x ∧ x < o + L.wordBytes) := by
  have hs := (hi.slabs r hr hk).2
  obtain ⟨j, hj, hoj⟩ := hs.objs o ho
  have hpos := hs.size_pos.1
  cases ha with
  | large hk' _ _ _ _ =>
    rw [hk] at hk'
    cases hk'
  | slab i _ hlt hptr hnot hsize =>
    have hne : i ≠ j := by
      rintro rfl
      exact hnot (hptr ▸ hoj ▸ ho)
    have := objAddr_apart (L := L) r.ext.start (h.slab r.ext.start).objSize hne
    have hword := L.wordBytes_eq
    simp only [Region.cap, hk, if_true] at hx
    omega

theorem Held.apart_held (ha : Held L h free a r) (hb : Held L h free b r) (hne : b.ptr ≠ a.ptr)
    (hx : a.ptr ≤ x ∧ x < a.ptr + r.cap h) : ¬ (b.ptr ≤ x ∧ x < b.ptr + r.cap h) := by
  rcases ha with ⟨hk, hptr, -⟩ | ⟨i, hk, -, hptr, -⟩
  · rcases hb with ⟨-, hptr', -⟩ | ⟨-, hk', -⟩
    · exact absurd (hptr'.trans hptr.symm) hne
    · rw [hk] at hk'
      cases hk'
  · rcases hb with ⟨hk', -⟩ | ⟨j, -, -, hptr', -⟩
    · rw [hk] at hk'
      cases hk'
    · have hij : i ≠ j := by
        rintro rfl
        exact hne (hptr'.trans hptr.symm)
      have := objAddr_apart (L := L) r.ext.start (h.slab r.ext.start).objSize hij
      simp only [Region.cap, hk, if_true] at hx ⊢
      omega

theorem Inv.not_meta {m : Machine} (hi : Inv L m.state m.live regs free) (hr : r ∈ regs)
    (ha : Held L m.state free a r) (hx : a.ptr ≤ x ∧ x < a.ptr + r.cap m.state) :
    ¬ MetaByte L m x := by
  have hbyte := ha.byte hi hr hx.1 hx.2
  rintro (⟨ho, hlo, hhi⟩ | ⟨hb, ho, hlo, hhi⟩ | ⟨ho, hl, hlo, hhi⟩)
  · obtain ⟨r', hr', hk, rfl, -⟩ := hi.owner _ _ ho
    have hb' : r'.Byte L x := by
      have hlen := (hi.slabs r' hr' hk).1
      simp only [Region.Byte, Layout.pageAddr, Extent.stop, hlen, slabPages, pageSize, slabHdrSize]
        at hlo hhi ⊢
      omega
    obtain rfl := hi.byte_eq hr hr' hbyte hb'
    rcases ha with ⟨hk', -⟩ | ⟨i, -, -, hptr, -⟩
    · rw [hk] at hk'
      cases hk'
    · unfold objAddr at hptr
      omega
  · obtain ⟨r', hr', hheld⟩ := hi.held _ hb
    rw [(hi.owned r' hr' _ (hheld.ptr_byte hi hr').has).2] at ho
    have hpb := hheld.ptr_byte hi hr'
    rcases hheld with ⟨hk, hptr, -⟩ | ⟨i, hk, -⟩
    · obtain rfl := hi.byte_eq hr hr' hbyte ⟨by omega, by have := hpb.2; omega⟩
      rcases ha with ⟨-, hptr', -⟩ | ⟨i, hk', -⟩
      · omega
      · rw [hk] at hk'
        cases hk'
    · rw [Region.owner, if_pos hk] at ho
      cases ho
  · obtain ⟨r', hr', hk, rfl, -⟩ := hi.owner _ _ ho
    have hs := (hi.slabs r' hr' hk).2
    have hmem := hs.chain.mem_of_linked hl
    have hword := L.wordBytes_eq
    have hb' := hi.free_byte hr' hk hmem hlo (by have := hs.size_pos.1; omega)
    obtain rfl := hi.byte_eq hr hr' hbyte hb'
    exact ha.apart_free hi hr hk hmem hx ⟨hlo, hhi⟩

theorem Inv.allocOk {m : Machine} (hi : Inv L m.state m.live regs free) (ha : a ∈ m.live) : AllocOk L m a := by
  obtain ⟨r, hr, hheld⟩ := hi.held a ha
  have hcap := hheld.usable hi hr
  have hin {x : Nat} (hx : Usable L m.state a x) : a.ptr ≤ x ∧ x < a.ptr + r.cap m.state := hcap ▸ hx
  refine ⟨hheld.aligned hi hr, ?_, hcap ▸ hheld.size_le, fun x hx => ?_, fun b hb hne x hx hxb => ?_,
    fun x hx => hi.not_meta hr hheld (hin hx)⟩
  · have hpos := hheld.cap_pos hi hr
    have hfirst := hi.in_heap hr (hheld.byte hi hr (Nat.le_refl _) (by omega))
    have hlast := hi.in_heap hr (hheld.byte hi hr (x := a.ptr + r.cap m.state - 1) (by omega) (by omega))
    have hnull := L.notNull
    have hfits := L.fits
    rw [hcap]
    omega
  · have hbyte := hheld.byte hi hr (hin hx).1 (hin hx).2
    exact ⟨(hi.in_heap hr hbyte).1, (hi.in_heap hr hbyte).2, (hi.owned r hr _ hbyte.has).1⟩
  · obtain ⟨r', hr', hheld'⟩ := hi.held b hb
    have hxb' : b.ptr ≤ x ∧ x < b.ptr + r'.cap m.state := hheld'.usable hi hr' ▸ hxb
    obtain rfl := hi.byte_eq hr hr' (hheld.byte hi hr (hin hx).1 (hin hx).2)
      (hheld'.byte hi hr' hxb'.1 hxb'.2)
    refine hheld.apart_held hheld' (fun he => hne ?_) (hin hx) hxb'
    exact List.inj_on_of_nodup_map hi.ptrs hb ha he

/-! ### The calls -/

theorem kmalloc_inv (hi : Inv L h live regs free) (hs : size ≤ 2 ^ L.bits - largeHdrSize)
    (frames : List U64) : Sound L (kmalloc L h size frames).1 (adds live size (kmalloc L h size frames).2) := by
  unfold kmalloc
  split
  · exact ⟨regs, free, hi⟩
  · exact kmallocLocked_inv hi hs frames

theorem Inv.writeWords (hi : Inv L h live regs free) (ha : a ∈ live) {n : Nat} (hn : n ≤ a.size)
    (src : Nat → Nat) : Inv L { h with word := writeWords L h.word a.ptr n src } live regs free := by
  obtain ⟨r, hr, hheld⟩ := hi.held a ha
  have hle := hheld.size_le
  refine hi.setWord hr hheld fun x hx => if_neg ?_
  omega

theorem kzalloc_inv (hi : Inv L h live regs free) (hs : size ≤ 2 ^ L.bits - largeHdrSize)
    (frames : List U64) : Sound L (kzalloc L h size frames).1 (adds live size (kzalloc L h size frames).2) := by
  have hm := kmalloc_inv hi hs frames
  unfold kzalloc
  generalize kmalloc L h size frames = x at hm
  obtain ⟨h', _ | p⟩ := x
  · exact hm
  · obtain ⟨regs', free', hinv⟩ := hm
    exact ⟨regs', free', hinv.writeWords (a := ⟨p, size⟩) (List.mem_cons_self ..) (Nat.le_refl _) _⟩

theorem Inv.resize (hi : Inv L h live regs free) (ha : a ∈ live) (hs : size ≤ (usableSize L h a.ptr).1) :
    Inv L h (⟨a.ptr, size⟩ :: without live a.ptr) regs free := by
  refine ⟨hi.pages, hi.owned, hi.owner, hi.slabs, hi.partials, hi.nodup, fun b hb => ?_, ?_⟩
  · rcases List.mem_cons.mp hb with rfl | hb
    · obtain ⟨r, hr, hheld⟩ := hi.held a ha
      have hpos := hi.pages.tiled.pos r.ext (List.mem_append_left _ (List.mem_map_of_mem hr))
      rw [hheld.usable hi hr] at hs
      refine ⟨r, hr, ?_⟩
      cases hheld with
      | large hk hptr hm hp _ =>
        simp only [Region.cap, hk, Bool.false_eq_true, if_false] at hs
        refine .large hk hptr hm hp ?_
        simp only [pageSize, largeHdrSize] at hs ⊢
        omega
      | slab i hk hlt hptr hnot _ =>
        simp only [Region.cap, hk, if_true] at hs
        exact .slab i hk hlt hptr hnot hs
    · exact hi.held b (mem_without.mp hb).1
  · refine List.nodup_cons.mpr ⟨fun hmem => ?_, nodup_without hi.ptrs⟩
    obtain ⟨b, hb, he⟩ := List.mem_map.mp hmem
    exact (mem_without.mp hb).2 he

theorem krealloc_inv (hi : Inv L h live regs free) {ptr : Option Nat} (hp : ∀ p ∈ ptr, p ∈ live.map Alloc.ptr)
    (hs : size ≤ 2 ^ L.bits - largeHdrSize) (frames : List U64) :
    Sound L (krealloc L h ptr size frames).1 (reallocs live ptr size (krealloc L h ptr size frames).2) := by
  unfold krealloc
  cases ptr with
  | none => exact kmalloc_inv hi hs frames
  | some p =>
    obtain ⟨a, ha, rfl⟩ := List.mem_map.mp (hp p rfl)
    dsimp only
    by_cases hz : size = 0
    · rw [if_pos hz]
      simp only [reallocs, hz, true_or, if_true]
      exact (kfreeLocked_inv hi ha).2
    rw [if_neg hz]
    by_cases hfit : size ≤ (usableSize L h a.ptr).1 ∧
        (maxSmall < size ↔ maxSmall < (usableSize L h a.ptr).1)
    · rw [if_pos hfit]
      simp only [reallocs, Option.isSome_some, or_true, if_true]
      exact ⟨regs, free, hi.resize ha hfit.1⟩
    rw [if_neg hfit]
    have hm := kmallocLocked_inv hi hs frames
    generalize kmallocLocked L h size frames = x at hm
    obtain ⟨h', _ | n⟩ := x
    · simp only [reallocs, hz, Option.isSome_none, Bool.false_eq_true, or_self, if_false]
      exact hm
    · obtain ⟨regs', free', hinv⟩ := hm
      have hcopy := hinv.writeWords (a := ⟨n, size⟩) (List.mem_cons_self ..)
        (Nat.min_le_right (usableSize L h a.ptr).2 _) fun x => h'.word (x - n + a.ptr)
      have hne : n ≠ a.ptr := fun he =>
        (List.nodup_cons.mp hinv.ptrs).1 (List.mem_map.mpr ⟨a, ha, he.symm⟩)
      have hlive : without (adds live size (some n)) a.ptr = adds (without live a.ptr) size (some n) := by
        simp [without, adds, hne]
      simp only [reallocs, Option.isSome_some, or_true, if_true]
      rw [← hlive]
      exact (kfreeLocked_inv hcopy (List.mem_cons_of_mem _ ha)).2

theorem kfree_inv (hi : Inv L h live regs free) {ptr : Option Nat} (hp : ∀ p ∈ ptr, p ∈ live.map Alloc.ptr) :
    Sound L (kfree L h ptr) ((ptr.map (without live)).getD live) := by
  unfold kfree
  cases ptr with
  | none => exact ⟨regs, free, hi⟩
  | some p =>
    obtain ⟨a, ha, rfl⟩ := List.mem_map.mp (hp p rfl)
    exact (kfreeLocked_inv hi ha).2

theorem store_inv (hi : Inv L h live regs free) (ha : a ∈ live) (hx : Usable L h a x) (v : U8) :
    Inv L { h with word := storeByte L h.word x v } live regs free := by
  obtain ⟨r, hr, hheld⟩ := hi.held a ha
  have hal := hheld.aligned hi hr
  unfold Usable at hx
  rw [hheld.usable hi hr] at hx
  have hle := L.le_wordOf hal hx.1
  have hadd := L.wordOf_add_mod x
  refine hi.setWord hr hheld fun y hy => Function.update_of_ne ?_ ..
  omega

/-! ### Runs -/

theorem step_sound (m : Machine) (e : Call) (hs : Sound L m.state m.live) (hok : Proper L m e ∧ e.Fits L) :
    Sound L (step L m e).state (step L m e).live := by
  obtain ⟨regs, free, hi⟩ := hs
  obtain ⟨hproper, hfits⟩ := hok
  cases e with
  | kmalloc size frames => exact kmalloc_inv hi hfits frames
  | kzalloc size frames => exact kzalloc_inv hi hfits frames
  | krealloc ptr size frames => exact krealloc_inv hi hproper.2 hfits frames
  | kfree ptr => exact kfree_inv hi hproper
  | store x v =>
    obtain ⟨a, ha, hx⟩ := hproper
    exact ⟨regs, free, store_inv hi ha hx v⟩

theorem init_sound : Sound L ({} : Machine).state ({} : Machine).live := by
  refine ⟨[], fun _ => [], ⟨⟨.nil, ?_, ?_⟩, Nat.zero_le _⟩, ?_, ?_, ?_, ?_, fun _ => .nil, ?_, .nil⟩ <;> simp

end Sic.Heap
