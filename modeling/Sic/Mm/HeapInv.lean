import Mathlib.Data.List.Pairwise
import Sic.Mm.Heap

/-! The heap as a list of regions: runs of pages that hold one large allocation
or one slab. Live allocations are what the regions hold and the freelists do not. -/

namespace Sic.Heap

variable {L : Layout}

structure Alloc where
  ptr : Nat
  size : Nat
deriving DecidableEq

structure Region where
  ext : Extent
  slab : Bool

def Region.owner (r : Region) : Owner := if r.slab then .slab r.ext.start else .large

def Chain (w : Nat → Nat) : Nat → List Nat → Prop
  | a, [] => a = 0
  | a, o :: l => a = o ∧ Chain w (w o) l

variable {l : List Nat} {x s i o : Nat}

theorem Chain.congr {w w' : Nat → Nat} {a : Nat} (h : Chain w a l)
    (hw : ∀ o ∈ l, w' o = w o) : Chain w' a l := by
  induction l generalizing a with
  | nil => exact h
  | cons o l ih =>
    refine ⟨h.1, ?_⟩
    rw [hw o (List.mem_cons_self ..)]
    exact ih h.2 fun x hx => hw x (List.mem_cons_of_mem _ hx)

structure SlabOk (L : Layout) (h : State) (s : Nat) (free : List Nat) : Prop where
  magic : (h.slab s).magic = slabMagic
  cache : (h.slab s).cache < classSizes.length
  size : (h.slab s).objSize = classSizes.getD (h.slab s).cache 0
  total : (h.slab s).total = (slabBytes - slabHdrSize) / (h.slab s).objSize
  chain : Chain h.word (h.slab s).freelist free
  nodup : free.Nodup
  objs : ∀ o ∈ free, ∃ i < (h.slab s).total, o = objAddr L s (h.slab s).objSize i
  count : (h.slab s).freeCount = free.length

inductive Held (L : Layout) (h : State) (free : Nat → List Nat) (a : Alloc) (r : Region) : Prop where
  | large (hk : r.slab = false) (hptr : a.ptr = L.pageAddr r.ext.start + largeHdrSize)
      (hmagic : (h.large r.ext.start).magic = largeMagic) (hpages : (h.large r.ext.start).pages = r.ext.len)
      (hsize : a.size + largeHdrSize ≤ r.ext.len * pageSize)
  | slab (i : Nat) (hk : r.slab = true) (hi : i < (h.slab r.ext.start).total)
      (hptr : a.ptr = objAddr L r.ext.start (h.slab r.ext.start).objSize i)
      (hfree : a.ptr ∉ free r.ext.start) (hsize : a.size ≤ (h.slab r.ext.start).objSize)

structure Inv (L : Layout) (h : State) (live : List Alloc) (regs : List Region) (free : Nat → List Nat) :
    Prop where
  pages : PagesOk L h.pages (regs.map Region.ext)
  owned : ∀ r ∈ regs, ∀ p, r.ext.Has p → (h.pages.vmm p).isSome = true ∧ h.pages.owner p = r.owner
  owner : ∀ p s, h.pages.owner p = .slab s →
    ∃ r ∈ regs, r.slab = true ∧ r.ext.start = s ∧ r.ext.Has p
  slabs : ∀ r ∈ regs, r.slab = true → r.ext.len = slabPages ∧ SlabOk L h r.ext.start (free r.ext.start)
  partials : ∀ c s, s ∈ h.partials c ↔
    ∃ r ∈ regs, r.slab = true ∧ r.ext.start = s ∧ (h.slab s).cache = c ∧ free s ≠ []
  nodup : ∀ c, (h.partials c).Nodup
  held : ∀ a ∈ live, ∃ r ∈ regs, Held L h free a r
  ptrs : (live.map Alloc.ptr).Nodup

/-! ### Addresses -/

def Region.Byte (L : Layout) (r : Region) (x : Nat) : Prop :=
  L.pageAddr r.ext.start ≤ x ∧ x < L.pageAddr r.ext.stop

theorem Region.Byte.has {r : Region} (h : r.Byte L x) : r.ext.Has (L.pageIndex x) := by
  unfold Region.Byte Layout.pageAddr at h
  unfold Extent.Has Layout.pageIndex
  simp only [pageSize] at h ⊢
  omega

variable {h : State} {live : List Alloc} {regs : List Region} {free : Nat → List Nat} {r r' : Region} {a : Alloc}

theorem Inv.region_eq (hi : Inv L h live regs free) (hr : r ∈ regs) (hr' : r' ∈ regs) {p : Nat}
    (hp : r.ext.Has p) (hp' : r'.ext.Has p) : r = r' := by
  have hap : regs.Pairwise fun r r' => r.ext.Apart r'.ext := by
    have := (List.pairwise_append.mp hi.pages.tiled.apart).1
    rwa [List.pairwise_map] at this
  have : Std.Symm fun r r' : Region => r.ext.Apart r'.ext := ⟨fun _ _ hx => hx.symm⟩
  by_contra hne
  exact (hap.forall hr hr' hne).not_has hp hp'

theorem Inv.byte_eq (hi : Inv L h live regs free) (hr : r ∈ regs) (hr' : r' ∈ regs)
    (hx : r.Byte L x) (hx' : r'.Byte L x) : r = r' :=
  hi.region_eq hr hr' hx.has hx'.has

theorem Inv.start_has (hi : Inv L h live regs free) (hr : r ∈ regs) : r.ext.Has r.ext.start := by
  have := hi.pages.tiled.pos r.ext (List.mem_append_left _ (List.mem_map_of_mem hr))
  exact ⟨Nat.le_refl _, by unfold Extent.stop; omega⟩

theorem Inv.start_eq (hi : Inv L h live regs free) (hr : r ∈ regs) (hr' : r' ∈ regs)
    (he : r.ext.start = r'.ext.start) : r = r' :=
  hi.region_eq hr hr' (hi.start_has hr) (he ▸ hi.start_has hr')

theorem Inv.in_heap (hi : Inv L h live regs free) (hr : r ∈ regs) (hx : r.Byte L x) :
    L.base ≤ x ∧ x < L.base + L.pages * pageSize := by
  have hle := hi.pages.tiled.le r.ext (List.mem_append_left _ (List.mem_map_of_mem hr))
  have hb := hi.pages.bump
  unfold Region.Byte Layout.pageAddr at hx
  simp only [pageSize] at hx ⊢
  omega

theorem classSize_pos {c : Nat} (hc : c < classSizes.length) :
    16 ≤ classSizes.getD c 0 ∧ classSizes.getD c 0 % 16 = 0 ∧ classSizes.getD c 0 ≤ maxSmall := by
  have hall : ∀ c < classSizes.length, 16 ≤ classSizes.getD c 0 ∧ classSizes.getD c 0 % 16 = 0 ∧
      classSizes.getD c 0 ≤ maxSmall := by decide
  exact hall c hc

theorem SlabOk.size_pos (hs : SlabOk L h s l) :
    16 ≤ (h.slab s).objSize ∧ (h.slab s).objSize % 16 = 0 ∧ (h.slab s).objSize ≤ maxSmall := by
  rw [hs.size]
  exact classSize_pos hs.cache

theorem SlabOk.obj_le (hs : SlabOk L h s l) (hi : i < (h.slab s).total) :
    slabHdrSize + i * (h.slab s).objSize + (h.slab s).objSize ≤ slabBytes := by
  have hmul : (i + 1) * (h.slab s).objSize ≤ slabBytes - slabHdrSize :=
    calc (i + 1) * (h.slab s).objSize ≤ (h.slab s).total * (h.slab s).objSize := Nat.mul_le_mul_right _ hi
      _ ≤ slabBytes - slabHdrSize := by
        rw [hs.total]
        exact Nat.div_mul_le_self ..
  rw [Nat.succ_mul] at hmul
  have : slabHdrSize ≤ slabBytes := by decide
  omega

theorem objAddr_byte (hs : SlabOk L h s l) (hi : i < (h.slab s).total)
    (hlo : objAddr L s (h.slab s).objSize i ≤ x)
    (hx : x < objAddr L s (h.slab s).objSize i + (h.slab s).objSize) (hr : r.ext = ⟨s, slabPages⟩) :
    r.Byte L x := by
  have hle := hs.obj_le hi
  unfold Region.Byte Layout.pageAddr
  rw [hr]
  unfold objAddr Layout.pageAddr at hlo hx
  simp only [Extent.stop, slabPages, pageSize, slabBytes] at *
  omega

theorem objAddr_inj {k j : Nat} (hk : 0 < k) (he : objAddr L s k i = objAddr L s k j) : i = j := by
  unfold objAddr at he
  exact Nat.eq_of_mul_eq_mul_right hk (by omega)

theorem objAddr_apart (s k : Nat) {j : Nat} (hne : i ≠ j) :
    objAddr L s k i + k ≤ objAddr L s k j ∨ objAddr L s k j + k ≤ objAddr L s k i := by
  unfold objAddr
  rcases Nat.lt_or_gt_of_ne hne with hlt | hlt
  · have := Nat.mul_le_mul_right k hlt
    rw [Nat.succ_mul] at this
    omega
  · have := Nat.mul_le_mul_right k hlt
    rw [Nat.succ_mul] at this
    omega

def Region.cap (h : State) (r : Region) : Nat :=
  if r.slab then (h.slab r.ext.start).objSize else r.ext.len * pageSize - largeHdrSize

theorem Inv.slab_ext (hi : Inv L h live regs free) (hr : r ∈ regs) (hk : r.slab = true) :
    r.ext = ⟨r.ext.start, slabPages⟩ := by
  have := (hi.slabs r hr hk).1
  rw [← this]

theorem Held.byte (ha : Held L h free a r) (hi : Inv L h live regs free) (hr : r ∈ regs)
    (hlo : a.ptr ≤ x) (hx : x < a.ptr + r.cap h) : r.Byte L x := by
  cases ha with
  | large hk hptr _ _ hsize =>
    simp only [Region.cap, hk, Bool.false_eq_true, if_false] at hx
    unfold Region.Byte
    simp only [Layout.pageAddr, Extent.stop, Nat.add_mul] at hptr ⊢
    omega
  | slab i hk hlt hptr _ _ =>
    simp only [Region.cap, hk, if_true] at hx
    rw [hptr] at hlo hx
    exact objAddr_byte (hi.slabs r hr hk).2 hlt hlo hx (hi.slab_ext hr hk)

theorem Held.cap_pos (ha : Held L h free a r) (hi : Inv L h live regs free) (hr : r ∈ regs) : 0 < r.cap h := by
  cases ha with
  | large hk _ _ _ hsize =>
    have hpos := hi.pages.tiled.pos r.ext (List.mem_append_left _ (List.mem_map_of_mem hr))
    simp only [Region.cap, hk, Bool.false_eq_true, if_false, pageSize, largeHdrSize]
    omega
  | slab _ hk _ _ _ _ =>
    have := (hi.slabs r hr hk).2.size_pos.1
    simp only [Region.cap, hk, if_true]
    omega

theorem Held.ptr_byte (ha : Held L h free a r) (hi : Inv L h live regs free) (hr : r ∈ regs) :
    r.Byte L a.ptr :=
  ha.byte hi hr (Nat.le_refl _) (Nat.lt_add_of_pos_right (ha.cap_pos hi hr))

theorem Inv.free_byte (hi : Inv L h live regs free) (hr : r ∈ regs) (hk : r.slab = true)
    (ho : o ∈ free r.ext.start) (hlo : o ≤ x) (hx : x < o + (h.slab r.ext.start).objSize) : r.Byte L x := by
  have hs := (hi.slabs r hr hk).2
  obtain ⟨i, hlt, rfl⟩ := hs.objs o ho
  exact objAddr_byte hs hlt hlo hx (hi.slab_ext hr hk)

theorem Inv.free_self_byte (hi : Inv L h live regs free) (hr : r ∈ regs) (hk : r.slab = true)
    (ho : o ∈ free r.ext.start) : r.Byte L o :=
  hi.free_byte hr hk ho (Nat.le_refl _) (by have := (hi.slabs r hr hk).2.size_pos.1; omega)

theorem Inv.not_free (hi : Inv L h live regs free) (ha : a ∈ live) (hr : r ∈ regs) (hk : r.slab = true) :
    a.ptr ∉ free r.ext.start := by
  intro hfree
  obtain ⟨r', hr', hheld⟩ := hi.held a ha
  obtain rfl := hi.byte_eq hr' hr (hheld.ptr_byte hi hr') (hi.free_self_byte hr hk hfree)
  cases hheld with
  | large hk' _ _ _ _ =>
    rw [hk] at hk'
    exact absurd hk' (by decide)
  | slab _ _ _ _ hnot _ => exact hnot hfree

/-! ### Frames -/

theorem SlabOk.congr {h' : State} (hs : SlabOk L h s l) (he : h'.slab s = h.slab s)
    (hw : ∀ o ∈ l, h'.word o = h.word o) : SlabOk L h' s l := by
  obtain ⟨h₁, h₂, h₃, h₄, h₅, h₆, h₇, h₈⟩ := hs
  rw [← he] at h₁ h₂ h₃ h₄ h₅ h₇ h₈
  exact ⟨h₁, h₂, h₃, h₄, h₅.congr hw, h₆, h₇, h₈⟩

theorem Held.congr {h' : State} {free' : Nat → List Nat} (ha : Held L h free a r)
    (hl : h'.large r.ext.start = h.large r.ext.start)
    (ht : (h'.slab r.ext.start).total = (h.slab r.ext.start).total)
    (ho : (h'.slab r.ext.start).objSize = (h.slab r.ext.start).objSize)
    (hf : a.ptr ∉ free r.ext.start → a.ptr ∉ free' r.ext.start) : Held L h' free' a r := by
  cases ha with
  | large hk hptr hm hp hsize => exact .large hk hptr (hl ▸ hm) (hl ▸ hp) hsize
  | slab i hk hi hptr hfree hsize => exact .slab i hk (ht ▸ hi) (ho ▸ hptr) (hf hfree) (ho ▸ hsize)

theorem Held.free_outside (hheld : Held L h free a r) (hi : Inv L h live regs free) (hr : r ∈ regs)
    (hr' : r' ∈ regs) (hk' : r'.slab = true) (ho : o ∈ free r'.ext.start) :
    ¬ (a.ptr ≤ o ∧ o < a.ptr + r.cap h) := by
  intro hin
  obtain rfl := hi.byte_eq hr hr' (hheld.byte hi hr hin.1 hin.2) (hi.free_self_byte hr' hk' ho)
  -- both are objects of the same slab, and different ones
  obtain ⟨j, hj, hoj⟩ := (hi.slabs r hr hk').2.objs o ho
  cases hheld with
  | large hk _ _ _ _ =>
    rw [hk'] at hk
    exact absurd hk (by decide)
  | slab i hk hlt hptr hfree hsize =>
    have hne : i ≠ j := by
      rintro rfl
      exact hfree (hptr ▸ hoj ▸ ho)
    simp only [Region.cap, hk, if_true] at hin
    rw [hptr, hoj] at hin
    have := objAddr_apart (L := L) r.ext.start (h.slab r.ext.start).objSize hne
    have := (hi.slabs r hr hk).2.size_pos.1
    omega

theorem Inv.setWord (hi : Inv L h live regs free) (hr : r ∈ regs) (hheld : Held L h free a r)
    {w : Nat → Nat} (hw : ∀ x, ¬ (a.ptr ≤ x ∧ x < a.ptr + r.cap h) → w x = h.word x) :
    Inv L { h with word := w } live regs free := by
  refine ⟨hi.pages, hi.owned, hi.owner, ?_, hi.partials, hi.nodup, ?_, hi.ptrs⟩
  · intro r' hr' hk'
    refine ⟨(hi.slabs r' hr' hk').1, (hi.slabs r' hr' hk').2.congr rfl fun o ho => ?_⟩
    exact hw o (hheld.free_outside hi hr hr' hk' ho)
  · intro b hb
    obtain ⟨r', hr', hh⟩ := hi.held b hb
    exact ⟨r', hr', hh.congr rfl rfl rfl id⟩

end Sic.Heap
