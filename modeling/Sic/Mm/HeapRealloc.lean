import Mathlib.Tactic.Ring
import Sic.Mm.HeapRun

/-! The contents of a block that `krealloc` moves. What is copied is the size in
the block's header, which growing in place leaves as it was. -/

namespace Sic.Heap

variable {L : Layout} {h : State} {live : List Alloc} {regs : List Region} {free : Nat → List Nat}
  {r : Region} {a : Alloc} {size : Nat} {frames : List U64}

/-! ### Bytes of words -/

def byteAt (L : Layout) (w : Nat → Nat) (x : Nat) : Nat :=
  w (L.wordOf x) / 256 ^ (x % L.wordBytes) % 256

variable {k n p j x c : Nat} {w : Nat → Nat} {h' : State} {m : Machine}

theorem low_byte (A B : Nat) {t : Nat} (ht : t < k) :
    (A * 256 ^ k + B % 256 ^ k) / 256 ^ t % 256 = B / 256 ^ t % 256 := by
  obtain ⟨d, rfl⟩ := Nat.exists_eq_add_of_lt ht
  have hpow : 256 ^ (t + d + 1) = 256 ^ t * (256 ^ d * 256) := by ring
  have hmul : A * (256 ^ t * (256 ^ d * 256)) = 256 ^ t * (A * 256 ^ d * 256) := by ring
  rw [hpow, hmul, Nat.mul_add_div (Nat.pow_pos (by decide)), Nat.mod_mul_right_div_self,
    Nat.mul_add_mod_self_right, Nat.mod_mod_of_dvd _ (Nat.dvd_mul_left ..)]

theorem high_byte (A B : Nat) {t : Nat} (ht : k ≤ t) :
    (A / 256 ^ k * 256 ^ k + B % 256 ^ k) / 256 ^ t = A / 256 ^ t := by
  obtain ⟨d, rfl⟩ := Nat.exists_eq_add_of_le ht
  have hpos : 0 < 256 ^ k := Nat.pow_pos (by decide)
  rw [Nat.pow_add, ← Nat.div_div_eq_div_mul, ← Nat.div_div_eq_div_mul, Nat.mul_comm (A / 256 ^ k),
    Nat.mul_add_div hpos, Nat.div_eq_of_lt (Nat.mod_lt _ hpos), Nat.add_zero]

theorem byteAt_writeWords {len : Nat} (hn : n % 16 = 0) (hp : p % 16 = 0) (hj : j < len) :
    byteAt L (writeWords L w n len fun x => w (x - n + p)) (n + j) = byteAt L w (p + j) := by
  have hle := L.le_wordOf hn (Nat.le_add_right n j)
  have hadd := L.wordOf_add_mod (n + j)
  have hlt := L.mod_word_lt (n + j)
  obtain ⟨hword, hoff⟩ := L.wordOf_shift hn hp j
  unfold byteAt writeWords
  rw [if_pos ⟨hle, by omega⟩]
  dsimp only
  rw [low_byte _ _ (by omega), hword, hoff]

theorem byteAt_writeWords_of_le {src : Nat → Nat} {len : Nat} (hj : len ≤ j) :
    byteAt L (writeWords L w n len src) (n + j) = byteAt L w (n + j) := by
  have hadd := L.wordOf_add_mod (n + j)
  unfold byteAt writeWords
  split
  · next hin => rw [high_byte _ _ (by omega)]
  · rfl

theorem byteAt_storeByte (w : Nat → Nat) (x : Nat) (v : U8) : byteAt L (storeByte L w x v) x = v.toNat := by
  unfold byteAt storeByte
  generalize x % L.wordBytes = i
  have hpos : 0 < 256 ^ i := Nat.pow_pos (by decide)
  rw [Function.update_self]
  generalize w (L.wordOf x) / (256 ^ i * 256) = q
  have hsum : q * (256 ^ i * 256) + v.toNat * 256 ^ i = 256 ^ i * (q * 256 + v.toNat) := by ring
  have hlt := v.isLt
  rw [hsum, Nat.mul_add_div hpos, Nat.div_eq_of_lt (Nat.mod_lt _ hpos)]
  omega

theorem byteAt_congr {w' : Nat → Nat} (hw : w' (L.wordOf x) = w (L.wordOf x)) :
    byteAt L w' x = byteAt L w x := by
  unfold byteAt
  rw [hw]

/-! ### What the calls write -/

theorem slabTake_word (h : State) (c s : Nat) : (slabTake h c s).1.word = h.word := by
  unfold slabTake
  dsimp only
  split <;> rfl

theorem slabCreate_word (hi : Inv L h live regs free) (hr : r ∈ regs) (hc : c < classSizes.length)
    (hx : r.Byte L x) : (slabCreate L h c frames).1.word x = h.word x := by
  obtain ⟨-, hres⟩ := allocPages_ok slabPages frames hi.pages
  unfold slabCreate
  generalize allocPages L h.pages slabPages frames = y at hres
  obtain ⟨g, _ | s⟩ := y
  · rfl
  · have hout : ¬ (⟨⟨s, slabPages⟩, true⟩ : Region).Byte L x := fun hd =>
      (hres.1.head_apart r.ext (List.mem_map_of_mem hr)).not_has hd.has hx.has
    exact thread_of_not_byte h.word rfl (Nat.div_mul_le_self ..) (by have := (classSize_pos hc).1; omega) hout

theorem kmallocLocked_word (hi : Inv L h live regs free) (hr : r ∈ regs) (hx : r.Byte L x) :
    (kmallocLocked L h size frames).1.word x = h.word x := by
  unfold kmallocLocked
  split
  · unfold largeAlloc
    dsimp only
    split <;> rfl
  split
  · rfl
  next c hc =>
  have hcreate : (slabCreate L h c frames).1.word x = h.word x := slabCreate_word hi hr (cacheFor_some hc).1 hx
  unfold slabAlloc
  split
  · rw [slabTake_word]
  split
  · next he => rwa [he] at hcreate
  next he =>
  rw [he] at hcreate
  rw [slabTake_word]
  exact hcreate

theorem slabPush_word (h : State) (s : Nat) (hx : x ≠ p) : (slabPush h s p).word x = h.word x :=
  Function.update_of_ne hx ..

theorem kfreeLocked_word (hi : Inv L h live regs free) (ha : a ∈ live) (hx : x ≠ a.ptr) :
    (kfreeLocked L h a.ptr).1.word x = h.word x := by
  obtain ⟨r, hr, hheld⟩ := hi.held a ha
  have hown := (hi.owned r hr _ (hheld.ptr_byte hi hr).has).2
  unfold kfreeLocked
  split
  · rfl
  rw [hown]
  cases hheld with
  | large hk _ _ _ _ =>
    simp only [Region.owner, hk, Bool.false_eq_true, if_false]
    split <;> rfl
  | slab i hk hlt hptr _ _ =>
    have hs := (hi.slabs r hr hk).2
    simp only [Region.owner, hk, if_true, hs.magic, ne_eq, not_true, if_false]
    rw [slabFree_eq h hs hlt hptr]
    dsimp only
    split
    · exact slabPush_word h _ hx
    · exact slabPush_word h _ hx

/-! ### What an allocation depends on -/

theorem thread_congr {w' : Nat → Nat} {s : Nat} (hw : w' x = w x) :
    thread L w' s k n x = thread L w s k n x := by
  unfold thread
  generalize List.range n = l
  induction l generalizing w w' with
  | nil => exact hw
  | cons i l ih =>
    rw [List.foldl_cons, List.foldl_cons]
    refine ih ?_
    by_cases he : x = objAddr L s k i
    · rw [he, Function.update_self, Function.update_self]
    · rw [Function.update_of_ne he, Function.update_of_ne he, hw]

theorem slabTake_setWord {s : Nat} (hw : w (h.slab s).freelist = h.word (h.slab s).freelist) :
    slabTake { h with word := w } c s = ({ (slabTake h c s).1 with word := w }, (slabTake h c s).2) := by
  unfold slabTake
  dsimp only
  rw [hw]
  split <;> rfl

theorem slabAlloc_setWord (hi : Inv L h live regs free) (hc : c < classSizes.length)
    (hw : ∀ r ∈ regs, r.slab = true → ∀ o ∈ free r.ext.start, w o = h.word o) :
    ∃ w', slabAlloc L { h with word := w } c frames =
        ({ (slabAlloc L h c frames).1 with word := w' }, (slabAlloc L h c frames).2) ∧
      ∀ x, w x = h.word x → w' x = (slabAlloc L h c frames).1.word x := by
  unfold slabAlloc
  dsimp only
  split
  · next s rest hs =>
    obtain ⟨r, hr, hk, rfl, -, hne⟩ := (hi.partials c s).mp (hs ▸ List.mem_cons_self ..)
    obtain ⟨o, l, hfree⟩ := List.exists_cons_of_ne_nil hne
    have hchain := (hi.slabs r hr hk).2.chain
    rw [hfree] at hchain
    have hhead := hw r hr hk o (hfree ▸ List.mem_cons_self ..)
    rw [← hchain.1] at hhead
    refine ⟨w, slabTake_setWord hhead, fun x hx => ?_⟩
    rw [slabTake_word, hx]
  · obtain ⟨hlo, -, hhi⟩ := classSize_pos hc
    unfold slabCreate
    dsimp only
    generalize allocPages L h.pages slabPages frames = y
    obtain ⟨g, _ | s⟩ := y
    · exact ⟨w, rfl, fun x hx => hx⟩
    · generalize classSizes.getD c 0 = k at hlo hhi ⊢
      have hpos : 0 < (slabBytes - slabHdrSize) / k :=
        Nat.div_pos (hhi.trans (by decide)) (by omega)
      generalize (slabBytes - slabHdrSize) / k = n at hpos ⊢
      dsimp only
      refine ⟨thread L w s k n, ?_, fun x hx => ?_⟩
      · refine slabTake_setWord (h := partialPush { h with
          pages := g.setOwner s slabPages (.slab s)
          slab := Function.update h.slab s ⟨slabMagic, k, n, n, objAddr L s k 0, c⟩
          word := thread L h.word s k n } c s) ?_
        dsimp only [partialPush]
        rw [Function.update_self]
        unfold thread
        rw [foldl_update_of_mem _ (fun _ _ => objAddr_inj (by omega)) (List.mem_range.mpr hpos),
          foldl_update_of_mem _ (fun _ _ => objAddr_inj (by omega)) (List.mem_range.mpr hpos)]
      · rw [slabTake_word]
        exact thread_congr hx

theorem kmallocLocked_setWord (hi : Inv L h live regs free)
    (hw : ∀ r ∈ regs, r.slab = true → ∀ o ∈ free r.ext.start, w o = h.word o) :
    ∃ w', kmallocLocked L { h with word := w } size frames =
        ({ (kmallocLocked L h size frames).1 with word := w' }, (kmallocLocked L h size frames).2) ∧
      ∀ x, w x = h.word x → w' x = (kmallocLocked L h size frames).1.word x := by
  unfold kmallocLocked
  split
  · refine ⟨w, ?_, fun x hx => ?_⟩
    · unfold largeAlloc
      dsimp only
      split <;> rfl
    · unfold largeAlloc
      dsimp only
      split <;> exact hx
  split
  · exact ⟨w, rfl, fun x hx => hx⟩
  · next c hc => exact slabAlloc_setWord hi (cacheFor_some hc).1 hw

/-! ### Moving a block -/

def InPlace (L : Layout) (h : State) (p : Nat) (size : Nat) : Prop :=
  size ≤ (usableSize L h p).1 ∧ (maxSmall < size ↔ maxSmall < (usableSize L h p).1)

def Moves (L : Layout) (h : State) (p : Nat) (size : Nat) (frames : List U64) : Prop :=
  ¬ InPlace L h p size ∧ (kmallocLocked L h size frames).2.isSome = true

instance (L : Layout) (h : State) (p : Nat) (size : Nat) : Decidable (InPlace L h p size) :=
  inferInstanceAs (Decidable (_ ∧ _))

instance (L : Layout) (h : State) (p : Nat) (size : Nat) (frames : List U64) :
    Decidable (Moves L h p size frames) :=
  inferInstanceAs (Decidable (_ ∧ _))

def moved (L : Layout) (h h' : State) (p n : Nat) (size : Nat) : State :=
  let w := writeWords L h'.word n (min (usableSize L h p).2 size) fun x => h'.word (x - n + p)
  (kfreeLocked L { h' with word := w } p).1

theorem krealloc_inPlace (hz : size ≠ 0) (hf : InPlace L h p size) :
    krealloc L h (some p) size frames = (h, some p) := by
  unfold krealloc
  dsimp only
  rw [if_neg hz]
  exact if_pos hf

theorem krealloc_failed (hz : size ≠ 0) (hf : ¬ InPlace L h p size)
    (he : kmallocLocked L h size frames = (h', none)) : krealloc L h (some p) size frames = (h', none) := by
  unfold krealloc
  dsimp only
  rw [if_neg hz, he]
  exact if_neg hf

theorem krealloc_moved (hz : size ≠ 0) (hf : ¬ InPlace L h p size)
    (he : kmallocLocked L h size frames = (h', some n)) :
    krealloc L h (some p) size frames = (moved L h h' p n size, some n) := by
  unfold krealloc
  dsimp only
  rw [if_neg hz, he]
  exact if_neg hf

theorem krealloc_none (hz : size ≠ 0)
    (he : krealloc L h (some p) size frames = (h', none)) : kmallocLocked L h size frames = (h', none) := by
  by_cases hf : InPlace L h p size
  · rw [krealloc_inPlace hz hf] at he
    exact nomatch congrArg Prod.snd he
  generalize hy : kmallocLocked L h size frames = y
  obtain ⟨h₁, _ | n⟩ := y
  · rw [← he, krealloc_failed hz hf hy]
  · rw [krealloc_moved hz hf hy] at he
    exact nomatch congrArg Prod.snd he

theorem kmallocLocked_apart (hi : Inv L h live regs free) (ha : a ∈ live)
    (hs : size ≤ 2 ^ L.bits - largeHdrSize)
    (he : kmallocLocked L h size frames = (h', some n)) (hj : j < size) :
    n % 16 = 0 ∧ L.wordOf (n + j) ≠ a.ptr ∧
      ¬ (a.ptr ≤ L.wordOf (n + j) ∧ L.wordOf (n + j) < a.ptr + a.size) := by
  have hm := kmallocLocked_inv hi hs frames
  rw [he] at hm
  obtain ⟨regs', free', hinv⟩ := hm
  have hold : a ∈ adds live size (some n) := List.mem_cons_of_mem _ ha
  have hne : a ≠ ⟨n, size⟩ := fun hp =>
    (List.nodup_cons.mp hinv.ptrs).1 (List.mem_map.mpr ⟨a, ha, congrArg Alloc.ptr hp⟩)
  obtain ⟨r, hr, hheld⟩ := hinv.held a hold
  have hpos := hheld.cap_pos hinv hr
  have hle := hheld.size_le
  have hcap := hheld.usable hinv hr
  have hok := Inv.allocOk (m := ⟨h', adds live size (some n)⟩) hinv (List.mem_cons_self ..)
  have hal : n % 16 = 0 := hok.aligned
  have hsize := hok.size
  have hout := hok.apart a hold hne (L.wordOf (n + j))
  unfold Usable at hout
  dsimp only at hsize hout hcap hpos hle
  rw [hcap] at hout
  have hle' := L.le_wordOf hal (Nat.le_add_right n j)
  have hadd := L.wordOf_add_mod (n + j)
  have hin := hout ⟨by omega, by omega⟩
  exact ⟨hal, by omega, by omega⟩

theorem byteAt_moved (hi : Inv L h live regs free) (ha : a ∈ live) (hs : size ≤ 2 ^ L.bits - largeHdrSize)
    (he : kmallocLocked L h size frames = (h', some n)) (hj : j < size) :
    byteAt L (moved L h h' a.ptr n size).word (n + j) =
      byteAt L (writeWords L h'.word n (min (usableSize L h a.ptr).2 size) fun x => h'.word (x - n + a.ptr))
        (n + j) := by
  have hm := kmallocLocked_inv hi hs frames
  rw [he] at hm
  obtain ⟨regs', free', hinv⟩ := hm
  have hcopy := Inv.writeWords (a := ⟨n, size⟩) hinv (List.mem_cons_self ..)
    (Nat.min_le_right (usableSize L h a.ptr).2 _) fun x => h'.word (x - n + a.ptr)
  refine byteAt_congr ?_
  exact kfreeLocked_word hcopy (List.mem_cons_of_mem _ ha) (kmallocLocked_apart hi ha hs he hj).2.1

def Stored (a : Alloc) (w w' : Nat → Nat) : Prop :=
  ∀ x, ¬ (a.ptr ≤ x ∧ x < a.ptr + a.size) → w' x = w x

def Machine.setWord (m : Machine) (w : Nat → Nat) : Machine := { m with state := { m.state with word := w } }

/-- A block that is returned begins with the bytes of the old one; without one
the old block is as it was. -/
def Kept (L : Layout) (m : Machine) (a : Alloc) (size : Nat) (frames : List U64) : Prop :=
  let m' := step L m (.krealloc (some a.ptr) size frames)
  match (krealloc L m.state (some a.ptr) size frames).2 with
  | some n => ⟨n, size⟩ ∈ m'.live ∧ AllocOk L m' ⟨n, size⟩ ∧
      ∀ j < min a.size size, byteAt L m'.state.word (n + j) = byteAt L m.state.word (a.ptr + j)
  | none => a ∈ m'.live ∧ AllocOk L m' a ∧
      ∀ j < a.size, byteAt L m'.state.word (a.ptr + j) = byteAt L m.state.word (a.ptr + j)

theorem Stored.inv (hw : Stored a h.word w) (hi : Inv L h live regs free) (ha : a ∈ live) :
    Inv L { h with word := w } live regs free := by
  obtain ⟨r, hr, hheld⟩ := hi.held a ha
  have hle := hheld.size_le
  exact hi.setWord hr hheld fun x hx => hw x (by omega)

theorem byteAt_kmallocLocked (hi : Inv L h live regs free) (ha : a ∈ live) (hj : j < a.size) :
    byteAt L (kmallocLocked L h size frames).1.word (a.ptr + j) = byteAt L h.word (a.ptr + j) := by
  obtain ⟨r, hr, hheld⟩ := hi.held a ha
  have hal := L.le_wordOf (hheld.aligned hi hr) (Nat.le_add_right a.ptr j)
  have hadd := L.wordOf_add_mod (a.ptr + j)
  have hle := hheld.size_le
  exact byteAt_congr (kmallocLocked_word hi hr (hheld.byte hi hr (by omega) (by omega)))

theorem step_krealloc_allocOk (hi : Inv L m.state m.live regs free) (ha : a ∈ m.live)
    (hs : size ≤ 2 ^ L.bits - largeHdrSize) (frames : List U64) :
    ∀ b ∈ (step L m (.krealloc (some a.ptr) size frames)).live,
      AllocOk L (step L m (.krealloc (some a.ptr) size frames)) b := by
  have hp : Proper L m (.krealloc (some a.ptr) size frames) ∧
    (Call.krealloc (some a.ptr) size frames).Fits L := by
    have hpow : 0 < 2 ^ L.bits := Nat.pow_pos (by decide)
    refine ⟨⟨by rw [largeHdrSize] at hs; omega, fun p hp => ?_⟩, hs⟩
    obtain rfl := Option.some.inj hp
    exact List.mem_map_of_mem ha
  obtain ⟨regs', free', hinv⟩ := step_sound m _ ⟨regs, free, hi⟩ hp
  exact fun b hb => hinv.allocOk hb

theorem byteAt_krealloc (hi : Inv L h live regs free) (ha : a ∈ live) (hz : size ≠ 0)
    (hs : size ≤ 2 ^ L.bits - largeHdrSize)
    (he : krealloc L h (some a.ptr) size frames = (h', some n)) (hj : j < min a.size size)
    (hc : Moves L h a.ptr size frames → j < (usableSize L h a.ptr).2) :
    byteAt L h'.word (n + j) = byteAt L h.word (a.ptr + j) := by
  by_cases hf : InPlace L h a.ptr size
  · rw [krealloc_inPlace hz hf] at he
    simp only [Prod.mk.injEq, Option.some.injEq] at he
    rw [← he.1, ← he.2]
  generalize hy : kmallocLocked L h size frames = y
  obtain ⟨h₁, _ | n₁⟩ := y
  · rw [krealloc_failed hz hf hy] at he
    exact nomatch congrArg Prod.snd he
  · rw [krealloc_moved hz hf hy] at he
    simp only [Prod.mk.injEq, Option.some.injEq] at he
    obtain ⟨rfl, rfl⟩ := he
    have hreq := hc ⟨hf, by rw [hy]; rfl⟩
    obtain ⟨r, hr, hheld⟩ := hi.held a ha
    have hp := hheld.aligned hi hr
    have hn := (kmallocLocked_apart hi ha hs hy (j := j) (by omega)).1
    have hsame : byteAt L (kmallocLocked L h size frames).1.word (a.ptr + j) = byteAt L h.word (a.ptr + j) :=
      byteAt_kmallocLocked hi ha (by omega)
    rw [hy] at hsame
    rw [byteAt_moved hi ha hs hy (by omega), byteAt_writeWords (by omega) (by omega) (by omega)]
    exact hsame

theorem kept_of_copied (hi : Inv L m.state m.live regs free) (ha : a ∈ m.live) (hz : size ≠ 0)
    (hs : size ≤ 2 ^ L.bits - largeHdrSize)
    (hc : Moves L m.state a.ptr size frames → min a.size size ≤ (usableSize L m.state a.ptr).2) :
    Kept L m a size frames := by
  have hok := step_krealloc_allocOk hi ha hs frames
  unfold Kept
  dsimp only
  simp only [step] at hok ⊢
  generalize he : krealloc L m.state (some a.ptr) size frames = y at hok ⊢
  obtain ⟨h', _ | n⟩ := y
  · simp only [reallocs, hz, Option.isSome_none, Bool.false_eq_true, or_self, if_false] at hok ⊢
    refine ⟨ha, hok a ha, fun j hj => ?_⟩
    have hsame : byteAt L (kmallocLocked L m.state size frames).1.word (a.ptr + j) =
      byteAt L m.state.word (a.ptr + j) :=
      byteAt_kmallocLocked hi ha hj
    rwa [krealloc_none hz he] at hsame
  · simp only [reallocs, Option.isSome_some, or_true, if_true, adds] at hok ⊢
    refine ⟨List.mem_cons_self .., hok _ (List.mem_cons_self ..), fun j hj => ?_⟩
    exact byteAt_krealloc hi ha hz hs he hj fun hm => Nat.lt_of_lt_of_le hj (hc hm)

theorem exists_not_kept (hi : Inv L m.state m.live regs free) (ha : a ∈ m.live) (hz : size ≠ 0)
    (hs : size ≤ 2 ^ L.bits - largeHdrSize) (hm : Moves L m.state a.ptr size frames)
    (hc : (usableSize L m.state a.ptr).2 < min a.size size) :
    ∃ w, Stored a m.state.word w ∧ ¬ Kept L (m.setWord w) a size frames := by
  obtain ⟨hf, hsome⟩ := hm
  generalize he : kmallocLocked L m.state size frames = y at hsome
  obtain ⟨h', _ | n⟩ := y
  · exact nomatch hsome
  generalize hreq : (usableSize L m.state a.ptr).2 = q at hc
  obtain ⟨v, hv⟩ : ∃ v : U8, v.toNat ≠ byteAt L h'.word (n + q) := by
    by_cases h0 : byteAt L h'.word (n + q) = 0
    · exact ⟨1, by rw [h0]; decide⟩
    · exact ⟨0, fun hx => h0 hx.symm⟩
  obtain ⟨r, hr, hheld⟩ := hi.held a ha
  have hal := L.le_wordOf (hheld.aligned hi hr) (Nat.le_add_right a.ptr q)
  have hadd := L.wordOf_add_mod (a.ptr + q)
  have hw : Stored a m.state.word (storeByte L m.state.word (a.ptr + q) v) := fun x hx =>
    Function.update_of_ne (by omega) ..
  refine ⟨_, hw, fun hk => hv ?_⟩
  generalize hw' : storeByte L m.state.word (a.ptr + q) v = w at hw hk
  have hiw := hw.inv hi ha
  have hle := hheld.size_le
  obtain ⟨w', hkm, hsame⟩ := kmallocLocked_setWord hi (w := w)
    fun r' hr' hk' o ho => hw o fun hin => hheld.free_outside hi hr hr' hk' ho (by omega)
  rw [he] at hkm
  dsimp only at hkm
  obtain ⟨-, -, hout⟩ := kmallocLocked_apart hi ha hs he (j := q) (by omega)
  have hmoved := krealloc_moved (h := { m.state with word := w }) (p := a.ptr) hz hf hkm
  have hbyte := byteAt_moved hiw ha hs hkm (j := q) (by omega)
  rw [byteAt_writeWords_of_le (hreq ▸ Nat.min_le_left ..)] at hbyte
  unfold Kept Machine.setWord at hk
  dsimp only [step] at hk
  rw [hmoved] at hk
  have hstored : byteAt L w (a.ptr + q) = v.toNat := hw' ▸ byteAt_storeByte ..
  have hgone : byteAt L w' (n + q) = byteAt L h'.word (n + q) := byteAt_congr (by rw [hsame _ (hw _ hout), he])
  exact hstored.symm.trans ((hk.2.2 q hc).symm.trans (hbyte.trans hgone))

/-! ### Over runs -/

/-- Whatever has been called before, `krealloc` keeps the contents of a block,
whatever its owner has stored in it, unless the block moves and its header has
a size that is too small. -/
theorem krealloc_keeps {es : List Call} (hes : Along (fun m e => Proper L m e ∧ e.Fits L) (step L) {} es)
    {a : Alloc} (ha : a ∈ (run (step L) {} es).live) {size : Nat} (hz : size ≠ 0) (frames : List U64)
    (hs : (Call.krealloc (some a.ptr) size frames).Fits L) :
    (∀ w, Stored a (run (step L) {} es).state.word w →
        Kept L ((run (step L) {} es).setWord w) a size frames) ↔
      (Moves L (run (step L) {} es).state a.ptr size frames →
        min a.size size ≤ (usableSize L (run (step L) {} es).state a.ptr).2) := by
  obtain ⟨regs, free, hi⟩ := invariant_run (P := fun m => Sound L m.state m.live) step_sound init_sound hes
  generalize run (step L) {} es = m at ha hi ⊢
  constructor
  · intro hk hm
    by_contra hlt
    obtain ⟨w, hw, hnot⟩ := exists_not_kept hi ha hz hs hm (Nat.lt_of_not_le hlt)
    exact hnot (hk w hw)
  · intro hc w hw
    have hiw := hw.inv hi ha
    obtain ⟨r, hr, hheld⟩ := hi.held a ha
    have hle := hheld.size_le
    refine kept_of_copied (m := m.setWord w) hiw ha hz hs fun hm => hc ⟨hm.1, ?_⟩
    obtain ⟨w', hkm, -⟩ := kmallocLocked_setWord hi (w := w)
      fun r' hr' hk' o ho => hw o fun hin => hheld.free_outside hi hr hr' hk' ho (by omega)
    have hsome := hm.2
    unfold Machine.setWord at hsome
    dsimp only at hsome
    rwa [hkm] at hsome

def fresh : List Call := [.kmalloc 3000 [1]]

def freshBlock : Alloc := ⟨0xFFFFC00000000020, 3000⟩

theorem krealloc_keeps_fresh : freshBlock ∈ (run (step x86_64) {} fresh).live ∧
    Moves x86_64 (run (step x86_64) {} fresh).state freshBlock.ptr 8000 [2, 3] ∧
    ∀ w, Stored freshBlock (run (step x86_64) {} fresh).state.word w →
      Kept x86_64 ((run (step x86_64) {} fresh).setWord w) freshBlock 8000 [2, 3] := by
  have ha : freshBlock ∈ (run (step x86_64) {} fresh).live := by decide +kernel
  have hkeep := @krealloc_keeps x86_64 fresh (by decide +kernel) freshBlock ha 8000 (by decide) [2, 3]
    (by decide +kernel)
  have hsize : min freshBlock.size 8000 ≤
      (usableSize x86_64 (run (step x86_64) {} fresh).state freshBlock.ptr).2 := by decide +kernel
  refine ⟨ha, by decide +kernel, ?_⟩
  rw [hkeep]
  exact fun _ => hsize

def grown : List Call :=
  [.kmalloc 3000 [1], .krealloc (some 0xFFFFC00000000020) 4000 [], .store (0xFFFFC00000000020 + 3500) 7]

/-- What was written behind the first size is lost when the block moves. -/
theorem grown_block_cut : Along (fun m e => Proper x86_64 m e ∧ e.Fits x86_64) (step x86_64) {} grown ∧
    (run (step x86_64) {} grown).live = [⟨0xFFFFC00000000020, 4000⟩] ∧
    byteAt x86_64 (run (step x86_64) {} grown).state.word (0xFFFFC00000000020 + 3500) = 7 ∧
    (krealloc x86_64 (run (step x86_64) {} grown).state (some 0xFFFFC00000000020) 8000 [2, 3]).2 =
      some 0xFFFFC00000001020 ∧
    byteAt x86_64
      (krealloc x86_64 (run (step x86_64) {} grown).state (some 0xFFFFC00000000020) 8000 [2, 3]).1.word
      (0xFFFFC00000001020 + 3500) = 0 ∧
    ¬ Kept x86_64 (run (step x86_64) {} grown) ⟨0xFFFFC00000000020, 4000⟩ 8000 [2, 3] := by
  have hwas : byteAt x86_64 (run (step x86_64) {} grown).state.word (0xFFFFC00000000020 + 3500) = 7 := by
    decide +kernel
  have hout : (krealloc x86_64 (run (step x86_64) {} grown).state (some 0xFFFFC00000000020) 8000 [2, 3]).2 =
      some 0xFFFFC00000001020 := by decide +kernel
  have hnow : byteAt x86_64 (krealloc x86_64 (run (step x86_64) {} grown).state (some 0xFFFFC00000000020) 8000
      [2, 3]).1.word (0xFFFFC00000001020 + 3500) = 0 := by decide +kernel
  refine ⟨by decide +kernel, by decide +kernel, hwas, hout, hnow, fun hk => ?_⟩
  unfold Kept at hk
  dsimp only [step] at hk
  rw [hout] at hk
  have hsame := hk.2.2 3500 (by decide)
  rw [hwas, hnow] at hsame
  exact absurd hsame (by decide)

end Sic.Heap
