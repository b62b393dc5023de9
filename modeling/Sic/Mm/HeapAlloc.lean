import Sic.Mm.HeapInv

/-! Allocation keeps the regions in order: an object comes off the freelist of a
slab, or a fresh run of pages becomes a region. -/

namespace Sic.Heap

variable {L : Layout} {h : State} {live : List Alloc} {regs : List Region} {free : Nat → List Nat}
  {r r' : Region} {a : Alloc}

/-! ### From a slab -/

variable {c s size n k : Nat} {h' : State} {l : List Nat} {w : Nat → Nat}

theorem mem_partialRemove {d e : Nat} (hn : (h.partials c).Nodup) :
    e ∈ (partialRemove h c s).partials d ↔ e ∈ h.partials d ∧ ¬ (d = c ∧ e = s) := by
  by_cases hd : d = c
  · subst hd
    simp only [partialRemove, Function.update_self, hn.mem_erase_iff, true_and]
    exact and_comm
  · simp [partialRemove, hd]

theorem mem_partialPush {d e : Nat} :
    e ∈ (partialPush h c s).partials d ↔ (d = c ∧ e = s) ∨ e ∈ h.partials d := by
  by_cases hd : d = c
  · subst hd
    simp [partialPush]
  · simp [partialPush, hd]

theorem nodup_partialRemove (hn : ∀ d, (h.partials d).Nodup) (d : Nat) :
    ((partialRemove h c s).partials d).Nodup := by
  by_cases hd : d = c
  · subst hd
    simpa [partialRemove] using (hn d).erase s
  · simpa [partialRemove, Function.update_of_ne hd] using hn d

theorem nodup_partialPush (hn : ∀ d, (h.partials d).Nodup) (hs : s ∉ h.partials c) (d : Nat) :
    ((partialPush h c s).partials d).Nodup := by
  by_cases hd : d = c
  · subst hd
    simpa [partialPush] using ⟨hs, hn d⟩
  · simpa [partialPush, Function.update_of_ne hd] using hn d

theorem Inv.mem_partials (hi : Inv L h live regs free) (hr : r ∈ regs) (hk : r.slab = true) :
    r.ext.start ∈ h.partials c ↔ (h.slab r.ext.start).cache = c ∧ free r.ext.start ≠ [] := by
  rw [hi.partials]
  exact ⟨fun ⟨_, _, _, _, hx⟩ => hx, fun hx => ⟨r, hr, hk, rfl, hx⟩⟩

/-- The slab `s` with another freelist of `n` objects. -/
def State.relink (h : State) (s first n : Nat) (w : Nat → Nat) (ps : Nat → List Nat) : State :=
  { h with slab := Function.update h.slab s { h.slab s with freelist := first, freeCount := n }
           word := w
           partials := ps }

theorem Inv.relink (hi : Inv L h live regs free) (hr : r ∈ regs) (hk : r.slab = true)
    {live' : List Alloc} {first : Nat} {ps : Nat → List Nat}
    (hw : ∀ r' ∈ regs, r'.slab = true → r' ≠ r → ∀ o ∈ free r'.ext.start, w o = h.word o)
    (hchain : Chain w first l) (hnd : l.Nodup)
    (hobjs : ∀ o ∈ l, ∃ i < (h.slab r.ext.start).total, o = objAddr L r.ext.start (h.slab r.ext.start).objSize i)
    (hpart : ∀ c s, s ∈ ps c ↔
      if s = r.ext.start then (h.slab r.ext.start).cache = c ∧ l ≠ [] else s ∈ h.partials c)
    (hnodup : ∀ c, (ps c).Nodup)
    (hlive : ∀ b ∈ live', (b ∈ live ∧ b.ptr ∉ l) ∨ Held L h (Function.update free r.ext.start l) b r)
    (hptrs : (live'.map Alloc.ptr).Nodup) :
    Inv L (h.relink r.ext.start first l.length w ps) live' regs (Function.update free r.ext.start l) := by
  have hself : (h.relink r.ext.start first l.length w ps).slab r.ext.start =
    { h.slab r.ext.start with freelist := first, freeCount := l.length } := Function.update_self ..
  have hother {s : Nat} (he : s ≠ r.ext.start) : (h.relink r.ext.start first l.length w ps).slab s = h.slab s ∧
      Function.update free r.ext.start l s = free s :=
    ⟨Function.update_of_ne he .., Function.update_of_ne he ..⟩
  have hslab {r' : Region} (hr' : r' ∈ regs) (hne : r' ≠ r) := hother fun he => hne (hi.start_eq hr' hr he)
  refine ⟨hi.pages, hi.owned, hi.owner, ?_, ?_, hnodup, ?_, hptrs⟩
  · intro r' hr' hk'
    have hs := (hi.slabs r' hr' hk').2
    refine ⟨(hi.slabs r' hr' hk').1, ?_⟩
    by_cases hne : r' = r
    · subst hne
      rw [Function.update_self]
      refine ⟨?_, ?_, ?_, ?_, ?_, hnd, ?_, ?_⟩ <;> rw [hself]
      exacts [hs.magic, hs.cache, hs.size, hs.total, hchain, hobjs]
    · rw [(hslab hr' hne).2]
      exact hs.congr (hslab hr' hne).1 (hw r' hr' hk' hne)
  · intro c s
    rw [show s ∈ (h.relink r.ext.start first l.length w ps).partials c ↔ _ from hpart c s]
    by_cases he : s = r.ext.start
    · subst he
      rw [if_pos rfl, hself, Function.update_self]
      exact ⟨fun hx => ⟨r, hr, hk, rfl, hx⟩, fun ⟨_, _, _, _, hx⟩ => hx⟩
    · rw [if_neg he, hi.partials, (hother he).1, (hother he).2]
  · intro b hb
    rcases hlive b hb with ⟨hold, hnot⟩ | hheld
    · obtain ⟨r', hr', hh⟩ := hi.held b hold
      refine ⟨r', hr', ?_⟩
      by_cases hne : r' = r
      · subst hne
        refine hh.congr rfl (by rw [hself]) (by rw [hself]) fun _ => ?_
        rw [Function.update_self]
        exact hnot
      · obtain ⟨he, hf⟩ := hslab hr' hne
        exact hh.congr rfl (by rw [he]) (by rw [he]) (by rw [hf]; exact id)
    · exact ⟨r, hr, hheld.congr rfl (by rw [hself]) (by rw [hself]) id⟩

theorem slabTake_eq (h : State) (c s : Nat) :
    slabTake h c s = (h.relink s (h.word (h.slab s).freelist) ((h.slab s).freeCount - 1) h.word
      (if (h.slab s).freeCount - 1 = 0 then (partialRemove h c s).partials else h.partials),
      some (h.slab s).freelist) := by
  rw [slabTake]
  split <;> rfl

theorem slabTake_inv (hi : Inv L h live regs free) (hs : s ∈ h.partials c)
    (hsize : size ≤ classSizes.getD c 0) :
    ∃ o, (slabTake h c s).2 = some o ∧
      ∃ free', Inv L (slabTake h c s).1 (⟨o, size⟩ :: live) regs free' := by
  obtain ⟨r, hr, hk, rfl, hcache, hne⟩ := (hi.partials c s).mp hs
  have hok := (hi.slabs r hr hk).2
  obtain ⟨o, rest, hfree⟩ := List.exists_cons_of_ne_nil hne
  rw [hfree] at hok
  obtain ⟨hhead, htail⟩ := hok.chain
  obtain ⟨hnotin, hrest⟩ := List.nodup_cons.mp hok.nodup
  obtain ⟨i, hlt, hobj⟩ := hok.objs o (List.mem_cons_self ..)
  have hcount : (h.slab r.ext.start).freeCount - 1 = rest.length := by rw [hok.count]; rfl
  have hlive {b : Alloc} (hb : b ∈ live) : b.ptr ≠ o ∧ b.ptr ∉ rest := by
    have hnot := hi.not_free hb hr hk
    rw [hfree] at hnot
    exact ⟨fun he => hnot (he ▸ List.mem_cons_self ..), fun hm => hnot (List.mem_cons_of_mem _ hm)⟩
  rw [slabTake_eq, hhead, hcount]
  refine ⟨o, rfl, Function.update free r.ext.start rest, hi.relink hr hk (fun _ _ _ _ _ _ => rfl) htail hrest
    (fun x hx => hok.objs x (List.mem_cons_of_mem _ hx)) (fun d e => ?_) (fun d => ?_) (fun b hb => ?_) ?_⟩
  · split
    · next hz =>
      rw [List.length_eq_zero_iff] at hz
      rw [mem_partialRemove (hi.nodup c)]
      split
      · next he =>
        rw [he, hi.mem_partials hr hk]
        simp only [hz, ne_eq, not_true, and_false, iff_false]
        exact fun ⟨hd, hno⟩ => hno ⟨hd.1.symm.trans hcache, trivial⟩
      · next he => simp [he]
    · next hz =>
      rw [List.length_eq_zero_iff] at hz
      split
      · next he =>
        rw [he, hi.mem_partials hr hk]
        simp [hz, hne]
      · rfl
  · split
    · exact nodup_partialRemove hi.nodup d
    · exact hi.nodup d
  · rcases List.mem_cons.mp hb with rfl | hb
    · refine .inr (.slab i hk hlt hobj ?_ (hsize.trans (by rw [hok.size, hcache])))
      rw [Function.update_self]
      exact hnotin
    · exact .inl ⟨hb, (hlive hb).2⟩
  · refine List.nodup_cons.mpr ⟨fun hmem => ?_, hi.ptrs⟩
    obtain ⟨b, hb, hbo⟩ := List.mem_map.mp hmem
    exact (hlive hb).1 hbo

/-! ### A new region -/

theorem Inv.setPages (hi : Inv L h live regs free) {g : Pages} (hp : PagesOk L g (regs.map Region.ext))
    (hsame : SamePages (regs.map Region.ext) h.pages g) : Inv L { h with pages := g } live regs free := by
  refine ⟨hp, fun r hr p hin => ?_, fun p s hs => hi.owner p s (hsame.slab p s hs), fun r hr hk => ?_,
    hi.partials, hi.nodup, fun b hb => ?_, hi.ptrs⟩
  · obtain ⟨ho, hv⟩ := hsame.same r.ext (List.mem_map_of_mem hr) p hin
    dsimp only
    rw [ho, hv]
    exact hi.owned r hr p hin
  · exact ⟨(hi.slabs r hr hk).1, (hi.slabs r hr hk).2.congr rfl fun _ _ => rfl⟩
  · obtain ⟨r, hr, hh⟩ := hi.held b hb
    exact ⟨r, hr, hh.congr rfl rfl rfl id⟩

theorem Inv.cons (hi : Inv L h live regs free) {d : Region} {live' : List Alloc}
    (hpages : PagesOk L h'.pages (d.ext :: regs.map Region.ext))
    (hsame : ∀ r ∈ regs, ∀ p, r.ext.Has p →
      h'.pages.owner p = h.pages.owner p ∧ h'.pages.vmm p = h.pages.vmm p)
    (howned : ∀ p, d.ext.Has p → (h'.pages.vmm p).isSome = true ∧ h'.pages.owner p = d.owner)
    (howner : ∀ p s, ¬ d.ext.Has p → h'.pages.owner p = .slab s → h.pages.owner p = .slab s)
    (hlarge : ∀ p ≠ d.ext.start, h'.large p = h.large p) (hslab : ∀ p ≠ d.ext.start, h'.slab p = h.slab p)
    (hword : ∀ x, ¬ d.Byte L x → h'.word x = h.word x)
    (hok : d.slab = true → d.ext.len = slabPages ∧ SlabOk L h' d.ext.start l ∧ l ≠ [])
    (hpart : ∀ c s, s ∈ h'.partials c ↔
      (d.slab = true ∧ s = d.ext.start ∧ (h'.slab s).cache = c) ∨ s ∈ h.partials c)
    (hnodup : ∀ c, (h'.partials c).Nodup)
    (hlive : ∀ b ∈ live', b ∈ live ∨ Held L h' (Function.update free d.ext.start l) b d)
    (hptrs : (live'.map Alloc.ptr).Nodup) :
    Inv L h' live' (d :: regs) (Function.update free d.ext.start l) := by
  have hapart {r : Region} (hr : r ∈ regs) : d.ext.Apart r.ext :=
    hpages.head_apart r.ext (List.mem_map_of_mem hr)
  have hdpos : d.ext.Has d.ext.start := by
    have := hpages.tiled.pos d.ext (List.mem_cons_self ..)
    exact ⟨Nat.le_refl _, by unfold Extent.stop; omega⟩
  have hstart {r : Region} (hr : r ∈ regs) : r.ext.start ≠ d.ext.start := fun he =>
    (hapart hr).not_has hdpos (he ▸ hi.start_has hr)
  have hbyte {r : Region} (hr : r ∈ regs) {x : Nat} (hx : r.Byte L x) : ¬ d.Byte L x := fun hd =>
    (hapart hr).not_has hd.has hx.has
  refine ⟨hpages, ?_, ?_, ?_, ?_, hnodup, ?_, hptrs⟩
  · intro r hr p hin
    rcases List.mem_cons.mp hr with rfl | hr
    · exact howned p hin
    obtain ⟨ho, hv⟩ := hsame r hr p hin
    rw [ho, hv]
    exact hi.owned r hr p hin
  · intro p s hs
    by_cases hin : d.ext.Has p
    · rw [(howned p hin).2, Region.owner] at hs
      split at hs
      · next hk => exact ⟨d, List.mem_cons_self .., hk, Owner.slab.inj hs, hin⟩
      · exact nomatch hs
    · obtain ⟨r, hr, hx⟩ := hi.owner p s (howner p s hin hs)
      exact ⟨r, List.mem_cons_of_mem _ hr, hx⟩
  · intro r hr hk
    rcases List.mem_cons.mp hr with rfl | hr
    · rw [Function.update_self]
      exact ⟨(hok hk).1, (hok hk).2.1⟩
    rw [Function.update_of_ne (hstart hr)]
    refine ⟨(hi.slabs r hr hk).1, (hi.slabs r hr hk).2.congr (hslab _ (hstart hr)) fun o ho => ?_⟩
    exact hword o (hbyte hr (hi.free_self_byte hr hk ho))
  · intro c s
    rw [hpart, hi.partials]
    constructor
    · rintro (⟨hk, rfl, hc⟩ | ⟨r, hr, hk, rfl, hc, hne⟩)
      · refine ⟨d, List.mem_cons_self .., hk, rfl, hc, ?_⟩
        rw [Function.update_self]
        exact (hok hk).2.2
      · refine ⟨r, List.mem_cons_of_mem _ hr, hk, rfl, ?_, ?_⟩
        · rw [hslab _ (hstart hr)]
          exact hc
        · rw [Function.update_of_ne (hstart hr)]
          exact hne
    · rintro ⟨r, hr, hk, rfl, hc, hne⟩
      rcases List.mem_cons.mp hr with rfl | hr
      · exact .inl ⟨hk, rfl, hc⟩
      rw [hslab _ (hstart hr)] at hc
      rw [Function.update_of_ne (hstart hr)] at hne
      exact .inr ⟨r, hr, hk, rfl, hc, hne⟩
  · intro b hb
    rcases hlive b hb with hold | hheld
    · obtain ⟨r, hr, hh⟩ := hi.held b hold
      refine ⟨r, List.mem_cons_of_mem _ hr, hh.congr (hlarge _ (hstart hr)) ?_ ?_ ?_⟩
      · rw [hslab _ (hstart hr)]
      · rw [hslab _ (hstart hr)]
      · rw [Function.update_of_ne (hstart hr)]
        exact id
    · exact ⟨d, List.mem_cons_self .., hheld⟩

/-! ### The first freelist of a slab -/

theorem foldl_update_of_notMem (f v : Nat → Nat) {x : Nat}
    (hx : ∀ i ∈ l, x ≠ f i) : l.foldl (fun w i => Function.update w (f i) (v i)) w x = w x := by
  induction l generalizing w with
  | nil => rfl
  | cons i l ih =>
    rw [List.foldl_cons, ih fun j hj => hx j (List.mem_cons_of_mem _ hj)]
    exact Function.update_of_ne (hx i (List.mem_cons_self ..)) ..

theorem foldl_update_of_mem {f : Nat → Nat} (v : Nat → Nat) (hf : f.Injective) {i : Nat} (hi : i ∈ l) :
    l.foldl (fun w i => Function.update w (f i) (v i)) w (f i) = v i := by
  induction l generalizing w with
  | nil => exact absurd hi List.not_mem_nil
  | cons j l ih =>
    rw [List.foldl_cons]
    by_cases hmem : i ∈ l
    · exact ih hmem
    obtain rfl := (List.mem_cons.mp hi).resolve_right hmem
    have hnot : ∀ j ∈ l, f i ≠ f j := fun j hj he => hmem (hf he ▸ hj)
    rw [foldl_update_of_notMem f v hnot]
    exact Function.update_self ..

theorem chain_range' {f : Nat → Nat}
    (hw : ∀ i, k ≤ i → i < k + n → w (f i) = if i + 1 < k + n then f (i + 1) else 0) :
    Chain w (if 0 < n then f k else 0) ((List.range' k n).map f) := by
  induction n generalizing k with
  | zero => rfl
  | succ n ih =>
    refine ⟨rfl, ?_⟩
    have hnext : w (f k) = if 0 < n then f (k + 1) else 0 := by
      rw [hw k (Nat.le_refl _) (by omega)]
      exact if_congr (by omega) rfl rfl
    rw [hnext]
    refine ih fun i hk hi => ?_
    rw [hw i (by omega) (by omega)]
    exact if_congr (by omega) rfl rfl

theorem thread_chain (w : Nat → Nat) (hk : 0 < k) (hn : 0 < n) :
    Chain (thread L w s k n) (objAddr L s k 0) ((List.range n).map (objAddr L s k)) := by
  have hc := chain_range' (w := thread L w s k n) (f := objAddr L s k) (n := n) (k := 0) fun i _ hi => by
    rw [Nat.zero_add] at hi ⊢
    exact foldl_update_of_mem _ (fun _ _ => objAddr_inj hk) (List.mem_range.mpr hi)
  rwa [if_pos hn, ← List.range_eq_range'] at hc

theorem thread_of_not_byte (w : Nat → Nat) {d : Region} (hd : d.ext = ⟨s, slabPages⟩)
    (hn : n * k ≤ slabBytes - slabHdrSize) (hk : 0 < k) {x : Nat} (hx : ¬ d.Byte L x) :
    thread L w s k n x = w x := by
  refine foldl_update_of_notMem _ _ fun i hi he => hx ?_
  have hmul := Nat.mul_le_mul_right k (List.mem_range.mp hi)
  rw [Nat.succ_mul] at hmul
  unfold Region.Byte
  rw [hd, he]
  unfold objAddr
  simp only [Layout.pageAddr, Extent.stop, slabPages, slabBytes, slabHdrSize, pageSize] at hn ⊢
  omega

theorem slabCreate_inv (hi : Inv L h live regs free) (hc : c < classSizes.length)
    {frames : List U64} {out : Option Nat} (he : slabCreate L h c frames = (h', out)) :
    ∃ regs' free', Inv L h' live regs' free' ∧ ∀ s, out = some s → s ∈ h'.partials c := by
  obtain ⟨hsame, hres⟩ := allocPages_ok slabPages frames hi.pages
  unfold slabCreate at he
  generalize allocPages L h.pages slabPages frames = x at he hsame hres
  obtain ⟨g, _ | s⟩ := x
  · obtain ⟨rfl, rfl⟩ := Prod.mk.inj he
    exact ⟨regs, free, hi.setPages hres hsame, fun _ hs => nomatch hs⟩
  obtain ⟨rfl, rfl⟩ := Prod.mk.inj he
  obtain ⟨hpages, hnew⟩ := hres
  obtain ⟨hlo, -, hhi⟩ := classSize_pos hc
  generalize hk : classSizes.getD c 0 = k at hlo hhi
  generalize hn : (slabBytes - slabHdrSize) / k = n
  have hnk : n * k ≤ slabBytes - slabHdrSize := hn ▸ Nat.div_mul_le_self ..
  have hpos : 0 < n := by
    rw [← hn]
    refine Nat.div_pos (hhi.trans ?_) (by omega)
    decide
  have hfresh : ∀ r ∈ regs, r.ext.start ≠ s := fun r hr he =>
    (hpages.head_apart r.ext (List.mem_map_of_mem hr)).not_has
      (show Extent.Has ⟨s, slabPages⟩ s from ⟨Nat.le_refl _, by simp [Extent.stop, slabPages]⟩)
      (he ▸ hi.start_has hr)
  have hnot : s ∉ h.partials c := fun hmem => by
    obtain ⟨r, hr, -, hst, -⟩ := (hi.partials c s).mp hmem
    exact hfresh r hr hst
  refine ⟨⟨⟨s, slabPages⟩, true⟩ :: regs,
    Function.update free s ((List.range n).map (objAddr L s k)), ?_, fun s' hs' => ?_⟩
  · refine hi.cons (d := ⟨⟨s, slabPages⟩, true⟩) ⟨hpages.tiled, hpages.bump⟩ ?_ ?_ ?_ (fun _ _ => rfl) ?_ ?_
      (fun _ => ⟨rfl, ?_, ?_⟩) ?_ (nodup_partialPush hi.nodup hnot) (fun b hb => .inl hb) hi.ptrs
    · intro r hr p hin
      have hout := (hpages.head_apart r.ext (List.mem_map_of_mem hr)).symm.not_has hin
      exact ⟨(if_neg hout).trans (hsame.same r.ext (List.mem_map_of_mem hr) p hin).1,
        (hsame.same r.ext (List.mem_map_of_mem hr) p hin).2⟩
    · exact fun p hin => ⟨(hnew p hin).1, if_pos hin⟩
    · intro p t hout ho
      exact hsame.slab p t ((if_neg hout).symm.trans ho)
    · exact fun p hp => Function.update_of_ne hp ..
    · exact fun x hx => thread_of_not_byte h.word rfl hnk (by omega) hx
    · have hdup : ((List.range n).map (objAddr L s k)).Nodup :=
        List.Nodup.map (fun _ _ he => objAddr_inj (by omega) he) List.nodup_range
      refine ⟨?_, ?_, ?_, ?_, ?_, hdup, ?_, ?_⟩ <;> dsimp only [partialPush] <;> rw [Function.update_self]
      · exact hc
      · exact hk.symm
      · exact hn.symm
      · exact thread_chain h.word (by omega) hpos
      · intro o ho
        obtain ⟨i, hi, rfl⟩ := List.mem_map.mp ho
        exact ⟨i, List.mem_range.mp hi, rfl⟩
      · rw [List.length_map, List.length_range]
    · simpa using hpos.ne'
    · intro d t
      rw [mem_partialPush]
      refine or_congr_left ?_
      dsimp only [partialPush]
      constructor
      · rintro ⟨rfl, rfl⟩
        rw [Function.update_self]
        exact ⟨rfl, rfl, rfl⟩
      · rintro ⟨-, rfl, hd⟩
        rw [Function.update_self] at hd
        exact ⟨hd.symm, rfl⟩
  · obtain rfl := Option.some.inj hs'
    exact mem_partialPush.mpr (.inl ⟨rfl, rfl⟩)

def adds (live : List Alloc) (size : Nat) : Option Nat → List Alloc
  | none => live
  | some p => ⟨p, size⟩ :: live

def Sound (L : Layout) (h : State) (live : List Alloc) : Prop := ∃ regs free, Inv L h live regs free

theorem slabAlloc_inv (hi : Inv L h live regs free) (hc : c < classSizes.length)
    (hsize : size ≤ classSizes.getD c 0) (frames : List U64) :
    Sound L (slabAlloc L h c frames).1 (adds live size (slabAlloc L h c frames).2) := by
  have take {h : State} {regs : List Region} {free : Nat → List Nat} (hi : Inv L h live regs free) {s : Nat}
      (hs : s ∈ h.partials c) : Sound L (slabTake h c s).1 (adds live size (slabTake h c s).2) := by
    obtain ⟨o, ho, free', hinv⟩ := slabTake_inv hi hs hsize
    rw [ho]
    exact ⟨regs, free', hinv⟩
  unfold slabAlloc
  split
  · next s _ hp => exact take hi (hp ▸ List.mem_cons_self ..)
  generalize he : slabCreate L h c frames = x
  obtain ⟨h', _ | s⟩ := x
  · obtain ⟨regs', free', hinv, -⟩ := slabCreate_inv hi hc he
    exact ⟨regs', free', hinv⟩
  · obtain ⟨regs', free', hinv, hmem⟩ := slabCreate_inv hi hc he
    exact take hinv (hmem s rfl)

/-! ### Large allocations -/

theorem largePages_le (L : Layout) (hs : size ≤ 2 ^ L.bits - largeHdrSize)
    (hn : L.pageAlignUp ((size + largeHdrSize) % 2 ^ L.bits) / pageSize = n) (hpos : n ≠ 0) :
    size + largeHdrSize ≤ n * pageSize := by
  simp only [Layout.pageAlignUp, largeHdrSize, pageSize] at *
  rcases L.width with hb | hb
  · rw [hb] at hs hn
    omega
  · rw [hb] at hs hn
    omega

theorem largeAlloc_inv (hi : Inv L h live regs free)
    (hs : size ≤ 2 ^ L.bits - largeHdrSize) (frames : List U64) :
    Sound L (largeAlloc L h size frames).1 (adds live size (largeAlloc L h size frames).2) := by
  unfold largeAlloc
  dsimp only
  generalize hn : L.pageAlignUp ((size + largeHdrSize) % 2 ^ L.bits) / pageSize = n
  obtain ⟨hsame, hres⟩ := allocPages_ok n frames hi.pages
  generalize allocPages L h.pages n frames = x at hsame hres
  obtain ⟨g, _ | s⟩ := x
  · exact ⟨regs, free, hi.setPages hres hsame⟩
  obtain ⟨hpages, hnew⟩ := hres
  have hpos : 0 < n := hpages.tiled.pos ⟨s, n⟩ (List.mem_cons_self ..)
  have hfit := largePages_le L hs hn hpos.ne'
  refine ⟨⟨⟨s, n⟩, false⟩ :: regs, Function.update free s [], ?_⟩
  refine hi.cons (d := ⟨⟨s, n⟩, false⟩) hpages ?_ (fun p hin => hnew p hin) ?_ ?_ (fun _ _ => rfl)
    (fun _ _ => rfl) (fun hk => nomatch hk) ?_ hi.nodup ?_ ?_
  · exact fun r hr => hsame.same r.ext (List.mem_map_of_mem hr)
  · exact fun p t _ ho => hsame.slab p t ho
  · exact fun p hp => Function.update_of_ne hp ..
  · simp
  · intro b hb
    rcases List.mem_cons.mp hb with rfl | hb
    · refine .inr (.large rfl rfl ?_ ?_ hfit)
      · dsimp only
        rw [Function.update_self]
      · dsimp only
        rw [Function.update_self]
    · exact .inl hb
  · refine List.nodup_cons.mpr ⟨fun hmem => ?_, hi.ptrs⟩
    obtain ⟨b, hb, hbo⟩ := List.mem_map.mp hmem
    obtain ⟨r, hr, hheld⟩ := hi.held b hb
    have hin : (⟨⟨s, n⟩, false⟩ : Region).Byte L b.ptr := by
      rw [hbo]
      unfold Region.Byte
      simp only [Layout.pageAddr, Extent.stop, largeHdrSize, pageSize, Nat.add_mul]
      omega
    exact (hpages.head_apart r.ext (List.mem_map_of_mem hr)).not_has hin.has (hheld.ptr_byte hi hr).has

theorem cacheFor_some (hc : cacheFor size = some c) : c < classSizes.length ∧ size ≤ classSizes.getD c 0 := by
  obtain ⟨hlt, hp, -⟩ := List.findIdx?_eq_some_iff_getElem.mp hc
  refine ⟨hlt, ?_⟩
  rw [List.getD_eq_getElem?_getD, List.getElem?_eq_getElem hlt]
  exact of_decide_eq_true hp

theorem kmallocLocked_inv (hi : Inv L h live regs free)
    (hs : size ≤ 2 ^ L.bits - largeHdrSize) (frames : List U64) :
    Sound L (kmallocLocked L h size frames).1 (adds live size (kmallocLocked L h size frames).2) := by
  unfold kmallocLocked
  split
  · exact largeAlloc_inv hi hs frames
  split
  · exact ⟨regs, free, hi⟩
  · next c hc => exact slabAlloc_inv hi (cacheFor_some hc).1 (cacheFor_some hc).2 frames

end Sic.Heap
