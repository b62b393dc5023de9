import Sic.Mm.HeapAlloc

/-! Freeing a live allocation. An object goes back to its slab, and a region that
holds nothing any more goes back to the page layer. -/

namespace Sic.Heap

variable {L : Layout} {h : State} {live : List Alloc} {regs : List Region} {free : Nat → List Nat}
  {r : Region} {a : Alloc}

def without (live : List Alloc) (p : Nat) : List Alloc := live.filter fun b => b.ptr ≠ p

theorem mem_without {p : Nat} {b : Alloc} : b ∈ without live p ↔ b ∈ live ∧ b.ptr ≠ p := by
  simp [without]

theorem nodup_without {p : Nat} (hn : (live.map Alloc.ptr).Nodup) : ((without live p).map Alloc.ptr).Nodup :=
  hn.sublist (List.filter_sublist.map Alloc.ptr)

/-! ### A region goes -/

theorem Inv.drop (hi : Inv L h live regs free) {d : Region} {regs' : List Region}
    (hperm : regs.Perm (d :: regs')) {h' : State} {live' : List Alloc}
    (hpages : h'.pages = freePages h.pages d.ext.start d.ext.len)
    (hlarge : ∀ p ≠ d.ext.start, h'.large p = h.large p) (hslab : ∀ p ≠ d.ext.start, h'.slab p = h.slab p)
    (hword : h'.word = h.word)
    (hpart : ∀ c s, s ∈ h'.partials c ↔ s ∈ h.partials c ∧ s ≠ d.ext.start)
    (hnodup : ∀ c, (h'.partials c).Nodup) (hlive : ∀ b ∈ live', b ∈ live ∧ ¬ Held L h free b d)
    (hptrs : (live'.map Alloc.ptr).Nodup) : Inv L h' live' regs' free := by
  have hold {r : Region} (hr : r ∈ regs') : r ∈ regs := hperm.mem_iff.mpr (List.mem_cons_of_mem _ hr)
  have hd : d ∈ regs := hperm.mem_iff.mpr (List.mem_cons_self ..)
  have hok : PagesOk L h.pages (d.ext :: regs'.map Region.ext) :=
    ⟨hi.pages.tiled.perm ((hperm.map Region.ext).append_right _), hi.pages.bump⟩
  have hstart {r : Region} (hr : r ∈ regs') : r.ext.start ≠ d.ext.start := fun he =>
    (hok.head_apart r.ext (List.mem_map_of_mem hr)).not_has (hi.start_has hd) (he ▸ hi.start_has (hold hr))
  have hrest {r : Region} (hr : r ∈ regs) (hne : r.ext.start ≠ d.ext.start) : r ∈ regs' := by
    rcases List.mem_cons.mp (hperm.mem_iff.mp hr) with rfl | hr
    · exact absurd rfl hne
    · exact hr
  obtain ⟨hfree, hsame⟩ := freePages_ok hok
  rw [← hpages] at hfree hsame
  refine ⟨hfree, ?_, ?_, ?_, ?_, hnodup, ?_, hptrs⟩
  · intro r hr p hin
    obtain ⟨ho, hv⟩ := hsame.same r.ext (List.mem_map_of_mem hr) p hin
    rw [ho, hv]
    exact hi.owned r (hold hr) p hin
  · intro p s hs
    have hout : ¬ d.ext.Has p := fun hin => by
      rw [hpages, freePages_unmapped hin] at hs
      exact nomatch hs
    obtain ⟨r, hr, hk, rfl, hin⟩ := hi.owner p s (hsame.slab p s hs)
    exact ⟨r, hrest hr fun he => hout (hi.start_eq hr hd he ▸ hin), hk, rfl, hin⟩
  · intro r hr hk
    refine ⟨(hi.slabs r (hold hr) hk).1, (hi.slabs r (hold hr) hk).2.congr (hslab _ (hstart hr)) ?_⟩
    exact fun o _ => congrFun hword o
  · intro c s
    rw [hpart, hi.partials]
    constructor
    · rintro ⟨⟨r, hr, hk, rfl, hc, hne⟩, hs⟩
      exact ⟨r, hrest hr hs, hk, rfl, hslab _ hs ▸ hc, hne⟩
    · rintro ⟨r, hr, hk, rfl, hc, hne⟩
      exact ⟨⟨r, hold hr, hk, rfl, hslab _ (hstart hr) ▸ hc, hne⟩, hstart hr⟩
  · intro b hb
    obtain ⟨hbl, hnot⟩ := hlive b hb
    obtain ⟨r, hr, hh⟩ := hi.held b hbl
    have hr' : r ∈ regs' := hrest hr fun he => hnot (hi.start_eq hr hd he ▸ hh)
    refine ⟨r, hr', hh.congr (hlarge _ (hstart hr')) ?_ ?_ id⟩ <;> rw [hslab _ (hstart hr')]

variable {s i : Nat} {l : List Nat}

theorem SlabOk.mem_of_full (hs : SlabOk L h s l)
    (hfull : l.length = (h.slab s).total) (hi : i < (h.slab s).total) :
    objAddr L s (h.slab s).objSize i ∈ l := by
  have hsub : l ⊆ (List.range (h.slab s).total).map (objAddr L s (h.slab s).objSize) := by
    intro o ho
    obtain ⟨j, hj, rfl⟩ := hs.objs o ho
    exact List.mem_map_of_mem (List.mem_range.mpr hj)
  have hperm := (hs.nodup.subperm hsub).perm_of_length_le (by simp [hfull])
  exact hperm.mem_iff.mpr (List.mem_map_of_mem (List.mem_range.mpr hi))

theorem slabDestroy_inv (hi : Inv L h live regs free) (hr : r ∈ regs) (hk : r.slab = true)
    (hfull : (free r.ext.start).length = (h.slab r.ext.start).total) :
    ∃ regs', Inv L (slabDestroy h r.ext.start) live regs' free := by
  obtain ⟨pre, post, rfl⟩ := List.append_of_mem hr
  have hs := (hi.slabs r hr hk).2
  refine ⟨pre ++ post, hi.drop List.perm_middle ?_ (fun _ _ => rfl) ?_ rfl ?_ ?_ (fun b hb => ⟨hb, ?_⟩) hi.ptrs⟩
  · rw [(hi.slabs r hr hk).1]
    rfl
  · exact fun p hp => Function.update_of_ne hp ..
  · intro c s
    refine (mem_partialRemove (hi.nodup _)).trans (and_congr_right fun hmem => not_congr ?_)
    constructor
    · exact fun hx => hx.2
    · rintro rfl
      exact ⟨((hi.mem_partials hr hk).mp hmem).1.symm, rfl⟩
  · exact nodup_partialRemove hi.nodup
  · rintro (⟨hl, -⟩ | ⟨i, -, hlt, hptr, hnot, -⟩)
    · rw [hk] at hl
      exact nomatch hl
    · exact hnot (hptr ▸ hs.mem_of_full hfull hlt)

/-! ### An object goes back to its slab -/

theorem SlabOk.offset (hs : SlabOk L h s l) (hi : i < (h.slab s).total) :
    (objAddr L s (h.slab s).objSize i + 2 ^ 64 - (L.pageAddr s + slabHdrSize)) % 2 ^ 64 =
      i * (h.slab s).objSize := by
  have hle := hs.obj_le hi
  unfold objAddr
  generalize i * (h.slab s).objSize = off at hle ⊢
  simp only [slabBytes, slabPages, pageSize] at hle
  omega

def slabPush (h : State) (s ptr : Nat) : State :=
  h.relink s ptr ((h.slab s).freeCount + 1) (Function.update h.word ptr (h.slab s).freelist)
    (if (h.slab s).freeCount = 0 then (partialPush h (h.slab s).cache s).partials else h.partials)

theorem slabFree_eq (h : State) {ptr : Nat} (hs : SlabOk L h s l)
    (hi : i < (h.slab s).total) (hptr : ptr = objAddr L s (h.slab s).objSize i) :
    slabFree L h s ptr = (if (h.slab s).freeCount + 1 = (h.slab s).total ∧
      (slabPush h s ptr).partials (h.slab s).cache ≠ [s] then slabDestroy (slabPush h s ptr) s
      else slabPush h s ptr, none) := by
  have hpos := hs.size_pos.1
  have hoff := hs.offset hi
  rw [← hptr] at hoff
  unfold slabFree
  dsimp only
  rw [hoff, Nat.mul_mod_left, Nat.mul_div_cancel _ (by omega), if_neg (by omega), slabPush]
  split <;> rfl

theorem slabPush_inv (hi : Inv L h live regs free) (hr : r ∈ regs) (hk : r.slab = true)
    (hlt : i < (h.slab r.ext.start).total) (hptr : a.ptr = objAddr L r.ext.start (h.slab r.ext.start).objSize i)
    (hnot : a.ptr ∉ free r.ext.start) :
    Inv L (slabPush h r.ext.start a.ptr) (without live a.ptr) regs
      (Function.update free r.ext.start (a.ptr :: free r.ext.start)) := by
  have hs := (hi.slabs r hr hk).2
  have hbyte : r.Byte L a.ptr := by
    refine objAddr_byte hs hlt hptr.ge ?_ (hi.slab_ext hr hk)
    have := hs.size_pos.1
    omega
  rw [slabPush, hs.count]
  refine hi.relink hr hk (fun r' hr' hk' hne o ho => ?_) ?_ (List.nodup_cons.mpr ⟨hnot, hs.nodup⟩)
    (fun o ho => ?_) (fun d e => ?_) (fun d => ?_) (fun b hb => ?_) (nodup_without hi.ptrs)
  · refine Function.update_of_ne (fun he => ?_) ..
    exact hne (hi.byte_eq hr' hr (hi.free_self_byte hr' hk' ho) (he ▸ hbyte))
  · refine ⟨rfl, ?_⟩
    rw [Function.update_self]
    exact hs.chain.congr fun o ho => Function.update_of_ne (fun he : o = a.ptr => hnot (he ▸ ho)) ..
  · rcases List.mem_cons.mp ho with rfl | ho
    · exact ⟨i, hlt, hptr⟩
    · exact hs.objs o ho
  · split
    · next hz =>
      rw [List.length_eq_zero_iff] at hz
      rw [mem_partialPush]
      split
      · next he => simp [he, hi.mem_partials hr hk, hz, eq_comm]
      · next he => simp [he]
    · next hz =>
      rw [List.length_eq_zero_iff] at hz
      split
      · next he => simp [he, hi.mem_partials hr hk, hz]
      · rfl
  · split
    · next hz =>
      rw [List.length_eq_zero_iff] at hz
      exact nodup_partialPush hi.nodup (fun hmem => ((hi.mem_partials hr hk).mp hmem).2 hz) d
    · exact hi.nodup d
  · obtain ⟨hbl, hne⟩ := mem_without.mp hb
    refine .inl ⟨hbl, fun hmem => ?_⟩
    rcases List.mem_cons.mp hmem with he | hmem
    · exact hne he
    · exact hi.not_free hbl hr hk hmem

theorem slabPush_total (h : State) (s ptr : Nat) : ((slabPush h s ptr).slab s).total = (h.slab s).total := by
  simp [slabPush, State.relink]

theorem slabFree_inv (hi : Inv L h live regs free) (hr : r ∈ regs) (hk : r.slab = true)
    (hlt : i < (h.slab r.ext.start).total) (hptr : a.ptr = objAddr L r.ext.start (h.slab r.ext.start).objSize i)
    (hnot : a.ptr ∉ free r.ext.start) :
    (slabFree L h r.ext.start a.ptr).2 = none ∧
      Sound L (slabFree L h r.ext.start a.ptr).1 (without live a.ptr) := by
  have hs := (hi.slabs r hr hk).2
  have hi' := slabPush_inv hi hr hk hlt hptr hnot
  rw [slabFree_eq h hs hlt hptr]
  refine ⟨rfl, ?_⟩
  dsimp only
  split
  · next hfull =>
    obtain ⟨regs', hinv⟩ := slabDestroy_inv hi' hr hk (by
      rw [Function.update_self, slabPush_total, ← hfull.1, hs.count]
      rfl)
    exact ⟨regs', _, hinv⟩
  · exact ⟨regs, _, hi'⟩

/-! ### `kfree` -/

theorem largeFree_inv (hi : Inv L h live regs free) (hr : r ∈ regs) (hk : r.slab = false)
    (hptr : a.ptr = L.pageAddr r.ext.start + largeHdrSize) (hdr : LargeHdr) :
    ∃ regs', Inv L { h with
      large := Function.update h.large r.ext.start hdr
      pages := freePages h.pages r.ext.start r.ext.len } (without live a.ptr) regs' free := by
  obtain ⟨pre, post, rfl⟩ := List.append_of_mem hr
  refine ⟨pre ++ post, hi.drop List.perm_middle rfl ?_ (fun _ _ => rfl) rfl ?_ hi.nodup ?_
    (nodup_without hi.ptrs)⟩
  · exact fun p hp => Function.update_of_ne hp ..
  · intro c s
    refine (and_iff_left_of_imp fun hmem he => ?_).symm
    obtain ⟨r', hr', hk', hst, -⟩ := (hi.partials c s).mp hmem
    obtain rfl := hi.start_eq hr' hr (hst.trans he)
    rw [hk] at hk'
    exact nomatch hk'
  · intro b hb
    obtain ⟨hbl, hne⟩ := mem_without.mp hb
    refine ⟨hbl, ?_⟩
    rintro (⟨-, hbp, -⟩ | ⟨-, hk', -⟩)
    · exact hne (hbp.trans hptr.symm)
    · rw [hk] at hk'
      exact nomatch hk'

theorem kfreeLocked_inv (hi : Inv L h live regs free) (ha : a ∈ live) :
    (kfreeLocked L h a.ptr).2 = none ∧ Sound L (kfreeLocked L h a.ptr).1 (without live a.ptr) := by
  obtain ⟨r, hr, hheld⟩ := hi.held a ha
  have hbyte := hheld.ptr_byte hi hr
  have hin := hi.in_heap hr hbyte
  have hown := (hi.owned r hr _ hbyte.has).2
  unfold kfreeLocked
  rw [if_neg (by omega), hown]
  cases hheld with
  | large hk hptr hm hp hsize =>
    have hfirst : a.ptr - largeHdrSize = L.pageAddr r.ext.start := by omega
    have hidx : L.pageIndex (L.pageAddr r.ext.start) = r.ext.start := by
      simp [Layout.pageIndex, Layout.pageAddr, pageSize]
    have hal : L.pageAddr r.ext.start % pageSize = 0 := by
      have := L.aligned
      simp only [Layout.pageAddr, pageSize] at *
      omega
    simp only [Region.owner, hk, Bool.false_eq_true, if_false, hfirst, hidx, hal, hm, ne_eq, not_true,
      or_self, hp]
    obtain ⟨regs', hinv⟩ := largeFree_inv hi hr hk hptr ⟨0, r.ext.len, (h.large r.ext.start).size⟩
    exact ⟨trivial, regs', free, hinv⟩
  | slab i hk hlt hptr hnot hsize =>
    simp only [Region.owner, hk, if_true, (hi.slabs r hr hk).2.magic, ne_eq, not_true, if_false]
    exact slabFree_inv hi hr hk hlt hptr hnot

end Sic.Heap
