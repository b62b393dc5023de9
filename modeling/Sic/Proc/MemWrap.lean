import Sic.Proc.MemFrame

/-! The memory system calls keep the kernel's entries exactly when their
wrapping range arithmetic stays inside user space. The converse runs each call
in an address space with a page everywhere and no frame left. -/

namespace Sic.X86

def fullPage (w : Bool) : Pte := ⟨2 ^ 18, { write := w, user := true }⟩

def fullTable (w : Bool) : (n : Nat) → Table Flags Pte n
  | 0 => fun _ => some (fullPage w)
  | n + 1 => fun _ => .table 1 { write := true, user := true } (fullTable w n)

def fullSpace (w : Bool) : Pml4 := fun i =>
  if i.val = 0 then .block ⟨2 ^ 18, { write := true }⟩ else fullTable w 3 i

def noFrames : Pmm := ⟨fun _ => true, fun _ => 1, 0, 0, 0⟩

def fullVm (w : Bool) (next : U64) : Vm where
  mm := ⟨fullSpace w, 0, 0, next, []⟩
  pmm := noFrames
  files := fun _ => some ⟨.file 0, oRdwr⟩
  heapRoom := true

theorem leaf_fullTable (w : Bool) (n : Nat) (v : U64) :
    (fullTable w n).leaf n v = some (fullPage w) := by
  induction n with
  | zero => rfl
  | succ n ih => exact ih

theorem leaf_fullSpace (w : Bool) {v : U64} (h : (idx v 3).val ≠ 0) :
    (fullSpace w).leaf 3 v = some (fullPage w) := by
  rw [leaf_congr_slot (t := fullTable w 3)]
  · exact leaf_fullTable w 3 v
  · simp only [fullSpace, if_neg h]

theorem fullSpace_low (w : Bool) : LowHuge (fullSpace w) := by
  intro v h
  simp [Table.leaf, fullSpace, h]

theorem translateIn_fullTable (w : Bool) (n : Nat) (v : U64) :
    translateIn n (fullTable w n) v = (fullPage w).addr * 4096 + v.toNat % 4096 := by
  induction n with
  | zero => simp only [translateIn, fullTable]
  | succ n ih => simpa only [translateIn, fullTable] using ih

theorem vmmTranslateIn_fullSpace (w : Bool) (v : U64) : vmmTranslateIn (fullSpace w) v ≠ 0 := by
  by_cases h : (idx v 3).val = 0
  · simp [vmmTranslateIn, translateIn, fullSpace, h]
  have he : translateIn 3 (fullSpace w) v = translateIn 3 (fullTable w 3) v := by
    simp [translateIn, fullSpace, h]
  rw [vmmTranslateIn, he, translateIn_fullTable, fullPage]
  dsimp only
  omega

theorem fullVm_wf (w : Bool) (next : U64) : (fullVm w next).mm.Wf :=
  ⟨fullSpace_low w, show pageAlignUp 0 ≤ userEnd by decide⟩

theorem allPages_of_forall {test : U64 → Bool} (h : ∀ v, test v = true) (virt : U64) (n : Nat) :
    allPages test virt n = true := by
  induction n generalizing virt with
  | zero => rfl
  | succ n ih => simp [allPages, h, ih]

theorem pmmAllocPage_noFrames : noFrames.pmmAllocPage = (0, noFrames) := by
  have h : noFrames.allocSearch 1 0 0 = none := by
    rw [Pmm.allocSearch]
    simp
  simp [Pmm.pmmAllocPage, Pmm.pmmAllocPages, Pmm.pmmAllocPagesBelow, noFrames] at h ⊢
  simp [h]

/-! ### What the loops do to a page -/

theorem leaf_vmmUnmapUserPage_self (t : Pml4) (v : U64) :
    (vmmUnmapUserPage t v).1.leaf 3 v = none := by
  cases h : t.leaf 3 v with
  | none => simp [vmmUnmapUserPage, h]
  | some e => simp [vmmUnmapUserPage, h, Table.leaf_modify_self]

variable {t : Pml4} {w virt prot addr len next flags fd : U64} {p : Pmm} {n : Nat}

theorem leaf_vmmUnmapUserPage_none (v : U64) (h : t.leaf 3 w = none) :
    (vmmUnmapUserPage t v).1.leaf 3 w = none := by
  by_cases hp : Table.SamePath 3 v w
  · rw [← Table.leaf_congr _ hp]
    exact leaf_vmmUnmapUserPage_self t v
  rw [vmmUnmapUserPage]
  split
  · exact h
  · rw [Table.leaf_modify_of_not_samePath t _ hp]
    exact h

theorem leaf_processUnmap_none (h : t.leaf 3 w = none) : (processUnmap t p virt n).1.leaf 3 w = none := by
  induction n generalizing t p virt with
  | zero => exact h
  | succ n ih => exact ih (leaf_vmmUnmapUserPage_none virt h)

theorem leaf_processUnmap : ∀ k < n, (processUnmap t p virt n).1.leaf 3 (pageAt virt k) = none := by
  induction n generalizing t p virt with
  | zero =>
    intro k hk
    omega
  | succ n ih =>
    intro k hk
    rw [processUnmap]
    dsimp only
    cases k with
    | zero =>
      rw [pageAt_zero]
      exact leaf_processUnmap_none (leaf_vmmUnmapUserPage_self t virt)
    | succ k =>
      rw [← pageAt_succ]
      exact ih k (by omega)

theorem processUnmap_breaks {w : Bool}
    (h : ∃ k < n, 256 ≤ (idx (pageAt virt k) 3).val) :
    ¬ SameOutsideUser (fullSpace w) (processUnmap (fullSpace w) p virt n).1 := by
  obtain ⟨k, hk, hi⟩ := h
  intro hs
  have hl := leaf_congr_slot (sameOutsideUser_iff.mp hs _ (.inr hi))
  rw [leaf_processUnmap k hk, leaf_fullSpace w (by omega)] at hl
  cases hl

theorem exists_top_page (h : 2 ^ 64 ≤ virt.toNat + 4096 * n) : ∃ k < n, 256 ≤ (idx (pageAt virt k) 3).val := by
  have hv := virt.isLt
  refine ⟨(2 ^ 64 - 1 - virt.toNat) / 4096, by omega, ?_⟩
  rw [idx_three, toNat_pageAt]
  omega

def HasWrite (t : Pml4) (v : U64) (b : Bool) : Prop := ∃ e, t.leaf 3 v = some e ∧ e.flags.write = b

theorem hasWrite_vmmProtectUserPage_self {v : U64} (flags : Flags)
    (h : t.leaf 3 v ≠ none) : HasWrite (vmmProtectUserPage t v flags).1 v flags.write := by
  obtain ⟨e, he⟩ := Option.ne_none_iff_exists'.mp h
  simp [HasWrite, vmmProtectUserPage, he, Table.leaf_modify_self]

theorem hasWrite_vmmProtectUserPage (v : U64) (flags : Flags)
    (h : HasWrite t w flags.write) : HasWrite (vmmProtectUserPage t v flags).1 w flags.write := by
  obtain ⟨e, he, hb⟩ := h
  by_cases hp : Table.SamePath 3 v w
  · have hv : t.leaf 3 v ≠ none := by
      rw [Table.leaf_congr t hp, he]
      simp
    have hh := hasWrite_vmmProtectUserPage_self flags hv
    rwa [HasWrite, Table.leaf_congr _ hp] at hh
  · refine ⟨e, ?_, hb⟩
    rw [vmmProtectUserPage]
    split
    · exact he
    · rw [Table.leaf_modify_of_not_samePath t _ hp]
      exact he

theorem leaf_vmmProtectUserPage_ne_none (v : U64) (flags : Flags)
    (h : t.leaf 3 w ≠ none) : (vmmProtectUserPage t v flags).1.leaf 3 w ≠ none := by
  by_cases hp : Table.SamePath 3 v w
  · have hv : t.leaf 3 v ≠ none := by rwa [Table.leaf_congr t hp]
    obtain ⟨e, he, -⟩ := hasWrite_vmmProtectUserPage_self flags hv
    rw [← Table.leaf_congr _ hp, he]
    simp
  · rw [vmmProtectUserPage]
    split
    · exact h
    · rwa [Table.leaf_modify_of_not_samePath t _ hp]

theorem hasWrite_processProtect
    (h : HasWrite t w (hasBit prot protWrite)) :
    HasWrite (processProtect t virt prot n).1 w (hasBit prot protWrite) := by
  induction n generalizing t virt with
  | zero => exact h
  | succ n ih =>
    have hs := hasWrite_vmmProtectUserPage virt (protToPte prot) h
    rw [processProtect]
    dsimp only
    split
    · exact hs
    · exact ih hs

theorem processProtect_reaches (prot : U64) {n k : Nat} (hk : k < n)
    (hmapped : ∀ j ≤ k, t.leaf 3 (pageAt virt j) ≠ none) :
    HasWrite (processProtect t virt prot n).1 (pageAt virt k) (hasBit prot protWrite) := by
  induction n generalizing t virt k with
  | zero => omega
  | succ n ih =>
    have h0 : t.leaf 3 virt ≠ none := by simpa using hmapped 0 (by omega)
    have hrc : (vmmProtectUserPage t virt (protToPte prot)).2 = 0 := by
      obtain ⟨e, he⟩ := Option.ne_none_iff_exists'.mp h0
      simp [vmmProtectUserPage, he]
    rw [processProtect]
    dsimp only
    rw [if_neg (by simp [hrc])]
    cases k with
    | zero =>
      rw [pageAt_zero]
      exact hasWrite_processProtect (hasWrite_vmmProtectUserPage_self (protToPte prot) h0)
    | succ k =>
      rw [← pageAt_succ]
      apply ih (by omega)
      intro j hj
      apply leaf_vmmProtectUserPage_ne_none
      rw [pageAt_succ]
      exact hmapped (j + 1) (by omega)

/-! ### The calls break the frame where they wrap -/

theorem rangeWraps_pages (h : RangeWraps addr len) :
    2 ^ 64 ≤ addr.toNat + 4096 * ((pageAlignUp len).toNat / 4096) := by
  obtain ⟨-, -, hge, -, hz⟩ := h
  have hnz := (pageAlignUp_eq_zero_iff len).not.mp fun hh => hz (BitVec.eq_of_toNat_eq hh)
  have hl := toNat_pageAlignUp_of_lt (x := len) (by bv_omega)
  omega

theorem sysMunmap_breaks (w : Bool) (next : U64) (h : RangeWraps addr len) :
    ¬ SameOutsideUser (fullSpace w) (sysMunmap (fullVm w next) addr len).1.mm.pgd := by
  obtain ⟨ha, hb, hge, he, hz⟩ := id h
  have hlen : len ≠ 0 := by
    rintro rfl
    exact hz (by decide)
  rw [sysMunmap, if_neg (not_or.mpr ⟨by simp [ha], hlen⟩), if_neg (by bv_omega)]
  exact processUnmap_breaks (exists_top_page (rangeWraps_pages h))

theorem sysMprotect_breaks (h : MprotectWraps addr len) :
    ¬ SameOutsideUser (fullSpace (!hasBit prot protWrite))
      (sysMprotect (fullVm (!hasBit prot protWrite) next) addr len prot).1.mm.pgd := by
  obtain ⟨hw, hidx⟩ := h
  obtain ⟨ha, hb, -, he, -⟩ := id hw
  have hpages := rangeWraps_pages hw
  have halign := (hasBit_pageMask addr).mp ha
  have hlt := addr.isLt
  rw [idx_three] at hidx
  rw [sysMprotect, if_neg (by simp [ha]), if_neg (by bv_omega)]
  -- the last page before the walk comes round to the identity map again
  obtain ⟨k, hk⟩ : ∃ k, k = (2 ^ 48 - 4096 - addr.toNat % 2 ^ 48) / 4096 := ⟨_, rfl⟩
  have hkn : k < (pageAlignUp len).toNat / 4096 := by omega
  have hnz : ∀ j ≤ k, (idx (pageAt addr j) 3).val ≠ 0 := by
    intro j hj
    rw [idx_three, toNat_pageAt]
    omega
  have htop : 256 ≤ (idx (pageAt addr k) 3).val := by
    rw [idx_three, toNat_pageAt]
    omega
  have hmapped : ∀ j ≤ k, (fullSpace (!hasBit prot protWrite)).leaf 3 (pageAt addr j) ≠ none := by
    intro j hj
    rw [leaf_fullSpace _ (hnz j hj)]
    exact Option.some_ne_none _
  obtain ⟨e, hleaf, hbit⟩ := processProtect_reaches prot hkn hmapped
  intro hs
  have hl := leaf_congr_slot (sameOutsideUser_iff.mp hs _ (.inr htop))
  rw [leaf_fullSpace _ (hnz k le_rfl)] at hl
  have he' : some e = some (fullPage (!hasBit prot protWrite)) := hleaf.symm.trans hl
  cases he'
  simp [fullPage] at hbit

theorem mapZeroed_noFrames (t : Pml4) (virt : U64) (flags : Flags) (h : n ≠ 0) :
    mapZeroed t noFrames virt flags n = some (t, noFrames, -1) := by
  obtain ⟨m, rfl⟩ := Nat.exists_eq_succ_of_ne_zero h
  simp [mapZeroed, pmmAllocPage_noFrames]

theorem mmapFile_fullVm (w : Bool) (next prot : U64)
    (h : hasBit flags mapAnonymous = true ∨ (0 ≤ fd.toInt ∧ fd.toInt < maxFds)) :
    ∃ f, mmapFile (fullVm w next) prot flags fd = .ok f ∧ ∀ g ∈ f, g.node = .file 0 := by
  by_cases ha : hasBit flags mapAnonymous = true
  · exact ⟨none, by simp [mmapFile, ha], by simp⟩
  have hfd : fdGet (fullVm w next) fd.toInt = some ⟨.file 0, oRdwr⟩ := by
    have hr := h.resolve_left ha
    rw [fdGet, if_neg (by omega)]
    rfl
  have hmode : oRdwr &&& oAccmode = oRdwr := by decide
  exact ⟨some ⟨.file 0, oRdwr⟩, by simp [mmapFile, ha, hfd, hmode], by simp⟩

theorem mmapFill_noFrames {s : Vm} (virt prot flags off : U64) {f : Option File}
    (hp : s.pmm = noFrames) (hn : n ≠ 0) (hf : ∀ g ∈ f, g.node = .file 0) :
    mmapFill s virt n f prot flags off = some (s, -enomem) := by
  have hs : s.withPgd s.mm.pgd noFrames = s := by
    rw [← hp]
    rfl
  cases f with
  | none => simp [mmapFill, processMapAnon, hp, mapZeroed_noFrames _ _ _ hn, hs]
  | some g =>
    have hg : g.node = .file 0 := hf g rfl
    simp [mmapFill, mapFile, processMapAnon, hg, hp, mapZeroed_noFrames _ _ _ hn, hs]

theorem sysMmap_noFrames {s : Vm} (addr : U64) {len prot flags fd off : U64} {f : Option File}
    (hp : s.pmm = noFrames) (h : MmapWraps s.mm.mmapNext len flags fd off)
    (hfile : mmapFile s prot flags fd = .ok f) (hnode : ∀ g ∈ f, g.node = .file 0) :
    ∃ q, sysMmap s addr len prot flags fd off =
      some ((s.withMmapNext (s.mm.mmapNext + pageAlignUp len + 4096#64)).withPgd
        (processUnmap s.mm.pgd s.pmm s.mm.mmapNext ((pageAlignUp len).toNat / 4096)).1 q, -enomem) := by
  obtain ⟨hlen, hoff, hfix, -, hge, hl⟩ := h
  have hspan := pageAlignUp_div_mul len
  have hn : (pageAlignUp len).toNat / 4096 ≠ 0 := by
    have := s.mm.mmapNext.isLt
    omega
  have hplace : mmapPlace s addr (pageAlignUp len) flags =
      .ok (s.withMmapNext (s.mm.mmapNext + pageAlignUp len + 4096#64), s.mm.mmapNext) := by
    unfold mmapLimit at hl
    simp only [mmapPlace, hfix, Bool.false_eq_true, if_false]
    rw [if_neg (by bv_omega)]
  generalize s.mm.mmapNext + pageAlignUp len + 4096#64 = next at hplace ⊢
  have hfill := mmapFill_noFrames (s := s.withMmapNext next) s.mm.mmapNext prot flags off hp hn hnode
  rw [sysMmap, if_neg hlen, if_neg (by simp [hoff]), if_neg (by simp [hfix]), hfile]
  dsimp only
  rw [hplace]
  dsimp only
  rw [hfill]
  exact ⟨_, rfl⟩

theorem sysMmap_breaks (w : Bool) (addr prot : U64) {len flags fd off next : U64}
    (h : MmapWraps next len flags fd off) :
    ∃ s', sysMmap (fullVm w next) addr len prot flags fd off = some (s', -enomem) ∧
      ¬ SameOutsideUser (fullSpace w) s'.mm.pgd := by
  obtain ⟨-, -, -, hfd, hge, -⟩ := id h
  obtain ⟨f, hfile, hnode⟩ := mmapFile_fullVm w next prot hfd
  obtain ⟨q, hcall⟩ := sysMmap_noFrames (s := fullVm w next) addr rfl h hfile hnode
  refine ⟨_, hcall, ?_⟩
  have hspan := pageAlignUp_div_mul len
  have hbreak : ∃ k < (pageAlignUp len).toNat / 4096, 256 ≤ (idx (pageAt next k) 3).val :=
    exists_top_page (by omega)
  exact processUnmap_breaks hbreak

theorem userPageMapped_fullSpace (w : Bool) (v : U64) : userPageMapped (fullSpace w) v = true := by
  rw [userPageMapped]
  split
  · rfl
  · simp [vmmTranslateIn_fullSpace]

theorem mmapWraps_of_move (hge : 2 ^ 64 ≤ next.toNat + (pageAlignUp len).toNat)
    (hl : next + pageAlignUp len ≤ mmapLimit) :
    MmapWraps next (pageAlignUp len) (2#64 ||| mapAnonymous) (-1) 0 := by
  refine ⟨?_, by decide, by decide, .inl (by decide), ?_⟩
  · intro hz
    have := next.isLt
    rw [hz] at hge
    simp at hge
    omega
  · rw [pageAlignUp_idem]
    exact ⟨hge, hl⟩

theorem sysMremap_breaks {old oldLen newLen flags next : U64} (w : Bool)
    (h : MremapWraps next old oldLen newLen flags) :
    ∃ s' rc, sysMremap (fullVm w next) old oldLen newLen flags = some (s', rc) ∧
      ¬ SameOutsideUser (fullSpace w) s'.mm.pgd := by
  obtain ⟨ha, hnew, hflags, hfixed, hol, hfit, h⟩ := h
  have hbase : userBase ≤ old := by
    rcases h with ⟨hhi, -⟩ | ⟨hb, -⟩
    · bv_omega
    · exact hb
  have hmapped (n : Nat) : allPages (userPageMapped (fullVm w next).mm.pgd) old n = true :=
    allPages_of_forall (userPageMapped_fullSpace w) old n
  have htrans (n : Nat) : allPages (fun p => vmmTranslateIn (fullVm w next).mm.pgd p != 0) old n = true :=
    allPages_of_forall (fun v => by simpa [fullVm] using vmmTranslateIn_fullSpace w v) old n
  rw [sysMremap, if_neg (by simp only [ha, hflags]; simpa using hnew), if_neg (by simp [hfixed])]
  dsimp only
  rw [if_neg (by simp only [not_or]; exact ⟨by bv_omega, by bv_omega, hol⟩), if_neg (by simp [hmapped])]
  rcases h with ⟨-, hlt, hpage⟩ | ⟨-, hstack, hlt, hmove, hge, hl⟩
  · rw [if_pos (by bv_omega), if_pos hlt]
    exact ⟨_, _, rfl, processUnmap_breaks hpage⟩
  obtain ⟨s', hmap, hbreak⟩ := sysMmap_breaks w 0 (1#64 ||| protWrite) (mmapWraps_of_move hge hl)
  rw [if_neg (by bv_omega), if_neg (by simp [hmove]), if_neg (by bv_omega), if_neg (by simp [htrans]),
    hmap]
  exact ⟨s', -enomem, rfl, hbreak⟩

theorem keeps_iff {call : Vm → Option (Vm × Int)} {bad : Prop}
    (hgood : ¬ bad → Keeps next call)
    (hbad : bad → ∃ w s' rc, call (fullVm w next) = some (s', rc) ∧
      ¬ SameOutsideUser (fullSpace w) s'.mm.pgd) : Keeps next call ↔ ¬ bad := by
  refine ⟨fun hk hb => ?_, hgood⟩
  obtain ⟨w, s', rc, hcall, hbreak⟩ := hbad hb
  exact hbreak (hk (fullVm w next) (fullVm_wf w next) rfl s' rc hcall)

/-- For each call and all its arguments: the entries outside user space survive
it in every address space exactly when its range does not wrap. -/
theorem mem_syscalls_keep_kernel_iff (next addr len prot flags fd off oldLen newLen : U64) :
    (Keeps next (sysMmap · addr len prot flags fd off) ↔ ¬ MmapWraps next len flags fd off) ∧
    (Keeps next (fun s => some (sysMunmap s addr len)) ↔ ¬ RangeWraps addr len) ∧
    (Keeps next (fun s => some (sysMprotect s addr len prot)) ↔ ¬ MprotectWraps addr len) ∧
    (Keeps next (sysMremap · addr oldLen newLen flags) ↔ ¬ MremapWraps next addr oldLen newLen flags) ∧
    Keeps next (sysBrk · addr) := by
  refine ⟨keeps_iff ?_ ?_, keeps_iff ?_ ?_, keeps_iff ?_ ?_, keeps_iff ?_ ?_, ?_⟩
  · intro hw s hs hn s' rc hcall
    exact sysMmap_frame hs.low (hn ▸ hw) hcall
  · intro hb
    obtain ⟨s', hcall, hbreak⟩ := sysMmap_breaks true addr prot hb
    exact ⟨true, s', _, hcall, hbreak⟩
  · intro hw s hs _ s' rc hcall
    obtain rfl : (sysMunmap s addr len).1 = s' := congrArg Prod.fst (Option.some.inj hcall)
    exact sysMunmap_frame hs.low hw
  · intro hb
    exact ⟨true, _, _, rfl, sysMunmap_breaks true next hb⟩
  · intro hw s hs _ s' rc hcall
    obtain rfl : (sysMprotect s addr len prot).1 = s' := congrArg Prod.fst (Option.some.inj hcall)
    exact sysMprotect_frame hs.low hw
  · intro hb
    exact ⟨!hasBit prot protWrite, _, _, rfl, sysMprotect_breaks hb⟩
  · intro hw s hs hn s' rc hcall
    exact sysMremap_frame hs.low (hn ▸ hw) hcall
  · intro hb
    exact ⟨true, sysMremap_breaks true hb⟩
  · intro s hs _ s' rc hcall
    exact sysBrk_frame hs hcall

/-- `munmap(HEAP_BASE, -HEAP_BASE)` passes the range check and takes the kernel
heap's pages away. -/
theorem munmap_drops_kernel_heap :
    ¬ ∀ s : Vm, s.mm.Wf → SameOutsideUser s.mm.pgd
      (sysMunmap s 0xFFFFC00000000000#64 0x0000400000000000#64).1.mm.pgd := by
  intro h
  apply sysMunmap_breaks true userMmapBase _ (h (fullVm true userMmapBase) (fullVm_wf _ _))
  exact ⟨by decide, by decide, by decide, by decide, by decide⟩

end Sic.X86
