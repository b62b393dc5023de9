import Sic.Proc.MemEdits

/-! Which entries the memory system calls can touch. User space fills the
top-level slots 1 to 255; the rest of the tables belongs to the kernel. -/

namespace Sic.X86

def Canonical (v : U64) : Prop := v.toNat < 2 ^ 47 ∨ 2 ^ 64 - 2 ^ 47 ≤ v.toNat

/-- Every entry, at every level, on the walk of an address outside
`[USER_BASE, USER_END)` is the same in both tables. -/
def SameOutsideUser (t t' : Pml4) : Prop :=
  ∀ v, Canonical v → ¬ (userBase ≤ v ∧ v < userEnd) → t' (idx v 3) = t (idx v 3)

def KernelSlot (i : Fin 512) : Prop := i.val = 0 ∨ 256 ≤ i.val

theorem idx_three (v : U64) : (idx v 3).val = v.toNat / 2 ^ 39 % 512 := rfl

variable {t t' : Pml4} {virt addr len prot flags : U64} {rc : Int} {s s' : Vm}

theorem sameOutsideUser_iff : SameOutsideUser t t' ↔ ∀ i, KernelSlot i → t' i = t i := by
  constructor
  · intro h i hi
    let v : U64 := BitVec.ofNat 64 (if i.val = 0 then 0 else i.val * 2 ^ 39 + (2 ^ 64 - 2 ^ 48))
    have hlt := i.isLt
    have hv : v.toNat = if i.val = 0 then 0 else i.val * 2 ^ 39 + (2 ^ 64 - 2 ^ 48) := by
      rw [BitVec.toNat_ofNat]
      apply Nat.mod_eq_of_lt
      split <;> omega
    have hidx : idx v 3 = i := by
      apply Fin.ext
      rw [idx_three, hv]
      rcases hi with hi | hi <;> split <;> omega
    have hh := h v (by unfold Canonical; rcases hi with hi | hi <;> split at hv <;> omega)
      (by rcases hi with hi | hi <;> split at hv <;> bv_omega)
    rwa [hidx] at hh
  · intro h v hc hu
    apply h
    unfold KernelSlot
    rw [idx_three]
    unfold Canonical at hc
    have := v.isLt
    bv_omega

theorem SameOutsideUser.refl (t : Pml4) : SameOutsideUser t t := fun _ _ _ => rfl

theorem SameOutsideUser.trans {t'' : Pml4} (h : SameOutsideUser t t')
    (h' : SameOutsideUser t' t'') : SameOutsideUser t t'' :=
  fun v hc hu => (h' v hc hu).trans (h v hc hu)

theorem leaf_congr_slot {v : U64} (h : t' (idx v 3) = t (idx v 3)) : Table.leaf 3 t' v = Table.leaf 3 t v := by
  simp only [Table.leaf, h]

def LowHuge (t : Pml4) : Prop := ∀ v, (idx v 3).val = 0 → t.leaf 3 v = none

/-- What holds of every address space: the identity map is in place, and the
break stays below the end of user space. -/
structure Mm.Wf (m : Mm) : Prop where
  low : LowHuge m.pgd
  brk : pageAlignUp m.brkEnd ≤ userEnd

/-! ### Mapping -/

theorem vmmMapUserPage_frame {phys : Nat} {flags : Flags}
    {p p' : Pmm} (h : vmmMapUserPage t virt phys flags p = some (t', p', rc)) :
    SameOutsideUser t t' := by
  rw [vmmMapUserPage] at h
  split at h
  · cases h
    exact .refl t
  rename_i hv
  apply sameOutsideUser_iff.mpr
  intro i hi
  apply mapIn_slot_of_ne h
  rintro rfl
  unfold KernelSlot at hi
  rw [idx_three] at hi
  bv_omega

/-! ### Unmapping and protecting -/

theorem vmmUnmapUserPage_slot_of_ne (t : Pml4) {i : Fin 512} (h : i ≠ idx virt 3) :
    (vmmUnmapUserPage t virt).1 i = t i := by
  rw [vmmUnmapUserPage]
  split
  · rfl
  · exact Table.modify_slot_of_ne t virt _ h

theorem vmmProtectUserPage_slot_of_ne (t : Pml4) (flags : Flags) {i : Fin 512}
    (h : i ≠ idx virt 3) : (vmmProtectUserPage t virt flags).1 i = t i := by
  rw [vmmProtectUserPage]
  split
  · rfl
  · exact Table.modify_slot_of_ne t virt _ h

theorem sameOutsideUser_of_edit (hlow : LowHuge t) (hv : (idx virt 3).val < 256)
    (hslot : ∀ i, i ≠ idx virt 3 → t' i = t i) (hidle : t.leaf 3 virt = none → t' = t) :
    SameOutsideUser t t' := by
  apply sameOutsideUser_iff.mpr
  intro i hi
  by_cases he : i = idx virt 3
  · have hz : (idx virt 3).val = 0 := by
      subst he
      unfold KernelSlot at hi
      omega
    rw [hidle (hlow virt hz)]
  · exact hslot i he

theorem LowHuge.of_sameOutsideUser (hlow : LowHuge t) (h : SameOutsideUser t t') : LowHuge t' := by
  intro v hv
  rw [leaf_congr_slot (sameOutsideUser_iff.mp h _ (.inl hv))]
  exact hlow v hv

theorem Edit.frame {P : U64 → Prop} (h : Edit P t t') (hlow : LowHuge t)
    (hP : ∀ v, P v → (idx v 3).val < 256) : SameOutsideUser t t' := by
  cases h with
  | map hv h => exact vmmMapUserPage_frame h
  | unmap hv =>
    apply sameOutsideUser_of_edit hlow (hP _ hv) fun i hi => vmmUnmapUserPage_slot_of_ne t hi
    intro hn
    simp [vmmUnmapUserPage, hn]
  | protect hv =>
    apply sameOutsideUser_of_edit hlow (hP _ hv) fun i hi => vmmProtectUserPage_slot_of_ne t _ hi
    intro hn
    simp [vmmProtectUserPage, hn]

theorem Edits.frame {P : U64 → Prop} (h : Edits P t t') (hlow : LowHuge t)
    (hP : ∀ v, P v → (idx v 3).val < 256) : SameOutsideUser t t' := by
  induction h with
  | refl => exact .refl t
  | tail _ he ih => exact ih.trans (he.frame (hlow.of_sameOutsideUser ih) hP)

theorem pages_below {n : Nat} (h : virt.toNat + 4096 * n ≤ 2 ^ 47) :
    ∀ v, Pages virt n v → (idx v 3).val < 256 := by
  rintro v ⟨k, hk, rfl⟩
  rw [idx_three, toNat_pageAt]
  omega

/-! ### The calls -/

@[simp]
theorem withMmapNext_pgd (s : Vm) (next : U64) : (s.withMmapNext next).mm.pgd = s.mm.pgd := rfl

theorem hasBit_pageMask (x : U64) : hasBit x 0xFFF#64 = false ↔ x.toNat % 4096 = 0 := by
  have h : (x &&& 0xFFF#64).toNat = x.toNat % 4096 := by
    rw [BitVec.toNat_and]
    exact Nat.and_two_pow_sub_one_eq_mod x.toNat 12
  rw [← h, hasBit]
  simp [BitVec.toNat_eq]

def Keeps (next : U64) (call : Vm → Option (Vm × Int)) : Prop :=
  ∀ s, s.mm.Wf → s.mm.mmapNext = next →
    ∀ s' rc, call s = some (s', rc) → SameOutsideUser s.mm.pgd s'.mm.pgd

def mmapLimit : U64 := userStackTop - userStackMax - 4096#64

/-- A length that carries the bump pointer past the top of the address space
and back below the limit. -/
def MmapWraps (next len flags fd off : U64) : Prop :=
  len ≠ 0 ∧ hasBit off 0xFFF#64 = false ∧ hasBit flags mapFixed = false ∧
    (hasBit flags mapAnonymous = true ∨ (0 ≤ fd.toInt ∧ fd.toInt < maxFds)) ∧
    2 ^ 64 ≤ next.toNat + (pageAlignUp len).toNat ∧ next + pageAlignUp len ≤ mmapLimit

/-- A range whose end wraps into user space, and that rounds to some page. -/
def RangeWraps (addr len : U64) : Prop :=
  hasBit addr 0xFFF#64 = false ∧ userBase ≤ addr ∧ 2 ^ 64 ≤ addr.toNat + len.toNat ∧
    addr + len ≤ userEnd ∧ pageAlignUp len ≠ 0

/-- `mprotect` stops at the first page that is not there, so a wrapped range
does no harm where its first page lies over the identity map. -/
def MprotectWraps (addr len : U64) : Prop := RangeWraps addr len ∧ (idx addr 3).val ≠ 0

/-- `mremap` shrinks a range above `USER_END` and drops a page of the kernel
half, or moves a range by way of an `mmap` that wraps. -/
def MremapWraps (next old oldLen newLen flags : U64) : Prop :=
  let ol := pageAlignUp oldLen
  let nl := pageAlignUp newLen
  hasBit old 0xFFF#64 = false ∧ newLen ≠ 0 ∧
    hasBit flags (~~~(mremapMaymove ||| mremapFixed)) = false ∧ hasBit flags mremapFixed = false ∧
    ol ≠ 0 ∧ ol ≤ userEnd - old ∧
    ((userEnd < old ∧ nl < ol ∧
        ∃ k < (ol - nl).toNat / 4096, 256 ≤ (idx (pageAt (old + nl) k) 3).val) ∨
      (userBase ≤ old ∧ old < userStackTop - userStackMax ∧ ol < nl ∧
        hasBit flags mremapMaymove = true ∧
        2 ^ 64 ≤ next.toNat + nl.toNat ∧ next + nl ≤ mmapLimit))

theorem pageAlignUp_div_mul (x : U64) : (pageAlignUp x).toNat / 4096 * 4096 = (pageAlignUp x).toNat := by
  rw [toNat_pageAlignUp]
  omega

theorem range_below (ha : addr.toNat % 4096 = 0) (hb : userBase ≤ addr)
    (he : addr + len ≤ userEnd) (h : ¬ RangeWraps addr len) :
    addr.toNat + 4096 * ((pageAlignUp len).toNat / 4096) ≤ 2 ^ 47 ∨
      (pageAlignUp len).toNat / 4096 = 0 := by
  by_cases hz : pageAlignUp len = 0
  · right
    simp [hz]
  left
  have hw : addr.toNat + len.toNat < 2 ^ 64 := by
    by_contra hw
    exact h ⟨(hasBit_pageMask addr).mpr ha, hb, by omega, he, hz⟩
  have hl := toNat_pageAlignUp len
  bv_omega

theorem sysMunmap_frame (hlow : LowHuge s.mm.pgd) (h : ¬ RangeWraps addr len) :
    SameOutsideUser s.mm.pgd (sysMunmap s addr len).1.mm.pgd := by
  rw [sysMunmap]
  split
  · exact .refl _
  split
  · exact .refl _
  rename_i h1 h2
  simp only [not_or, Bool.not_eq_true, hasBit_pageMask] at h1
  apply (processUnmap_edits _ _ _ _).frame hlow
  rcases range_below h1.1 (by bv_omega) (by bv_omega) h with hr | hr
  · exact pages_below hr
  · rintro v ⟨k, hk, -⟩
    omega

theorem sysMprotect_frame (hlow : LowHuge s.mm.pgd) (h : ¬ MprotectWraps addr len) :
    SameOutsideUser s.mm.pgd (sysMprotect s addr len prot).1.mm.pgd := by
  rw [sysMprotect]
  split
  · exact .refl _
  split
  · exact .refl _
  rename_i h1 h2
  simp only [Bool.not_eq_true, hasBit_pageMask] at h1
  by_cases hw : RangeWraps addr len
  · -- the first page lies over the identity map, where there is no small page
    have hz : (idx addr 3).val = 0 := by
      by_contra hh
      exact h ⟨hw, hh⟩
    have hn : vmmProtectUserPage s.mm.pgd addr (protToPte prot) = (s.mm.pgd, -1) := by
      simp [vmmProtectUserPage, hlow addr hz]
    cases (pageAlignUp len).toNat / 4096 with
    | zero => exact .refl _
    | succ n =>
      simp only [processProtect, hn]
      exact .refl _
  · apply (processProtect_edits _ _ _ _).frame hlow
    rcases range_below h1 (by bv_omega) (by bv_omega) hw with hr | hr
    · exact pages_below hr
    · rintro v ⟨k, hk, -⟩
      omega

theorem mmapPlace_frame {span : U64} (hlow : LowHuge s.mm.pgd)
    (h : mmapPlace s addr span flags = .ok (s', virt)) :
    SameOutsideUser s.mm.pgd s'.mm.pgd ∧
      (virt.toNat + span.toNat ≤ 2 ^ 47 ∨
        hasBit flags mapFixed = false ∧ virt = s.mm.mmapNext ∧ virt + span ≤ mmapLimit) := by
  rw [mmapPlace] at h
  dsimp only at h
  split at h
  · split at h
    · cases h
    · have hr : addr.toNat + span.toNat ≤ 2 ^ 47 := by bv_omega
      have hf : SameOutsideUser s.mm.pgd (processUnmap s.mm.pgd s.pmm addr (span.toNat / 4096)).1 :=
        (processUnmap_edits _ _ _ _).frame hlow (pages_below (by omega))
      split at h <;> cases h <;> exact ⟨hf, .inl hr⟩
  · rename_i hfix
    split at h
    · cases h
    rename_i hl
    obtain ⟨rfl, rfl⟩ := Prod.mk.inj (Except.ok.inj h)
    rw [withMmapNext_pgd]
    refine ⟨.refl _, .inr ⟨by simpa using hfix, rfl, ?_⟩⟩
    unfold mmapLimit
    bv_omega

theorem mmapFile_fd {fd : U64} {f : Option File} (h : mmapFile s prot flags fd = .ok f) :
    hasBit flags mapAnonymous = true ∨ (0 ≤ fd.toInt ∧ fd.toInt < maxFds) := by
  rw [mmapFile] at h
  split at h
  · rename_i ha
    exact .inl ha
  right
  by_contra hr
  have hn : fdGet s fd.toInt = none := by
    rw [fdGet, if_pos]
    omega
  rw [hn] at h
  cases h

theorem sysMmap_frame {fd off : U64}
    (hlow : LowHuge s.mm.pgd) (hw : ¬ MmapWraps s.mm.mmapNext len flags fd off)
    (h : sysMmap s addr len prot flags fd off = some (s', rc)) :
    SameOutsideUser s.mm.pgd s'.mm.pgd := by
  rw [sysMmap] at h
  split at h
  · cases h
    exact .refl _
  split at h
  · cases h
    exact .refl _
  split at h
  · cases h
    exact .refl _
  rename_i hlen hoff _
  split at h
  · cases h
    exact .refl _
  rename_i f hfile
  split at h
  · cases h
    exact .refl _
  rename_i s₁ virt hplace
  obtain ⟨hf₁, hr⟩ := mmapPlace_frame hlow hplace
  have hpages : ∀ v, Pages virt ((pageAlignUp len).toNat / 4096) v → (idx v 3).val < 256 := by
    apply pages_below
    rcases hr with hr | ⟨hfix, rfl, hl⟩
    · omega
    have hlt : s.mm.mmapNext.toNat + (pageAlignUp len).toNat < 2 ^ 64 := by
      by_contra hge
      exact hw ⟨hlen, by simpa using hoff, hfix, mmapFile_fd hfile, by omega, hl⟩
    unfold mmapLimit at hl
    bv_omega
  simp only [Option.bind_eq_bind, Option.bind_eq_some_iff, Prod.exists] at h
  obtain ⟨s₂, r, hfill, h⟩ := h
  have hlow₁ := hlow.of_sameOutsideUser hf₁
  have hf₂ := (mmapFill_edits hfill).frame hlow₁ hpages
  split at h
  · cases h
    exact hf₁.trans (hf₂.trans ((processUnmap_edits _ _ _ _).frame (hlow₁.of_sameOutsideUser hf₂) hpages))
  · cases h
    exact hf₁.trans hf₂

theorem pageAlignUp_idem (x : U64) : pageAlignUp (pageAlignUp x) = pageAlignUp x := by
  apply BitVec.eq_of_toNat_eq
  have h := toNat_pageAlignUp x
  rw [toNat_pageAlignUp (pageAlignUp x)]
  omega

theorem mmapWraps_anon {next : U64} (h : MmapWraps next (pageAlignUp len) (2#64 ||| mapAnonymous) (-1) 0) :
    2 ^ 64 ≤ next.toNat + (pageAlignUp len).toNat ∧ next + pageAlignUp len ≤ mmapLimit := by
  obtain ⟨-, -, -, -, hge, hl⟩ := h
  rw [pageAlignUp_idem] at hge hl
  exact ⟨hge, hl⟩

theorem sysMremap_frame {old oldLen newLen : U64}
    (hlow : LowHuge s.mm.pgd) (hw : ¬ MremapWraps s.mm.mmapNext old oldLen newLen flags)
    (h : sysMremap s old oldLen newLen flags = some (s', rc)) :
    SameOutsideUser s.mm.pgd s'.mm.pgd := by
  rw [sysMremap] at h
  dsimp only at h
  split at h
  · cases h
    exact .refl _
  split at h
  · cases h
    exact .refl _
  split at h
  · cases h
    exact .refl _
  rename_i hargs hfixed hrange
  simp only [not_or, Bool.not_eq_true] at hargs hfixed hrange
  split at h
  · cases h
    exact .refl _
  split at h
  · split at h
    · rename_i hlt
      cases h
      apply (processUnmap_edits _ _ _ _).frame hlow
      rcases Nat.lt_or_ge userEnd.toNat old.toNat with hhi | hlo
      · -- a range above user space is accepted by the wrapped subtraction
        rintro v ⟨k, hk, rfl⟩
        by_contra hidx
        exact hw ⟨hargs.1, hargs.2.1, hargs.2.2, hfixed, hrange.2.2, by bv_omega,
          .inl ⟨by bv_omega, hlt, k, hk, by omega⟩⟩
      · apply pages_below
        bv_omega
    · cases h
      exact .refl _
  rename_i hgrow
  split at h
  · cases h
    exact .refl _
  rename_i hmove
  split at h
  · cases h
    exact .refl _
  rename_i hstack
  split at h
  · cases h
    exact .refl _
  simp only [Option.bind_eq_bind, Option.bind_eq_some_iff, Prod.exists] at h
  obtain ⟨s₁, nw, hmap, h⟩ := h
  have hf : SameOutsideUser s.mm.pgd s₁.mm.pgd := by
    apply sysMmap_frame hlow _ hmap
    intro hm
    obtain ⟨hge, hl⟩ := mmapWraps_anon hm
    exact hw ⟨hargs.1, hargs.2.1, hargs.2.2, hfixed, hrange.2.2, by bv_omega,
      .inr ⟨by bv_omega, by bv_omega, by bv_omega, by simpa using hmove, hge, hl⟩⟩
  split at h
  · cases h
    exact hf
  cases h
  apply hf.trans
  apply sysMunmap_frame (hlow.of_sameOutsideUser hf)
  rintro ⟨-, -, hge, -, -⟩
  bv_omega

theorem sysBrk_frame (hs : s.mm.Wf)
    (h : sysBrk s addr = some (s', rc)) : SameOutsideUser s.mm.pgd s'.mm.pgd := by
  have hbrk := hs.brk
  rw [sysBrk] at h
  dsimp only at h
  split at h
  · cases h
    exact .refl _
  split at h
  · cases h
    exact .refl _
  split at h
  · have hpages : ∀ v, Pages (pageAlignUp s.mm.brkEnd)
        ((pageAlignUp addr - pageAlignUp s.mm.brkEnd).toNat / 4096) v → (idx v 3).val < 256 := by
      apply pages_below
      bv_omega
    simp only [Option.bind_eq_bind, Option.bind_eq_some_iff, Prod.exists] at h
    obtain ⟨t, p, r, hmap, h⟩ := h
    have hf : SameOutsideUser s.mm.pgd t := (mapZeroed_edits hmap).frame hs.low hpages
    split at h
    · cases h
      exact hf.trans ((processUnmap_edits _ _ _ _).frame (hs.low.of_sameOutsideUser hf) hpages)
    · cases h
      exact hf
  split at h
  · cases h
    apply (processUnmap_edits _ _ _ _).frame hs.low
    apply pages_below
    bv_omega
  · cases h
    exact .refl _

end Sic.X86
