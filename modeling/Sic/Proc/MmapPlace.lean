import Sic.Lib.Run
import Sic.Proc.MemWrap

/-! Where `sys_mmap` puts a mapping nobody asked a place for. The bump pointer
stays above every page of the mmap area as long as no length wraps it and no
fixed mapping enters the area from below. -/

namespace Sic.X86

inductive MemCall where
  | mmap (addr len prot flags fd off : U64)
  | munmap (addr len : U64)
  | mprotect (addr len prot : U64)
  | mremap (old oldLen newLen flags : U64)
  | brk (addr : U64)
  /-- What other calls and other processes do to the rest of the state. -/
  | other (pmm : Pmm) (files : Int → Option File) (heapRoom : Bool)

namespace Vm

def call (s : Vm) : MemCall → Option (Vm × Int)
  | .mmap addr len prot flags fd off => sysMmap s addr len prot flags fd off
  | .munmap addr len => some (sysMunmap s addr len)
  | .mprotect addr len prot => some (sysMprotect s addr len prot)
  | .mremap old oldLen newLen flags => sysMremap s old oldLen newLen flags
  | .brk addr => sysBrk s addr
  | .other pmm files heapRoom => some ({ s with pmm, files, heapRoom }, 0)

def step (s : Vm) (e : MemCall) : Vm := ((s.call e).map Prod.fst).getD s

end Vm

def Present (t : Pml4) (v : U64) : Prop := t.leaf 3 v ≠ none

/-- A driver that refuses says so with an error number. -/
def DriversRefuse (files : Int → Option File) : Prop :=
  ∀ fd f m, files fd = some f → f.node = .dev (some m) →
    ∀ pages off prot e, m pages off prot = .error e → 0 < e

/-- No length carries the bump pointer round the address space, and no fixed
mapping runs from below the mmap area past the pointer. -/
def Vm.Fits (s : Vm) : MemCall → Prop
  | .mmap addr len _ flags fd off =>
    ¬ MmapWraps s.mm.mmapNext len flags fd off ∧
      ¬ (hasBit flags mapFixed = true ∧ addr < userMmapBase ∧
        s.mm.mmapNext < addr + pageAlignUp len ∧ addr + pageAlignUp len ≤ mmapLimit)
  | .mremap _ _ newLen _ =>
    ¬ (2 ^ 64 ≤ s.mm.mmapNext.toNat + (pageAlignUp newLen).toNat ∧
      s.mm.mmapNext + pageAlignUp newLen ≤ mmapLimit)
  | .other _ files _ => DriversRefuse files
  | _ => True

/-- The bump pointer stands between the start of the mmap area and a page above
its limit, over every page that is mapped there; the heap ends below it. -/
structure Vm.Bumped (s : Vm) : Prop where
  aligned : s.mm.mmapNext.toNat % 4096 = 0
  base : userMmapBase ≤ s.mm.mmapNext
  limit : s.mm.mmapNext ≤ mmapLimit + 4096#64
  above : ∀ v, userMmapBase ≤ v → v < mmapLimit → Present s.mm.pgd v → v < s.mm.mmapNext
  heap : pageAlignUp s.mm.brkEnd ≤ userMmapBase
  drivers : DriversRefuse s.files

/-! ### Which addresses gain a page -/

def GrowsIn (lo hi : Nat) (t t' : Pml4) : Prop :=
  ∀ v, v < userEnd → Present t' v → Present t v ∨ (lo ≤ v.toNat ∧ v.toNat < hi)

variable {lo hi : Nat} {t t' t'' : Pml4} {p p' : Pmm} {virt prot flags off : U64} {n : Nat} {rc : Int}

theorem GrowsIn.of_imp (h : ∀ v, Present t' v → Present t v) : GrowsIn lo hi t t' :=
  fun v _ hv => .inl (h v hv)

theorem GrowsIn.refl (t : Pml4) : GrowsIn lo hi t t := .of_imp fun _ h => h

theorem GrowsIn.trans (h : GrowsIn lo hi t t') (h' : GrowsIn lo hi t' t'') : GrowsIn lo hi t t'' := by
  intro v hv hp
  rcases h' v hv hp with hp | hr
  · exact h v hv hp
  · exact .inr hr

variable {v fd addr span : U64}

theorem leaf_vmmProtectUserPage_none {fl : Flags} (w : U64) (h : t.leaf 3 v = none) :
    (vmmProtectUserPage t w fl).1.leaf 3 v = none := by
  rw [vmmProtectUserPage]
  split
  · exact h
  next e he =>
  have hp : ¬ Table.SamePath 3 w v := by
    intro hp
    rw [Table.leaf_congr t hp, h] at he
    cases he
  rwa [Table.leaf_modify_of_not_samePath t _ hp]

theorem Edits.present {P : U64 → Prop} (h : Edits P t t') (hp : Present t' v) :
    Present t v ∨ ∃ w, P w ∧ w < userEnd ∧ Table.SamePath 3 w v := by
  induction h with
  | refl => exact .inl hp
  | tail _ he ih =>
    cases he with
    | @map _ w phys fl p p' rc hw h =>
      by_cases hs : Table.SamePath 3 w v
      · by_cases hu : w < userBase ∨ userEnd ≤ w
        · rw [vmmMapUserPage, if_pos hu] at h
          cases h
          exact ih hp
        · exact .inr ⟨w, hw, by bv_omega, hs⟩
      · rw [Present, leaf_vmmMapUserPage h hs] at hp
        exact ih hp
    | unmap hw => exact ih fun hn => hp (leaf_vmmUnmapUserPage_none _ hn)
    | protect hw => exact ih fun hn => hp (leaf_vmmProtectUserPage_none _ hn)

theorem Edits.grows (h : Edits (Pages virt n) t t') (ha : virt.toNat % 4096 = 0)
    (hr : virt.toNat + 4096 * n < 2 ^ 64) : GrowsIn virt.toNat (virt.toNat + 4096 * n) t t' := by
  intro v hv hp
  rcases h.present hp with hp | ⟨w, ⟨k, hk, rfl⟩, hw, hs⟩
  · exact .inl hp
  right
  rw [Table.samePath_three, toNat_pageAt] at hs
  have := toNat_pageAt virt k
  bv_omega

theorem present_of_processUnmap (h : Present (processUnmap t p virt n).1 v) : Present t v :=
  fun hn => h (leaf_processUnmap_none hn)

structure Fills (lo hi : Nat) (s s' : Vm) : Prop where
  next : s'.mm.mmapNext = s.mm.mmapNext
  brk : s'.mm.brkEnd = s.mm.brkEnd
  files : s'.files = s.files
  grows : GrowsIn lo hi s.mm.pgd s'.mm.pgd

variable {s s' : Vm} {f : Option File}

theorem Fills.refl (s : Vm) : Fills lo hi s s := ⟨rfl, rfl, rfl, .refl _⟩

theorem Fills.unmap (h : Fills lo hi s s') :
    Fills lo hi s (s'.withPgd (processUnmap s'.mm.pgd s'.pmm virt n).1 p) :=
  ⟨h.next, h.brk, h.files, h.grows.trans (.of_imp fun _ => present_of_processUnmap)⟩

theorem Vm.Bumped.fills {s₁ : Vm} (h : s.Bumped) (ha : s₁.mm.mmapNext.toNat % 4096 = 0)
    (hle : s.mm.mmapNext ≤ s₁.mm.mmapNext) (hlim : s₁.mm.mmapNext ≤ mmapLimit + 4096#64)
    (hpgd : ∀ v, Present s₁.mm.pgd v → Present s.mm.pgd v) (hbrk : s₁.mm.brkEnd = s.mm.brkEnd)
    (hfiles : s₁.files = s.files) (hf : Fills lo hi s₁ s')
    (hhi : hi ≤ s₁.mm.mmapNext.toNat ∨ hi ≤ userMmapBase.toNat) : s'.Bumped where
  aligned := by rwa [hf.next]
  base := by
    rw [hf.next]
    exact BitVec.le_trans h.base hle
  limit := by rwa [hf.next]
  above := by
    intro v hb hl hp
    rw [hf.next]
    rcases hf.grows v (by unfold mmapLimit at hl; bv_omega) hp with hp | hr
    · have := h.above v hb hl (hpgd v hp)
      bv_omega
    · bv_omega
  heap := by
    rw [hf.brk, hbrk]
    exact h.heap
  drivers := by
    rw [hf.files, hfiles]
    exact h.drivers

structure Fresh (t : Pml4) (virt span : U64) : Prop where
  aligned : virt.toNat % 4096 = 0
  base : userMmapBase ≤ virt
  limit : virt.toNat + span.toNat ≤ mmapLimit.toNat
  apart : ∀ v : U64, virt.toNat ≤ v.toNat → v.toNat < virt.toNat + span.toNat → ¬ Present t v

instance (next len flags fd off : U64) : Decidable (MmapWraps next len flags fd off) :=
  inferInstanceAs (Decidable (_ ∧ _ ∧ _ ∧ _ ∧ _ ∧ _))

end Sic.X86
