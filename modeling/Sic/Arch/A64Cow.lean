import Sic.Arch.A64Mmu
import Sic.Lib.Run

/-! Copy-on-write as a way to copy. Beside the machine runs a model in which
every address space has its own copy of every page that is not a device page,
and a clone copies them all at once. -/

namespace Sic.A64

/-- What the processes and the kernel do to address spaces, page by page: the
loops of `map_zeroed`, `process_protect` and `process_unmap` take the lock anew
for every page. -/
inductive Event where
  | create
  | clone (src : Nat)
  | destroy (pgd : Nat)
  | map (pgd : Nat) (virt : U64) (write exec : Bool)
  | mapDevice (pgd : Nat) (virt : U64) (phys : Nat) (write exec pwt pcd : Bool)
  | unmap (pgd : Nat) (virt : U64)
  | protect (pgd : Nat) (virt : U64) (write exec : Bool)
  | store (pgd : Nat) (virt : U64) (b : U8)
deriving DecidableEq, Repr

inductive Reply where
  | root (pgd : Nat)
  | rc (rc : Int)
  | starved
  | halted
deriving DecidableEq, Repr

namespace Machine

def starved (s : Machine) (pgd : Nat) (virt : U64) : Bool :=
  match s.walk pgd virt with
  | none => false
  | some e => e.swCow && decide (1 < s.pmm.pmmPageGetRef e.addr) && s.pmm.pmmAllocPage.1 == 0

def step (s : Machine) : Event → Machine × Reply
  | .create => s.vmmCreateAddressSpace.elim (s, .halted) fun (s, pgd) => (s, .root pgd)
  | .clone src => (s.vmmCloneAddressSpace src).elim (s, .halted) fun (s, pgd) => (s, .root pgd)
  | .destroy pgd => (s.vmmDestroyAddressSpace pgd, .rc 0)
  | .map pgd virt write exec =>
    (s.mapZeroed pgd virt (protToPte write exec)).elim (s, .halted) fun (s, rc) => (s, .rc rc)
  | .mapDevice pgd virt phys write exec pwt pcd =>
    (s.mapDevice pgd virt phys { protToPte write exec with pwt := pwt, pcd := pcd }).elim (s, .halted)
      fun (s, rc) => (s, .rc rc)
  | .unmap pgd virt => (s.processUnmap pgd virt, .rc 0)
  | .protect pgd virt write exec =>
    let (s, rc) := s.processProtect pgd virt (protToPte write exec)
    (s, .rc rc)
  | .store pgd virt b =>
    let (s', rc) := s.store pgd virt b
    (s', if s.starved pgd virt then .starved else .rc rc)

end Machine

/-! ### The model of copies -/

inductive View where
  | anon (write : Bool) (bytes : Nat → U8)
  | device (write : Bool) (phys : Nat)

def vpn (virt : U64) : Nat := virt.toNat / 4096 % 2 ^ 36

structure Deep where
  devices : Nat → Nat → U8
  spaces : Nat → Option (Nat → Option View)

def boot (p : Pmm) (mem : Nat → Nat → U8) : Machine × Deep :=
  ({ pmm := p, mem := mem, spaces := fun _ => none }, { devices := mem, spaces := fun _ => none })

/-! ### What the operations do -/

variable {s s' : Machine} {r g : Nat} {t : L0} {v : U64} {e : Desc}

theorem samePath_iff_vpn {v w : U64} : Table.SamePath 3 v w ↔ vpn v = vpn w := Table.samePath_three

theorem samePath_pageAlignDown (v : U64) : Table.SamePath 3 (pageAlignDown v) v := by
  rw [samePath_iff_vpn, vpn, vpn, toNat_pageAlignDown]
  omega

theorem walk_eq_some (h : s.walk r v = some e) : ∃ t, s.spaces r = some t ∧ t.leaf 3 v = some e ∧
    userBase ≤ v ∧ v < userEnd := by
  unfold Machine.walk at h
  split at h
  · next hv =>
    obtain ⟨t, hs, hl⟩ := Option.bind_eq_some_iff.mp h
    exact ⟨t, hs, hl, hv⟩
  · cases h

theorem vmmHandleCow_cow (hs : s.spaces r = some t) (hv : userBase ≤ v ∧ v < userEnd) (hl : t.leaf 3 v = some e)
    (hcow : e.swCow = true) :
    s.vmmHandleCow r v =
      if s.pmm.pmmPageGetRef e.addr ≤ 1 then
        (s.setSpace r (some (t.modify 3 (pageAlignDown v)
          (Option.map fun e => { e with swCow := false, apRo := false }))), 0)
      else if s.pmm.pmmAllocPage.1 = 0 then (s, -1)
      else
        ({ pmm := s.pmm.pmmAllocPage.2.pmmFreePage e.addr
           mem := Function.update s.mem s.pmm.pmmAllocPage.1 (s.mem e.addr)
           spaces := Function.update s.spaces r (some (t.modify 3 (pageAlignDown v)
             (Option.map fun e => { e with addr := s.pmm.pmmAllocPage.1, swCow := false, apRo := false }))) },
               0) := by
  have hrange : ¬ (v < userBase ∨ userEnd ≤ v) := by bv_omega
  have hl' : t.leaf 3 (pageAlignDown v) = some e := (Table.leaf_congr t (samePath_pageAlignDown v)).trans hl
  unfold Machine.vmmHandleCow
  simp only [hs, if_neg hrange, hl', hcow, Bool.not_true, Bool.false_eq_true, if_false]

theorem vmmCreateAddressSpace_spec (h : s.vmmCreateAddressSpace = some (s', g)) :
    ∃ p, s.pmm.pmmAllocPage = (g, p) ∧ g ≠ 0 ∧
      s' = { s with pmm := p, spaces := Function.update s.spaces g (some (Table.empty 3)) } := by
  unfold Machine.vmmCreateAddressSpace at h
  rcases ha : s.pmm.pmmAllocPage with ⟨phys, p⟩
  rw [ha] at h
  dsimp only at h
  split at h
  · cases h
  next hg =>
  cases h
  exact ⟨p, rfl, hg, rfl⟩

theorem vmmCloneAddressSpace_spec (h : s.vmmCloneAddressSpace r = some (s', g)) :
    ∃ t s₁ t' dt p, s.spaces r = some t ∧ s.vmmCreateAddressSpace = some (s₁, g) ∧
      cloneTable 3 t s₁.pmm = some (t', dt, p) ∧
      s' = { s₁ with pmm := p
                     spaces := Function.update (Function.update s₁.spaces r (some t')) g (some dt) } := by
  unfold Machine.vmmCloneAddressSpace at h
  simp only [Option.bind_eq_bind, Option.bind_eq_some_iff, Prod.exists] at h
  obtain ⟨t, hs, s₁, g', hc, t', dt, p, ht, h⟩ := h
  cases h
  exact ⟨t, s₁, t', dt, p, hs, hc, ht, rfl⟩

def smallPmm : Pmm where
  bitmap f := f == 0
  refcounts _ := 0
  bitmapPages := 16
  usedPages := 1
  searchHint := 1

end Sic.A64
