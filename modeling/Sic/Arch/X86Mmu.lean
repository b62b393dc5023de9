import Sic.Mm.Tables

/-! The x86-64 translation tables of `kernel/arch/x86_64/mmu.c`: walks, and
the edits of single entries. The layout constants are those of
`asm/memlayout.h`. -/

namespace Sic.X86

abbrev userBase : U64 := 0x0000008000000000#64

abbrev userEnd : U64 := 0x0000800000000000#64

abbrev userStackTop : U64 := 0x00007FFFFFFFF000#64

abbrev userStackMax : U64 := 0x0000000000800000#64

abbrev userMmapBase : U64 := 0x0000010000000000#64

/-- The flag bits of an entry beside `PTE_PRESENT` and `PTE_HUGE`, which the
shape of the tree carries. -/
structure Flags where
  write : Bool := false
  user : Bool := false
  pwt : Bool := false
  pcd : Bool := false
  global : Bool := false
  dev : Bool := false
  cow : Bool := false
  nx : Bool := false
deriving DecidableEq, Repr

structure Pte where
  addr : Nat
  flags : Flags
deriving DecidableEq, Repr

abbrev Pml4 := Table Flags Pte 3

abbrev MapResult (n : Nat) := Sic.MapResult Flags Pte n

def vmmMapUserPage (t : Pml4) (virt : U64) (phys : Nat) (flags : Flags) (p : Pmm) : MapResult 3 :=
  if virt < userBase ∨ userEnd ≤ virt then some (t, p, -3)
  else mapIn 3 t virt ⟨phys, { flags with user := true }⟩ { write := true, user := true } p

def vmmUnmapUserPage (t : Pml4) (virt : U64) : Pml4 × Nat :=
  match t.leaf 3 virt with
  | none => (t, 0)
  | some e => (t.modify 3 virt (fun _ => none), if e.flags.dev then 0 else e.addr)

def vmmProtectUserPage (t : Pml4) (virt : U64) (flags : Flags) : Pml4 × Int :=
  match t.leaf 3 virt with
  | none => (t, -1)
  | some _ =>
    (t.modify 3 virt
      (Option.map fun e => { e with flags := { e.flags with write := flags.write, nx := flags.nx } }), 0)

def translateIn : (n : Nat) → Table Flags Pte n → U64 → Nat
  | 0, t, virt =>
    match t (idx virt 0) with
    | none => 0
    | some e => e.addr * 4096 + virt.toNat % 4096
  | n + 1, t, virt =>
    match t (idx virt (n + 1)) with
    | .empty => 0
    | .block e =>
      let page := if n = 0 then 0x200000 else 0x40000000
      e.addr * 4096 / page * page + virt.toNat % page
    | .table _ _ sub => translateIn n sub virt

def vmmTranslateIn (t : Pml4) (virt : U64) : Nat := translateIn 3 t virt

end Sic.X86
