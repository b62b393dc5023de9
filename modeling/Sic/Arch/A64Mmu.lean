import Sic.Mm.Tables

/-! The user half of the aarch64 translation tables, `kernel/arch/aarch64/mmu.c`.
An address space is named by the frame of its level-0 table, as a `pgd_t` is. -/

namespace Sic.A64

abbrev userBase : U64 := 0x0000000000001000#64

abbrev userEnd : U64 := 0x0000800000000000#64

structure Flags where
  write : Bool := false
  user : Bool := false
  pwt : Bool := false
  pcd : Bool := false
  dev : Bool := false
  nx : Bool := false
  cow : Bool := false
deriving DecidableEq, Repr

structure Desc where
  addr : Nat
  attr : Nat
  shInner : Bool
  apRo : Bool
  apUser : Bool
  ng : Bool
  pxn : Bool
  uxn : Bool
  swDev : Bool
  swCow : Bool
deriving DecidableEq, Repr

abbrev L0 := Table Unit Desc 3

def pageDesc (phys : Nat) (flags : Flags) : Desc where
  addr := phys
  attr := if flags.pcd then 1 else if flags.pwt then 3 else 0
  shInner := !flags.pcd
  apRo := !flags.write || flags.cow
  apUser := flags.user
  ng := flags.user
  pxn := flags.user || flags.nx
  uxn := !flags.user || flags.nx
  swDev := flags.dev
  swCow := flags.cow

def descFlags (d : Desc) : Flags where
  write := !d.apRo
  user := d.apUser
  nx := d.uxn
  dev := d.swDev
  cow := d.swCow
  pcd := d.attr == 1
  pwt := d.attr == 3

def vmmMapUserPage (t : L0) (virt : U64) (phys : Nat) (flags : Flags) (p : Pmm) : MapResult Unit Desc 3 :=
  if virt < userBase ∨ userEnd ≤ virt then some (t, p, -3)
  else mapIn 3 t virt (pageDesc phys { flags with user := true }) () p

def vmmUnmapUserPage (t : L0) (virt : U64) : L0 × Nat :=
  match t.leaf 3 virt with
  | none => (t, 0)
  | some d => (t.modify 3 virt (fun _ => none), if d.swDev then 0 else d.addr)

/-- The descriptor `vmm_protect_user_page` writes: a copy-on-write page that is
to be writable stays copy-on-write. -/
def protectDesc (flags : Flags) (d : Desc) : Desc :=
  let flags := if d.swCow && flags.write then { flags with write := false, cow := true } else flags
  pageDesc d.addr { descFlags d with write := flags.write, nx := flags.nx, cow := flags.cow }

def vmmProtectUserPage (t : L0) (virt : U64) (flags : Flags) : L0 × Int :=
  match t.leaf 3 virt with
  | none => (t, -1)
  | some _ => (t.modify 3 virt (Option.map (protectDesc flags)), 0)

def owned (d : Desc) : Option Nat := if d.swDev then none else some d.addr

def freeTableRecursive (l0 : Nat) (t : L0) (p : Pmm) : Pmm :=
  (freeEntries owned 3 (List.finRange 512) t p).pmmFreePage l0

/-! ### Cloning -/

def clonePage : Table Unit Desc 0 × Table Unit Desc 0 × Pmm → Fin 512 →
    Table Unit Desc 0 × Table Unit Desc 0 × Pmm
  | (src, dst, p), i =>
    match src i with
    | none => (src, dst, p)
    | some e =>
      if e.swDev then (src, Function.update dst i (some e), p)
      else if !e.apRo || e.swCow then
        (Function.update src i (some { e with apRo := true, swCow := true }),
          Function.update dst i (some { e with apRo := true, swCow := true }), p.pmmPageIncRef e.addr)
      else (src, Function.update dst i (some e), p.pmmPageIncRef e.addr)

def cloneTable : (n : Nat) → Table Unit Desc n → Pmm → Option (Table Unit Desc n × Table Unit Desc n × Pmm)
  | 0, src, p => some ((List.finRange 512).foldl clonePage (src, Table.empty 0, p))
  | n + 1, src, p => (List.finRange 512).foldlM (fun (src, dst, p) i =>
      match src i with
      | .table phys _ sub =>
        let (dphys, p) := p.pmmAllocPage
        if dphys = 0 then none
        else do
          let (sub, dsub, p) ← cloneTable n sub p
          return (Function.update src i (.table phys () sub), Function.update dst i (.table dphys () dsub), p)
      | _ => some (src, dst, p)) (src, Table.empty (n + 1), p)

/-! ### The machine -/

structure Machine where
  pmm : Pmm
  mem : Nat → Nat → U8
  spaces : Nat → Option L0

namespace Machine

def setSpace (s : Machine) (pgd : Nat) (t : Option L0) : Machine :=
  { s with spaces := Function.update s.spaces pgd t }

def vmmCreateAddressSpace (s : Machine) : Option (Machine × Nat) :=
  let (pgd, p) := s.pmm.pmmAllocPage
  if pgd = 0 then none
  else some ({ s with pmm := p, spaces := Function.update s.spaces pgd (some (Table.empty 3)) }, pgd)

def vmmDestroyAddressSpace (s : Machine) (pgd : Nat) : Machine :=
  match s.spaces pgd with
  | none => s
  | some t => { s with pmm := freeTableRecursive pgd t s.pmm, spaces := Function.update s.spaces pgd none }

def vmmCloneAddressSpace (s : Machine) (src : Nat) : Option (Machine × Nat) := do
  let t ← s.spaces src
  let (s, dst) ← s.vmmCreateAddressSpace
  let (t, dt, p) ← cloneTable 3 t s.pmm
  return ({ s with pmm := p, spaces := Function.update (Function.update s.spaces src (some t)) dst (some dt) },
    dst)

def vmmHandleCow (s : Machine) (pgd : Nat) (virt : U64) : Machine × Int :=
  match s.spaces pgd with
  | none => (s, -1)
  | some t =>
    if virt < userBase ∨ userEnd ≤ virt then (s, -1)
    else
      let pageVirt := pageAlignDown virt
      match t.leaf 3 pageVirt with
      | none => (s, -1)
      | some e =>
        if !e.swCow then (s, if e.apRo then -1 else 0)
        else if s.pmm.pmmPageGetRef e.addr ≤ 1 then
          (s.setSpace pgd (some (t.modify 3 pageVirt
            (Option.map fun e => { e with swCow := false, apRo := false }))), 0)
        else
          let (newPhys, p) := s.pmm.pmmAllocPage
          if newPhys = 0 then (s, -1)
          else
            ({ pmm := p.pmmFreePage e.addr
               mem := Function.update s.mem newPhys (s.mem e.addr)
               spaces := Function.update s.spaces pgd (some (t.modify 3 pageVirt
                 (Option.map fun e => { e with addr := newPhys, swCow := false, apRo := false }))) }, 0)

def mapZeroed (s : Machine) (pgd : Nat) (virt : U64) (flags : Flags) : Option (Machine × Int) :=
  match s.spaces pgd with
  | none => some (s, -1)
  | some t =>
    let (phys, p) := s.pmm.pmmAllocPage
    if phys = 0 then some (s, -1)
    else do
      let (t, p, rc) ← vmmMapUserPage t virt phys flags p
      return ({ pmm := if rc = 0 then p else p.pmmFreePage phys
                mem := Function.update s.mem phys 0
                spaces := Function.update s.spaces pgd (some t) }, rc)

def mapDevice (s : Machine) (pgd : Nat) (virt : U64) (phys : Nat) (flags : Flags) : Option (Machine × Int) :=
  match s.spaces pgd with
  | none => some (s, -1)
  | some t => do
    let (t, p, rc) ← vmmMapUserPage t virt phys { flags with dev := true } s.pmm
    return ({ s with pmm := p, spaces := Function.update s.spaces pgd (some t) }, rc)

def processUnmap (s : Machine) (pgd : Nat) (virt : U64) : Machine :=
  match s.spaces pgd with
  | none => s
  | some t =>
    let (t, phys) := vmmUnmapUserPage t virt
    { s with pmm := if phys = 0 then s.pmm else s.pmm.pmmFreePage phys
             spaces := Function.update s.spaces pgd (some t) }

def protToPte (write exec : Bool) : Flags := { write := write, nx := !exec }

def processProtect (s : Machine) (pgd : Nat) (virt : U64) (flags : Flags) : Machine × Int :=
  match s.spaces pgd with
  | none => (s, -1)
  | some t =>
    let (t, rc) := vmmProtectUserPage t virt flags
    (s.setSpace pgd (some t), rc)

def walk (s : Machine) (pgd : Nat) (virt : U64) : Option Desc :=
  if userBase ≤ virt ∧ virt < userEnd then (s.spaces pgd).bind fun t => t.leaf 3 virt else none

def setByte (s : Machine) (frame off : Nat) (b : U8) : Machine :=
  { s with mem := Function.update s.mem frame (Function.update (s.mem frame) off b) }

def storeByte (s : Machine) (pgd : Nat) (virt : U64) (b : U8) : Option Machine :=
  match s.walk pgd virt with
  | none => none
  | some e => if e.apUser && !e.apRo then some (s.setByte e.addr (virt.toNat % 4096) b) else none

/-- A store with its fault, which `vmm_handle_cow` may repair; then the CPU
tries once more. -/
def store (s : Machine) (pgd : Nat) (virt : U64) (b : U8) : Machine × Int :=
  match s.storeByte pgd virt b with
  | some s => (s, 0)
  | none =>
    let (s, rc) := s.vmmHandleCow pgd virt
    if rc = 0 then ((s.storeByte pgd virt b).getD s, 0) else (s, rc)

end Machine

end Sic.A64
