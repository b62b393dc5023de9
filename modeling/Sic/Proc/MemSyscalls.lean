import Sic.Arch.X86Mmu

/-! The memory system calls of `kernel/proc/syscall.c` over the mapping helpers
of `kernel/proc/elf.c`. A missing result means that the kernel ran out of
frames for page tables and halted. -/

namespace Sic.X86

abbrev protWrite : U64 := 2#64

abbrev protExec : U64 := 4#64

abbrev mapShared : U64 := 0x01#64

abbrev mapFixed : U64 := 0x10#64

abbrev mapAnonymous : U64 := 0x20#64

abbrev mremapMaymove : U64 := 1#64

abbrev mremapFixed : U64 := 2#64

abbrev oAccmode : U64 := 3#64

abbrev oRdwr : U64 := 2#64

abbrev ebadf : Int := 9
abbrev enomem : Int := 12
abbrev eacces : Int := 13
abbrev efault : Int := 14
abbrev enodev : Int := 19
abbrev einval : Int := 22

def hasBit (x m : U64) : Bool := x &&& m != 0

def maxFds : Int := 64

/-- A driver's `mmap`: given pages, offset and protection it refuses with an
error or names the frame of each page and the flags to map them with. -/
abbrev DevMmap := U64 → U64 → U64 → Except Int ((Nat → Nat) × Flags)

inductive Vnode where
  | file (ino : Nat)
  | dev (mmap : Option DevMmap)
  | other

structure File where
  node : Vnode
  flags : U64

structure MmShared where
  virt : U64
  pages : Nat
  file : File
  off : U64

structure Mm where
  pgd : Pml4
  brkStart : U64
  brkEnd : U64
  mmapNext : U64
  shared : List MmShared

/-- What a memory system call of the current task works on. `heapRoom` is the
kernel heap's answer to the one small allocation `sys_mmap` makes. -/
structure Vm where
  mm : Mm
  pmm : Pmm
  files : Int → Option File
  heapRoom : Bool

def Vm.withPgd (s : Vm) (t : Pml4) (p : Pmm) : Vm :=
  { s with mm := { s.mm with pgd := t }, pmm := p }

def Vm.withMmapNext (s : Vm) (next : U64) : Vm :=
  { s with mm := { s.mm with mmapNext := next } }

def fdGet (s : Vm) (fd : Int) : Option File :=
  if fd < 0 ∨ maxFds ≤ fd then none else s.files fd

/-! ### Address-space helpers -/

def mapZeroed (t : Pml4) (p : Pmm) (virt : U64) (flags : Flags) : Nat → MapResult 3
  | 0 => some (t, p, 0)
  | n + 1 =>
    let (phys, p) := p.pmmAllocPage
    if phys = 0 then some (t, p, -1)
    else do
      let (t, p, rc) ← vmmMapUserPage t virt phys flags p
      if rc = -2 then mapZeroed t (p.pmmFreePage phys) (virt + 4096#64) flags n
      else if rc ≠ 0 then return (t, p.pmmFreePage phys, -1)
      else mapZeroed t p (virt + 4096#64) flags n

def protToPte (prot : U64) : Flags :=
  { write := hasBit prot protWrite, nx := !hasBit prot protExec }

def processMapAnon (t : Pml4) (p : Pmm) (virt : U64) (pages : Nat) (prot : U64) : MapResult 3 :=
  mapZeroed t p virt (protToPte prot) pages

def processProtect (t : Pml4) (virt : U64) (prot : U64) : Nat → Pml4 × Int
  | 0 => (t, 0)
  | n + 1 =>
    let (t, rc) := vmmProtectUserPage t virt (protToPte prot)
    if rc ≠ 0 then (t, -1) else processProtect t (virt + 4096#64) prot n

def processUnmap (t : Pml4) (p : Pmm) (virt : U64) : Nat → Pml4 × Pmm
  | 0 => (t, p)
  | n + 1 =>
    let (t, phys) := vmmUnmapUserPage t virt
    processUnmap t (if phys = 0 then p else p.pmmFreePage phys) (virt + 4096#64) n

def mapFrames (t : Pml4) (p : Pmm) (virt : U64) (frame : Nat → Nat) (flags : Flags) (i : Nat) :
    Nat → MapResult 3
  | 0 => some (t, p, 0)
  | n + 1 => do
    let (t, p, rc) ← vmmMapUserPage t virt (frame i) flags p
    if rc ≠ 0 then return (t, p, -enomem)
    else mapFrames t p (virt + 4096#64) frame flags (i + 1) n

def devMmap (m : DevMmap) (t : Pml4) (p : Pmm) (virt : U64) (pages : Nat) (off prot : U64) :
    MapResult 3 :=
  match m (BitVec.ofNat 64 pages) off prot with
  | .error e => some (t, p, -e)
  | .ok (frame, flags) => mapFrames t p virt frame flags 0 pages

def mapFile (t : Pml4) (p : Pmm) (virt : U64) (pages : Nat) (f : File) (prot : U64) : MapResult 3 :=
  match f.node with
  | .file _ => do
    let (t, p, rc) ← processMapAnon t p virt pages (1#64 ||| protWrite)
    if rc ≠ 0 then return (t, p, -enomem)
    else return ((processProtect t virt prot pages).1, p, 0)
  | _ => some (t, p, -eacces)

/-! ### The calls -/

/-- Where `sys_mmap` puts the mapping: at `addr`, replacing what is there, or at
the bump pointer. -/
def mmapPlace (s : Vm) (addr span flags : U64) : Except Int (Vm × U64) :=
  let limit := userStackTop - userStackMax - 4096#64
  if hasBit flags mapFixed then
    let stop := addr + span
    if addr < userBase ∨ stop < addr ∨ limit < stop then .error (-enomem)
    else
      let (t, p) := processUnmap s.mm.pgd s.pmm addr (span.toNat / 4096)
      let s := s.withPgd t p
      if userMmapBase ≤ addr ∧ s.mm.mmapNext < stop + 4096#64 then
        .ok (s.withMmapNext (stop + 4096#64), addr)
      else .ok (s, addr)
  else
    let virt := s.mm.mmapNext
    if limit < virt + span then .error (-enomem)
    else .ok (s.withMmapNext (virt + span + 4096#64), virt)

def mmapFill (s : Vm) (virt : U64) (pages : Nat) (f : Option File) (prot flags off : U64) :
    Option (Vm × Int) :=
  match f with
  | none => do
    let (t, p, rc) ← processMapAnon s.mm.pgd s.pmm virt pages prot
    return (s.withPgd t p, if rc ≠ 0 then -enomem else 0)
  | some f =>
    match f.node with
    | .dev (some m) => do
      let (t, p, rc) ← devMmap m s.mm.pgd s.pmm virt pages off prot
      return (s.withPgd t p, rc)
    | _ => do
      let (t, p, rc) ← mapFile s.mm.pgd s.pmm virt pages f prot
      let s := s.withPgd t p
      if rc = 0 ∧ hasBit flags mapShared ∧ hasBit prot protWrite then
        if s.heapRoom then
          return ({ s with mm := { s.mm with shared := ⟨virt, pages, f, off⟩ :: s.mm.shared } }, 0)
        else return (s, -enomem)
      else return (s, rc)

def mmapFile (s : Vm) (prot flags fd : U64) : Except Int (Option File) :=
  if hasBit flags mapAnonymous then .ok none
  else
    match fdGet s fd.toInt with
    | none => .error (-ebadf)
    | some f =>
      match f.node with
      | .dev (some _) => .ok (some f)
      | .dev none => .error (-enodev)
      | _ =>
        if hasBit flags mapShared ∧ hasBit prot protWrite ∧ f.flags &&& oAccmode ≠ oRdwr then
          .error (-eacces)
        else .ok (some f)

def sysMmap (s : Vm) (addr len prot flags fd off : U64) : Option (Vm × Int) :=
  if len = 0 then some (s, -einval)
  else if hasBit off 0xFFF#64 then some (s, -einval)
  else if hasBit flags mapFixed ∧ hasBit addr 0xFFF#64 then some (s, -einval)
  else
    match mmapFile s prot flags fd with
    | .error e => some (s, e)
    | .ok f =>
      match mmapPlace s addr (pageAlignUp len) flags with
      | .error e => some (s, e)
      | .ok (s, virt) => do
        let pages := (pageAlignUp len).toNat / 4096
        let (s, rc) ← mmapFill s virt pages f prot flags off
        if rc ≠ 0 then
          let (t, p) := processUnmap s.mm.pgd s.pmm virt pages
          return (s.withPgd t p, rc)
        else return (s, virt.toInt)

def sysMprotect (s : Vm) (addr len prot : U64) : Vm × Int :=
  if hasBit addr 0xFFF#64 then (s, -einval)
  else if addr < userBase ∨ userEnd < addr + len then (s, -enomem)
  else
    let (t, rc) := processProtect s.mm.pgd addr prot ((pageAlignUp len).toNat / 4096)
    (s.withPgd t s.pmm, if rc ≠ 0 then -enomem else 0)

def mmSharedForget (shared : List MmShared) (addr len : U64) : List MmShared :=
  shared.filter fun sh =>
    let stop := sh.virt + BitVec.ofNat 64 (sh.pages * 4096)
    !(decide (addr < stop ∧ sh.virt < addr + len ∧ addr ≤ sh.virt ∧ stop ≤ addr + len))

def sysMunmap (s : Vm) (addr len : U64) : Vm × Int :=
  if hasBit addr 0xFFF#64 ∨ len = 0 then (s, -einval)
  else if addr < userBase ∨ userEnd < addr + len then (s, -einval)
  else
    let s := { s with mm := { s.mm with shared := mmSharedForget s.mm.shared addr (pageAlignUp len) } }
    let (t, p) := processUnmap s.mm.pgd s.pmm addr ((pageAlignUp len).toNat / 4096)
    (s.withPgd t p, 0)

def userPageMapped (t : Pml4) (page : U64) : Bool :=
  if userStackTop - userStackMax ≤ page ∧ page < userStackTop then true
  else vmmTranslateIn t page != 0

def allPages (test : U64 → Bool) (virt : U64) : Nat → Bool
  | 0 => true
  | n + 1 => test virt && allPages test (virt + 4096#64) n

def pageCount (start stop : U64) : Nat := (stop.toNat - start.toNat) / 4096

def sysMremap (s : Vm) (old oldLen newLen flags : U64) : Option (Vm × Int) :=
  if hasBit old 0xFFF#64 ∨ newLen = 0 ∨ hasBit flags (~~~(mremapMaymove ||| mremapFixed)) then
    some (s, -einval)
  else if hasBit flags mremapFixed then some (s, -einval)
  else
    let oldLen := pageAlignUp oldLen
    let newLen := pageAlignUp newLen
    let turns := pageCount old (old + oldLen)
    if old < userBase ∨ userEnd - old < oldLen ∨ oldLen = 0 then some (s, -efault)
    else if allPages (userPageMapped s.mm.pgd) old turns = false then some (s, -efault)
    else if newLen ≤ oldLen then
      if newLen < oldLen then
        let (t, p) := processUnmap s.mm.pgd s.pmm (old + newLen) ((oldLen - newLen).toNat / 4096)
        some (s.withPgd t p, old.toInt)
      else some (s, old.toInt)
    else if !hasBit flags mremapMaymove then some (s, -enomem)
    else if userStackTop - userStackMax ≤ old then some (s, -enomem)
    else if allPages (fun p => vmmTranslateIn s.mm.pgd p != 0) old turns = false then
      some (s, -efault)
    else do
      -- MAP_PRIVATE | MAP_ANONYMOUS, readable and writable
      let (s, nw) ← sysMmap s 0 newLen (1#64 ||| protWrite) (2#64 ||| mapAnonymous) (-1) 0
      if nw < 0 then return (s, nw)
      else return ((sysMunmap s old oldLen).1, nw)

def sysBrk (s : Vm) (addr : U64) : Option (Vm × Int) :=
  let ret := s.mm.brkEnd.toInt
  if addr = 0 ∨ addr < s.mm.brkStart then some (s, ret)
  else
    let old := pageAlignUp s.mm.brkEnd
    let new := pageAlignUp addr
    let grown (s : Vm) : Vm × Int := ({ s with mm := { s.mm with brkEnd := addr } }, addr.toInt)
    if userMmapBase ≤ new then some (s, ret)
    else if old < new then do
      let pages := (new - old).toNat / 4096
      let (t, p, rc) ← processMapAnon s.mm.pgd s.pmm old pages (1#64 ||| protWrite)
      if rc ≠ 0 then
        let (t, p) := processUnmap t p old pages
        return (s.withPgd t p, ret)
      else return grown (s.withPgd t p)
    else if new < old then
      let (t, p) := processUnmap s.mm.pgd s.pmm new ((old - new).toNat / 4096)
      some (grown (s.withPgd t p))
    else some (grown s)

end Sic.X86
