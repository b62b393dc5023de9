import Sic.Lib.Fields
import Sic.Lib.WriteBack

/-! A FAT volume: its table behind a cache of one sector, and the chains of clusters in it. The device
does not fail. -/

namespace Sic.Fs.Fat

abbrev Sector := Nat → U8

inductive Kind where
  | fat12
  | fat16
  | fat32
  deriving DecidableEq

structure Geo where
  kind : Kind
  sectorSize : Nat
  sectorsPerCluster : Nat
  fatStart : Nat
  fatSectors : Nat
  fats : Nat
  rootStart : Nat
  rootSectors : Nat
  rootCluster : Nat
  dataStart : Nat
  clusters : Nat

/-- What changes: the device with `fat_cache` (`line`, `key`, `dirty`), and the flags. -/
structure State where
  io : WriteBack Nat Sector
  batch : Bool
  noZero : Bool
  nextFree : Nat

structure Fnode where
  cluster : Nat
  direntSector : Nat
  direntOff : Nat
  fixedRoot : Bool
  hintIdx : Nat
  hintCluster : Nat

variable (g : Geo)

def Geo.clusterSize : Nat := g.sectorsPerCluster * g.sectorSize

def Geo.eoc : Nat :=
  match g.kind with
  | .fat12 => 0xFFF
  | .fat16 => 0xFFFF
  | .fat32 => 0x0FFFFFFF

def readSector (s : State) (sector : Nat) : Sector := s.io.dev sector

def writeSectors (s : State) (lba k : Nat) (buf : Nat → Sector) : State :=
  { s with io := { s.io with dev := fun a => if lba ≤ a ∧ a < lba + k then buf (a - lba) else s.io.dev a } }

def clusterSector (cluster : Nat) : Nat :=
  (g.dataStart + (cluster + 2 ^ 32 - 2) % 2 ^ 32 * g.sectorsPerCluster) % 2 ^ 32

def copies (sector : Nat) : List Nat :=
  (List.range g.fats).map fun i => (sector + i * g.fatSectors) % 2 ^ 32

def fatSectorLoad (s : State) (sector : Nat) : State := { s with io := s.io.load (copies g) sector }

def fatSectorStore (s : State) : State := { s with io := s.io.store (copies g) }

def batchBegin (s : State) : State := { s with batch := true }

def batchEnd (s : State) : State := { s with batch := false, io := s.io.flush (copies g) }

def width : Kind → Nat
  | .fat12 => 2
  | .fat16 => 2
  | .fat32 => 4

def entryOff (k : Kind) (cluster : Nat) : Nat :=
  match k with
  | .fat12 => cluster + cluster / 2
  | .fat16 => cluster * 2
  | .fat32 => cluster * 4

def decode (k : Kind) (cluster raw : Nat) : Nat :=
  match k with
  | .fat12 =>
    let v := if cluster % 2 = 1 then raw / 16 else raw % 4096
    if 0xFF8 ≤ v then 0x0FFFFFFF else v
  | .fat16 => if 0xFFF8 ≤ raw then 0x0FFFFFFF else raw
  | .fat32 =>
    let v := raw % 2 ^ 28
    if 0x0FFFFFF8 ≤ v then 0x0FFFFFFF else v

def encode (k : Kind) (cluster old value : Nat) : Nat :=
  match k with
  | .fat12 =>
    if cluster % 2 = 1 then old % 16 + value % 4096 * 16 else old / 4096 * 4096 + value % 4096
  | .fat16 => value % 65536
  | .fat32 => old / 2 ^ 28 * 2 ^ 28 + value % 2 ^ 28

def sectorOf (cluster : Nat) : Nat :=
  (g.fatStart + entryOff g.kind cluster % 2 ^ 32 / g.sectorSize) % 2 ^ 32

def indexOf (cluster : Nat) : Nat := entryOff g.kind cluster % 2 ^ 32 % g.sectorSize

def Straddles (cluster : Nat) : Prop := g.kind = .fat12 ∧ g.sectorSize ≤ indexOf g cluster + 1

instance (cluster : Nat) : Decidable (Straddles g cluster) :=
  inferInstanceAs (Decidable (g.kind = .fat12 ∧ g.sectorSize ≤ indexOf g cluster + 1))

def fatGet (s : State) (cluster : Nat) : State × Nat :=
  let s := fatSectorLoad g s (sectorOf g cluster)
  let raw :=
    if Straddles g cluster then
      (s.io.line (indexOf g cluster)).toNat +
        256 * (readSector s ((sectorOf g cluster + 1) % 2 ^ 32) 0).toNat
    else leGet s.io.line (indexOf g cluster) (width g.kind)
  (s, decode g.kind cluster raw)

def putEntry (cluster value : Nat) (b : Sector) : Sector :=
  let i := indexOf g cluster
  let w := width g.kind
  lePut b i w (encode g.kind cluster (leGet b i w) value)

def fatSet (s : State) (cluster value : Nat) : State × Bool :=
  let s := fatSectorLoad g s (sectorOf g cluster)
  if Straddles g cluster then (s, false)
  else
    let s := { s with io := s.io.modify (putEntry g cluster value) }
    if s.batch then (s, true) else (fatSectorStore g s, true)

def isEoc (v : Nat) : Prop := 0x0FFFFFF8 ≤ v

instance (v : Nat) : Decidable (isEoc v) := inferInstanceAs (Decidable (0x0FFFFFF8 ≤ v))

def allocLoop : Nat → Nat → State → State × Nat
  | 0, _, s => (s, 0)
  | left + 1, n, s =>
    let c := (2 + (s.nextFree + 2 ^ 32 - 2 + n) % 2 ^ 32 % g.clusters) % 2 ^ 32
    let (s, v) := fatGet g s c
    if v = 0 then
      let (s, ok) := fatSet g s c g.eoc
      if ok then
        let s := { s with nextFree := (c + 1) % 2 ^ 32 }
        (if s.noZero then s else writeSectors s (clusterSector g c) g.sectorsPerCluster fun _ _ => 0, c)
      else (s, 0)
    else allocLoop left (n + 1) s

def allocCluster (s : State) : State × Nat := allocLoop g g.clusters 0 s

/-- `none` if the loop has not ended after `fuel` rounds. -/
def freeChain : Nat → State → Nat → Option State
  | 0, s, c => if 2 ≤ c ∧ ¬ isEoc c then none else some s
  | fuel + 1, s, c =>
    if 2 ≤ c ∧ ¬ isEoc c then
      let (s, next) := fatGet g s c
      let s := (fatSet g s c 0).1
      let s := if c < s.nextFree then { s with nextFree := c } else s
      freeChain fuel s next
    else some s

def walkLoop (alloc : Bool) : Nat → State → Nat → State × Nat
  | 0, s, c => (s, c)
  | i + 1, s, c =>
    let (s, next) := fatGet g s c
    if isEoc next ∨ next < 2 then
      if alloc then
        let (s, next) := allocCluster g s
        if next = 0 then (s, 0) else walkLoop alloc i (fatSet g s c next).1 next
      else (s, 0)
    else walkLoop alloc i s next

def chainWalk (s : State) (first idx : Nat) (alloc : Bool) : State × Nat × Nat :=
  let (s, c) := if first = 0 then if alloc then allocCluster g s else (s, 0) else (s, first)
  if c = 0 then (s, 0, first)
  else
    let (s, c') := walkLoop g alloc idx s c
    (s, c', c)

def chainAt (s : State) (fn : Fnode) (idx : Nat) (alloc : Bool) : State × Fnode × Nat :=
  let (s, c, first) :=
    if fn.hintCluster ≠ 0 ∧ fn.cluster ≠ 0 ∧ fn.hintIdx ≤ idx then
      let (s, c, _) := chainWalk g s fn.hintCluster (idx - fn.hintIdx) alloc
      (s, c, fn.cluster)
    else chainWalk g s fn.cluster idx alloc
  let fn := { fn with cluster := first }
  (s, if c ≠ 0 then { fn with hintIdx := idx, hintCluster := c } else fn, c)

end Sic.Fs.Fat
