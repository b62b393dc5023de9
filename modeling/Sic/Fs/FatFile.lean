import Sic.Fs.Fat
import Sic.Lib.Bytes

/-! Reading, writing and truncating a file of a FAT volume. -/

namespace Sic.Fs.Fat

structure Vnode where
  fn : Fnode
  size : Nat
  dir : Bool

variable (g : Geo)

def sectorAt (c p : Nat) : Nat := (clusterSector g c + p % g.clusterSize / g.sectorSize) % 2 ^ 32

def inSector (p : Nat) : Nat := p % g.clusterSize % g.sectorSize

def wholeSectors (p left : Nat) : Nat :=
  if inSector g p ≠ 0 then 0
  else min ((g.clusterSize - p % g.clusterSize) / g.sectorSize) (left / g.sectorSize)

def chunk (p left : Nat) : Nat := min (g.sectorSize - inSector g p) left

def moved (p left : Nat) : Nat :=
  if wholeSectors g p left ≠ 0 then wholeSectors g p left * g.sectorSize else chunk g p left

def readAt (s : State) (c p left : Nat) : Bytes :=
  if wholeSectors g p left ≠ 0 then
    (List.range (wholeSectors g p left * g.sectorSize)).map fun j =>
      s.io.dev (sectorAt g c p + j / g.sectorSize) (j % g.sectorSize)
  else (List.range (chunk g p left)).map fun j => readSector s (sectorAt g c p) (inSector g p + j)

def writeAt (s : State) (c p left : Nat) (data : Nat → U8) : State :=
  if wholeSectors g p left ≠ 0 then
    writeSectors s (sectorAt g c p) (wholeSectors g p left) fun k j => data (k * g.sectorSize + j)
  else
    writeSectors s (sectorAt g c p) 1 fun _ j =>
      if inSector g p ≤ j ∧ j < inSector g p + chunk g p left then data (j - inSector g p)
      else readSector s (sectorAt g c p) j

def readLoop (pos len : Nat) : Nat → State → Fnode → Nat → State × Fnode × Bytes
  | 0, s, fn, _ => (s, fn, [])
  | fuel + 1, s, fn, done =>
    if done < len then
      let p := (pos + done) % 2 ^ 64
      let (s, fn, c) := chainAt g s fn (p / g.clusterSize % 2 ^ 32) false
      if c = 0 then (s, fn, [])
      else
        let (s', fn, rest) := readLoop pos len fuel s fn (done + moved g p (len - done))
        (s', fn, readAt g s c p (len - done) ++ rest)
    else (s, fn, [])

def fills (p left : Nat) : Bool := decide (p % g.clusterSize = 0 ∧ g.clusterSize ≤ left)

def writeLookup (pos : Nat) (buf : Bytes) (s : State) (fn : Fnode) (done : Nat) : State × Fnode × Nat :=
  let p := (pos + done) % 2 ^ 64
  let s := { s with noZero := fills g p (buf.length - done) }
  let (s, fn, c) := chainAt g s fn (p / g.clusterSize % 2 ^ 32) true
  ({ s with noZero := false }, fn, c)

def writeLoop (pos : Nat) (buf : Bytes) : Nat → State → Fnode → Nat → State × Fnode × Nat
  | 0, s, fn, done => (s, fn, done)
  | fuel + 1, s, fn, done =>
    if done < buf.length then
      let p := (pos + done) % 2 ^ 64
      let left := buf.length - done
      let (s, fn, c) := writeLookup g pos buf s fn done
      if c = 0 then (s, fn, done)
      else
        writeLoop pos buf fuel (writeAt g s c p left fun j => buf.getD (done + j) 0) fn (done + moved g p left)
    else (s, fn, done)

def writeDirent (s : State) (n : Vnode) : State :=
  if n.fn.direntSector = 0 then s
  else
    let off := n.fn.direntOff
    let b := readSector s n.fn.direntSector
    let b := lePut b (off + 28) 4 (if n.dir then 0 else n.size % 2 ^ 32)
    let b := lePut b (off + 20) 2 (n.fn.cluster / 65536 % 65536)
    let b := lePut b (off + 26) 2 (n.fn.cluster % 65536)
    writeSectors s n.fn.direntSector 1 fun _ => b

def fatWrite (s : State) (n : Vnode) (pos : Nat) (buf : Bytes) : State × Vnode × Int :=
  let (s, fn, done) := writeLoop g pos buf buf.length (batchBegin s) n.fn 0
  let s := batchEnd g s
  let n := { n with fn, size := if n.size < (pos + done) % 2 ^ 64 then (pos + done) % 2 ^ 64 else n.size }
  (writeDirent s n, n, if done ≠ 0 then done else if buf.length ≠ 0 then -1 else 0)

/-- `none` if the chain is not freed after `fuel` rounds. -/
def fatTruncate (fuel : Nat) (s : State) (n : Vnode) (size : Nat) : Option (State × Vnode × Int) :=
  if size ≠ 0 then some (s, n, -1)
  else
    (freeChain g fuel s n.fn.cluster).map fun s =>
      let n := { n with fn := { n.fn with cluster := 0, hintCluster := 0 }, size := 0 }
      (writeDirent s n, n, 0)

end Sic.Fs.Fat
