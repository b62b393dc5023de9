import Sic.Lib.Fields
import Sic.Lib.Run

/-! zaefs directories of any content: blocks of records, and the five routines that walk
over them. What the directory's blocks hold, and whether they read, is given. -/

namespace Sic.Fs

abbrev Block := Nat → U8

def zeroBlock : Block := fun _ => 0

abbrev EntName := List U8

/-- A record as it stands in its block: a free one has inode 0 and keeps its old name. -/
structure Rec where
  len : Nat
  ino : Nat
  name : EntName
  type : U8
deriving DecidableEq, Repr

def recAt (b : Block) (off : Nat) : Rec where
  ino := leGet b off 4
  len := leGet b (off + 4) 2
  name := (List.range (b (off + 6)).toNat).map fun k => b (off + 8 + k)
  type := b (off + 7)

/-- `ZAEFS_DIRENT_SIZE`: records are padded to 8 bytes. -/
def direntSize (n : Nat) : Nat := (8 + n + 7) / 8 * 8

def Rec.used (e : Rec) : Nat := if e.ino ≠ 0 then direntSize e.name.length else 0

def IsRec (b : Block) (off : Nat) : Prop := off + 8 ≤ 4096 ∧ 8 ≤ (recAt b off).len

instance (b : Block) (off : Nat) : Decidable (IsRec b off) := inferInstanceAs (Decidable (_ ∧ _))

theorem IsRec.lt {b : Block} {off : Nat} (h : IsRec b off) : 4096 - (off + (recAt b off).len) < 4096 - off := by
  have := h.1
  have := h.2
  omega

def putEntry (b : Block) (off ino : Nat) (name : EntName) (type : U8) : Block :=
  let b := lePut b off 4 ino
  let b := Function.update b (off + 6) (BitVec.ofNat 8 name.length)
  let b := Function.update b (off + 7) type
  fun k => if off + 8 ≤ k ∧ k < off + 8 + name.length then name.getD (k - (off + 8)) 0 else b k

/-- `rec_len - used`, in 32 bits without a sign. -/
def Rec.left (e : Rec) : Nat := (e.len + 2 ^ 32 - e.used) % 2 ^ 32

end Sic.Fs
