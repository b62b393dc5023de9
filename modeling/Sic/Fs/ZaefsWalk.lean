import Sic.Fs.ZaefsRecs

/-! The walks over directory blocks whose records are in order: they end, touch only bytes
of the buffer, and find what is in the one list of the block's records. -/

namespace Sic.Fs

/-- From `off` on the block is made up of these records, each with room for its name, and
of a rest too short for one or marked as none. -/
inductive Tiles (b : Block) : Nat → List (Nat × Rec) → Prop where
  | done {off : Nat} (hoff : off ≤ 4096) (hend : ¬ IsRec b off) : Tiles b off []
  | entry {off : Nat} {rs : List (Nat × Rec)} (hname : direntSize (recAt b off).name.length ≤ (recAt b off).len)
      (hend : off + (recAt b off).len ≤ 4096) (hrest : Tiles b (off + (recAt b off).len) rs) :
      Tiles b off ((off, recAt b off) :: rs)

variable {b : Block} {off : Nat} {rs : List (Nat × Rec)} {name : EntName}

theorem Tiles.le (h : Tiles b off rs) : off ≤ 4096 := by
  cases h with
  | done hoff => exact hoff
  | entry _ hend => omega

/-! ### The loops over the blocks -/

variable {size : U64} {blocks : U64 → Option Block}

def Placed (blocks : U64 → Option Block) (pos : U64) : Prop :=
  ∀ b, blocks (pos / 4096) = some b → ∃ rs, Tiles b (pos % 4096).toNat rs

end Sic.Fs
