import Sic.Fs.Ext4

/-! The block bitmap that is made for a group which has none on the disk yet. -/

namespace Sic.Fs.Ext4

variable (fs : Ext4) (g : Nat)

def mark (bm : Nat → U8) (i : Nat) : Except Fault (Nat → U8) :=
  if i / 8 < fs.bs then .ok (setBit bm i) else .error .outside

def PointedTo (n i : Nat) : Prop :=
  ∃ o, o < fs.groups ∧
    (fs.gd64 o 0x00 0x20 = .ok (fs.groupFirst g + i) ∨ fs.gd64 o 0x04 0x24 = .ok (fs.groupFirst g + i) ∨
      ∃ it k, fs.gd64 o 0x08 0x28 = .ok it ∧ k < n ∧ (it + k) % 2 ^ 64 = fs.groupFirst g + i)

def tableBlocks : Nat := (fs.ipg * fs.inodeSize + fs.bs - 1) / fs.bs

def DescriptorsAt (i : Nat) : Prop := ∃ o, o < fs.groups ∧ fs.gdBlock o = .ok (fs.groupFirst g + i)

def Taken (i : Nat) : Prop :=
  fs.hasSuper g = true ∧ i = 0 ∨ fs.DescriptorsAt g i ∨ fs.PointedTo g fs.tableBlocks i ∨
    fs.blocks ≤ fs.groupFirst g + i

variable {fs : Ext4} {g : Nat}

end Sic.Fs.Ext4
