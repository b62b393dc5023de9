import Sic.Lib.Word

/-! Serial numbers: 32-bit positions in a stream, compared by the sign of their
difference. Positions less than half the space apart compare as themselves. -/

namespace Sic

def seqLt (a b : U32) : Bool := decide ((a - b).toInt < 0)

def seqLeq (a b : U32) : Bool := decide ((a - b).toInt ≤ 0)

def seqGt (a b : U32) : Bool := decide (0 < (a - b).toInt)

def seqGeq (a b : U32) : Bool := decide (0 ≤ (a - b).toInt)

theorem seqLt_iff {a b : U32} : seqLt a b = true ↔ 2 ^ 31 ≤ (a - b).toNat := by
  have h := (a - b).isLt
  rw [seqLt, decide_eq_true_eq, BitVec.toInt_eq_toNat_cond]
  split <;> omega

theorem seqLeq_iff {a b : U32} : seqLeq a b = true ↔ (a - b).toNat = 0 ∨ 2 ^ 31 ≤ (a - b).toNat := by
  have h := (a - b).isLt
  rw [seqLeq, decide_eq_true_eq, BitVec.toInt_eq_toNat_cond]
  split <;> omega

theorem seqGt_iff {a b : U32} :
    seqGt a b = true ↔ 0 < (a - b).toNat ∧ (a - b).toNat < 2 ^ 31 := by
  have h := (a - b).isLt
  rw [seqGt, decide_eq_true_eq, BitVec.toInt_eq_toNat_cond]
  split <;> omega

def seqAt (b : U32) (x : Nat) : U32 := b + BitVec.ofNat 32 x

def Near (x y : Nat) : Prop := x < y + 2 ^ 31 ∧ y < x + 2 ^ 31

theorem seqLt_seqAt {b : U32} {x y : Nat} (h : Near x y) :
    seqLt (seqAt b x) (seqAt b y) = true ↔ x < y := by
  unfold Near at h
  rw [seqLt_iff]
  unfold seqAt
  bv_omega

theorem seqAt_add (b : U32) (x n : Nat) : seqAt b x + BitVec.ofNat 32 n = seqAt b (x + n) := by
  unfold seqAt
  rw [BitVec.ofNat_add, BitVec.add_assoc]

end Sic
