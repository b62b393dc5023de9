import Sic.Lib.Word

/-! Byte strings: fields at fixed offsets, and the order of `memcmp`. -/

namespace Sic

abbrev Bytes := List U8

namespace Bytes

def zeros (n : Nat) : Bytes := List.replicate n 0

def byte (b : Bytes) (i : Nat) : U8 := b.getD i 0

def slice (b : Bytes) (off n : Nat) : Bytes := (b.drop off).take n

def be16 (b : Bytes) (i : Nat) : Nat := (b.byte i).toNat * 256 + (b.byte (i + 1)).toNat

def le16 (b : Bytes) (i : Nat) : Nat := (b.byte i).toNat + (b.byte (i + 1)).toNat * 256

def clear (b : Bytes) (off n : Nat) : Bytes := b.mapIdx fun i x => if off ≤ i ∧ i < off + n then 0 else x

def memLt : Bytes → Bytes → Bool
  | x :: xs, y :: ys => if x = y then memLt xs ys else x.toNat < y.toNat
  | _, _ => false

def value : Bytes → Nat
  | [] => 0
  | x :: xs => x.toNat * 256 ^ xs.length + value xs

theorem value_lt (b : Bytes) : b.value < 256 ^ b.length := by
  induction b with
  | nil => exact Nat.one_pos
  | cons x b ih =>
    have hx : x.toNat + 1 ≤ 256 := x.isLt
    calc x.toNat * 256 ^ b.length + value b < x.toNat * 256 ^ b.length + 256 ^ b.length :=
      Nat.add_lt_add_left ih _
      _ = (x.toNat + 1) * 256 ^ b.length := (Nat.succ_mul _ _).symm
      _ ≤ 256 * 256 ^ b.length := Nat.mul_le_mul_right _ hx
      _ = 256 ^ (b.length + 1) := (Nat.pow_succ' ..).symm

theorem memLt_iff_value {a b : Bytes} (h : a.length = b.length) : memLt a b = true ↔ a.value < b.value := by
  induction a generalizing b with
  | nil =>
    cases List.length_eq_zero_iff.mp h.symm
    simp [memLt]
  | cons x a ih =>
    cases b with
    | nil => cases h
    | cons y b =>
      have hlen : a.length = b.length := Nat.succ.inj h
      rw [memLt, value, value, hlen]
      split
      · next he =>
        subst he
        rw [ih hlen]
        omega
      · next hne =>
        have hne : x.toNat ≠ y.toNat := fun he => hne (BitVec.eq_of_toNat_eq he)
        have ha := value_lt a
        have hb := value_lt b
        rw [hlen] at ha
        rw [decide_eq_true_eq]
        have hstep {u v : Nat} (huv : u < v) : u * 256 ^ b.length + 256 ^ b.length ≤ v * 256 ^ b.length := by
          rw [← Nat.succ_mul]
          exact Nat.mul_le_mul_right _ huv
        rcases Nat.lt_or_gt_of_ne hne with hlt | hlt
        · have := hstep hlt
          omega
        · have := hstep hlt
          omega

theorem memLt_eq_false_iff {a b : Bytes} (h : a.length = b.length) : memLt a b = false ↔ b.value ≤ a.value := by
  rw [Bool.eq_false_iff, ne_eq, memLt_iff_value h, Nat.not_lt]

theorem length_slice {b : Bytes} {off n : Nat} (h : off + n ≤ b.length) : (b.slice off n).length = n := by
  rw [slice, List.length_take, List.length_drop]
  omega

theorem slice_append (a b c : Bytes) : slice (a ++ b ++ c) a.length b.length = b := by
  simp [slice]

theorem clear_append (a b c : Bytes) : clear (a ++ b ++ c) a.length b.length = a ++ zeros b.length ++ c := by
  refine List.ext_getElem (by simp [clear, zeros]) fun i h₁ h₂ => ?_
  simp only [clear, List.getElem_mapIdx, List.getElem_append, List.length_append, zeros,
    List.length_replicate]
  by_cases ha : i < a.length
  · rw [if_neg (by omega), dif_pos (by omega), dif_pos ha, dif_pos (by omega), dif_pos ha]
  by_cases hb : i < a.length + b.length
  · rw [if_pos ⟨by omega, hb⟩, dif_pos hb, dif_neg ha, List.getElem_replicate]
  · rw [if_neg (by omega), dif_neg hb, dif_neg hb]

end Bytes

end Sic
