import Mathlib.Tactic.Ring
import Sic.Lib.Word

/-! Numbers as lists of 32-bit words, the low word first, and the loops that add, subtract and multiply them
with a carry in a 64-bit word. -/

namespace Sic.Limbs

def value : List U32 → Nat
  | [] => 0
  | x :: xs => x.toNat + 2 ^ 32 * value xs

theorem value_lt (xs : List U32) : value xs < 2 ^ (32 * xs.length) := by
  induction xs with
  | nil => exact Nat.one_pos
  | cons x xs ih =>
    have hx := x.isLt
    rw [value, List.length_cons, Nat.mul_succ, Nat.add_comm (32 * _), Nat.pow_add]
    generalize 2 ^ (32 * xs.length) = b at ih ⊢
    omega

theorem value_append (xs ys : List U32) : value (xs ++ ys) = value xs + 2 ^ (32 * xs.length) * value ys := by
  induction xs with
  | nil => simp [value]
  | cons x xs ih =>
    rw [List.cons_append, value, value, ih, List.length_cons, Nat.mul_succ, Nat.pow_add]
    ring

theorem toNat_low (s : U64) : (s.setWidth 32 : U32).toNat = s.toNat % 2 ^ 32 := BitVec.toNat_setWidth ..

theorem toNat_high (s : U64) : (s >>> 32).toNat = s.toNat / 2 ^ 32 := by
  rw [BitVec.toNat_ushiftRight, Nat.shiftRight_eq_div_pow]

theorem toNat_wide (x : U32) : (x.setWidth 64 : U64).toNat = x.toNat := by
  rw [BitVec.toNat_setWidth]
  exact Nat.mod_eq_of_lt (x.isLt.trans (by decide))

/-! ### The loops -/

def addLoop : List U32 → List U32 → U64 → List U32 × U64
  | a :: as, b :: bs, c =>
    let s := a.setWidth 64 + b.setWidth 64 + c
    let (r, c) := addLoop as bs (s >>> 32)
    (s.setWidth 32 :: r, c)
  | _, _, c => ([], c)

def subLoop : List U32 → List U32 → U64 → List U32 × U64
  | a :: as, b :: bs, c =>
    let d := a.setWidth 64 - b.setWidth 64 - c
    let (r, c) := subLoop as bs (if d.msb then 1 else 0)
    (d.setWidth 32 :: r, c)
  | _, _, c => ([], c)

def mulAddLoop (m : U32) : List U32 → List U32 → U64 → List U32 × U64
  | a :: as, t :: ts, c =>
    let s := a.setWidth 64 * m.setWidth 64 + t.setWidth 64 + c
    let (r, c) := mulAddLoop m as ts (s >>> 32)
    (s.setWidth 32 :: r, c)
  | _, _, c => ([], c)

theorem addLoop_spec {as bs : List U32} (hlen : as.length = bs.length) {c : U64} (hc : c.toNat ≤ 1) :
    (addLoop as bs c).1.length = as.length ∧ (addLoop as bs c).2.toNat ≤ 1 ∧
      value (addLoop as bs c).1 + 2 ^ (32 * as.length) * (addLoop as bs c).2.toNat =
        value as + value bs + c.toNat := by
  induction as generalizing bs c with
  | nil => simpa [addLoop, value, List.length_eq_zero_iff.mp hlen.symm] using hc
  | cons a as ih =>
    cases bs with
    | nil => cases hlen
    | cons b bs =>
      have ha := a.isLt
      have hb := b.isLt
      rw [addLoop]
      have hs : (a.setWidth 64 + b.setWidth 64 + c).toNat = a.toNat + b.toNat + c.toNat := by
        rw [BitVec.toNat_add, BitVec.toNat_add, toNat_wide, toNat_wide]
        omega
      generalize a.setWidth 64 + b.setWidth 64 + c = s at hs ⊢
      obtain ⟨hl, hle, hv⟩ := ih (Nat.succ.inj hlen) (c := s >>> 32) (by rw [toNat_high]; omega)
      rw [toNat_high] at hv
      refine ⟨congrArg (· + 1) hl, hle, ?_⟩
      dsimp only
      rw [value, value, value, toNat_low, List.length_cons, Nat.mul_succ, Nat.add_comm (32 * _), Nat.pow_add,
        Nat.mul_assoc]
      omega

theorem subLoop_spec {as bs : List U32} (hlen : as.length = bs.length) {c : U64} (hc : c.toNat ≤ 1) :
    (subLoop as bs c).1.length = as.length ∧ (subLoop as bs c).2.toNat ≤ 1 ∧
      value (subLoop as bs c).1 + value bs + c.toNat =
        value as + 2 ^ (32 * as.length) * (subLoop as bs c).2.toNat := by
  induction as generalizing bs c with
  | nil => simpa [subLoop, value, List.length_eq_zero_iff.mp hlen.symm] using hc
  | cons a as ih =>
    cases bs with
    | nil => cases hlen
    | cons b bs =>
      have ha := a.isLt
      have hb := b.isLt
      rw [subLoop]
      have hd : (a.setWidth 64 - b.setWidth 64 - c).toNat + (b.toNat + c.toNat) = a.toNat +
          if (a.setWidth 64 - b.setWidth 64 - c).msb then 2 ^ 64 else 0 := by
        have hwa := toNat_wide a
        have hwb := toNat_wide b
        generalize (a.setWidth 64 : U64) = x at hwa ⊢
        generalize (b.setWidth 64 : U64) = y at hwb ⊢
        rw [BitVec.msb_eq_decide]
        split <;> next h =>
          simp only [decide_eq_true_eq] at h
          bv_omega
      generalize a.setWidth 64 - b.setWidth 64 - c = d at hd ⊢
      have hlt := d.isLt
      obtain ⟨hl, hle, hv⟩ := ih (Nat.succ.inj hlen) (c := if d.msb then 1 else 0) (by split <;> decide)
      refine ⟨congrArg (· + 1) hl, hle, ?_⟩
      dsimp only
      rw [value, value, value, toNat_low, List.length_cons, Nat.mul_succ, Nat.add_comm (32 * _), Nat.pow_add,
        Nat.mul_assoc]
      generalize subLoop as bs (if d.msb then 1 else 0) = r at hv ⊢
      split at hv <;> split at hd <;> first | contradiction | skip
      · rw [show ((1 : U64)).toNat = 1 from rfl] at hv
        omega
      · rw [show ((0 : U64)).toNat = 0 from rfl] at hv
        omega

theorem mulAddLoop_spec {m : U32} {as ts : List U32} (hlen : as.length = ts.length) {c : U64}
    (hc : c.toNat < 2 ^ 32) :
    (mulAddLoop m as ts c).1.length = as.length ∧ (mulAddLoop m as ts c).2.toNat < 2 ^ 32 ∧
      value (mulAddLoop m as ts c).1 + 2 ^ (32 * as.length) * (mulAddLoop m as ts c).2.toNat =
        value as * m.toNat + value ts + c.toNat := by
  induction as generalizing ts c with
  | nil => simpa [mulAddLoop, value, List.length_eq_zero_iff.mp hlen.symm] using hc
  | cons a as ih =>
    cases ts with
    | nil => cases hlen
    | cons t ts =>
      have ha := a.isLt
      have hm := m.isLt
      have ht := t.isLt
      rw [mulAddLoop]
      have hprod : a.toNat * m.toNat ≤ (2 ^ 32 - 1) * (2 ^ 32 - 1) := Nat.mul_le_mul (by omega) (by omega)
      have hs : (a.setWidth 64 * m.setWidth 64 + t.setWidth 64 + c).toNat =
        a.toNat * m.toNat + t.toNat + c.toNat := by
        rw [BitVec.toNat_add, BitVec.toNat_add, BitVec.toNat_mul, toNat_wide, toNat_wide, toNat_wide]
        generalize a.toNat * m.toNat = x at hprod ⊢
        omega
      generalize a.setWidth 64 * m.setWidth 64 + t.setWidth 64 + c = s at hs ⊢
      obtain ⟨hl, hle, hv⟩ := ih (Nat.succ.inj hlen) (c := s >>> 32) (by rw [toNat_high]; have := s.isLt; omega)
      rw [toNat_high] at hv
      refine ⟨congrArg (· + 1) hl, hle, ?_⟩
      dsimp only
      rw [value, value, value, toNat_low, List.length_cons, Nat.mul_succ, Nat.add_comm (32 * _), Nat.pow_add,
        Nat.mul_assoc, Nat.add_mul, Nat.mul_assoc]
      generalize a.toNat * m.toNat = x at hs hprod ⊢
      generalize value as * m.toNat = y at hv ⊢
      omega

end Sic.Limbs
