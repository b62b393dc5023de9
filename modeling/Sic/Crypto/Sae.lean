import Sic.Crypto.P256
import Sic.Lib.Bytes

/-! What SAE takes from P-256: scalars modulo the order of the group, negation, and the check of a point. -/

namespace Sic.P256

open Sic.Limbs Sic.Jacobian Sic.Pocklington

def n256 : Fe :=
  ⟨[0xfc632551, 0xf3b9cac2, 0xa7179e84, 0xbce6faad, 0xffffffff, 0xffffffff, 0x00000000, 0xffffffff], rfl⟩

def order : Nat := n256.value

def cmpLimbs : List U32 → List U32 → Ordering
  | x :: xs, y :: ys => (cmpLimbs xs ys).then (compare x.toNat y.toNat)
  | _, _ => .eq

def feCmp (a b : Fe) : Ordering := cmpLimbs a.limbs b.limbs

def p256Negate (m : Nat → U8) (i : Nat) : U8 :=
  if i < 32 then m i else feToBe (subFe zeroFe.1 (feFromBe fun i => m (32 + i))) (i - 32)

def bM : Red := toMont b256

def curveRhs (x : Fe) : Red :=
  let xm := toMont x
  (((xm.mul xm).mul xm).sub ((xm.add xm).add xm)).add bM

def p256PointValid (m : Nat → U8) : Bool :=
  let x := feFromBe m
  let y := feFromBe fun i => m (32 + i)
  if feCmp x pFe ≠ .lt ∨ feCmp y pFe ≠ .lt then false
  else if feIsZero x ∧ feIsZero y then false
  else feCmp ((toMont y).mul (toMont y)).1 (curveRhs x).1 = .eq

def p256ScalarAdd (a b : Nat → U8) : Nat → U8 :=
  let s := sumFe (feFromBe a) (feFromBe b)
  let r := if s.2 ≠ 0 then (diffFe s.1 n256).1 else s.1
  feToBe (if feCmp r n256 ≠ .lt then (diffFe r n256).1 else r)

def p256ScalarRand (draws : List Bytes) : Option Bytes :=
  (draws.take 64).find? fun buf => feCmp (feFromBe buf.byte) n256 = .lt ∧ ¬ feIsZero (feFromBe buf.byte)

def bytes (n : Nat) (f : Nat → U8) : Bytes := (List.range n).map f

/-! ### Comparisons -/

theorem cmpLimbs_eq {xs ys : List U32} (h : xs.length = ys.length) :
    cmpLimbs xs ys = compare (value xs) (value ys) := by
  induction xs generalizing ys with
  | nil =>
    cases List.length_eq_zero_iff.mp h.symm
    rfl
  | cons x xs ih =>
    cases ys with
    | nil => cases h
    | cons y ys =>
      have hx := x.isLt
      have hy := y.isLt
      rw [cmpLimbs, ih (Nat.succ.inj h), value, value]
      simp only [compare, compareOfLessAndEq]
      split_ifs <;> first | rfl | omega

theorem feCmp_eq (a b : Fe) : feCmp a b = compare a.value b.value :=
  cmpLimbs_eq (a.length_eq.trans b.length_eq.symm)

theorem feCmp_lt {a b : Fe} : feCmp a b = .lt ↔ a.value < b.value := by rw [feCmp_eq, Nat.compare_eq_lt]

theorem toZ_inj {a b : Red} : feCmp a.1 b.1 = .eq ↔ toZ a = toZ b := by
  rw [feCmp_eq, Nat.compare_eq_eq, toZ, toZ, mul_left_inj' (inv_ne_zero radix_ne_zero),
    ZMod.natCast_eq_natCast_iff', Nat.mod_eq_of_lt a.2, Nat.mod_eq_of_lt b.2]

theorem feIsZero_value (a : Fe) : feIsZero a = true ↔ a.value = 0 := by
  rw [feIsZero, decide_eq_true_eq, foldl_or_eq_zero]
  exact and_iff_right rfl

theorem toZ_curveRhs (x : Fe) : toZ (curveRhs x) = (x.value : ZMod prime) ^ 3 - 3 * x.value + b256.value := by
  simp only [curveRhs, bM, toZ_add, toZ_sub, toZ_mul, toZ_toMont]
  ring

/-! ### Points -/

variable {m m' : Nat → U8} {P : Point}

theorem be_inj {n : Nat} (h : be m n = be m' n) : ∀ i < n, m i = m' i := by
  induction n with
  | zero => exact fun i hi => absurd hi (Nat.not_lt_zero i)
  | succ n ih =>
    have hm := (m n).isLt
    have hm' := (m' n).isLt
    rw [be, be] at h
    intro i hi
    rcases Nat.lt_succ_iff_lt_or_eq.mp hi with hlt | rfl
    · exact ih (by omega) i hlt
    · exact BitVec.eq_of_toNat_eq (by omega)

theorem Encodes.congr (h : ∀ i < 64, m i = m' i) (hm : Encodes m P) : Encodes m' P := by
  cases P with
  | zero => exact fun i hi => (h i hi).symm.trans (hm i hi)
  | some x y _ =>
    exact ⟨(be_congr fun i hi => (h i (by omega)).symm).trans hm.1,
      (be_congr fun i hi => (h (32 + i) (by omega)).symm).trans hm.2⟩

theorem Encodes.unique (hm : Encodes m P) (hm' : Encodes m' P) : ∀ i < 64, m i = m' i := by
  intro i hi
  cases P with
  | zero => exact (hm i hi).trans (hm' i hi).symm
  | some x y _ =>
    by_cases hlow : i < 32
    · exact be_inj (hm.1.trans hm'.1.symm) i hlow
    · have h := be_inj (hm.2.trans hm'.2.symm) (i - 32) (by omega)
      rwa [show 32 + (i - 32) = i by omega] at h

theorem encodes_p256Negate (hm : Encodes m P) (hP : P ≠ 0) : Encodes (p256Negate m) (-P) := by
  cases P with
  | zero => exact absurd rfl hP
  | some x y h =>
    have hy : (feFromBe fun i => m (32 + i)).value = y.val := (feFromBe_value _).trans hm.2
    refine ⟨(be_congr fun i hi => if_pos hi).trans hm.1, ?_⟩
    refine (be_congr fun i _ => (if_neg (by omega)).trans (congrArg _ (Nat.add_sub_cancel_left ..))).trans ?_
    rw [be_feToBe, subFe_value zeroFe.2 (hy ▸ ZMod.val_lt y), hy, show zeroFe.1.value = 0 from rfl, Nat.zero_add,
      negY_eq, ZMod.neg_val']

theorem p256PointValid_eq_true (m : Nat → U8) : p256PointValid m = true ↔
    (be m 32 < prime ∧ be (fun i => m (32 + i)) 32 < prime) ∧ ¬ (be m 32 = 0 ∧ be (fun i => m (32 + i)) 32 = 0) ∧
    (be (fun i => m (32 + i)) 32 : ZMod prime) ^ 2 = (be m 32 : ZMod prime) ^ 3 - 3 * be m 32 + b256.value := by
  simp only [p256PointValid, feCmp_lt, feIsZero_value, toZ_inj, toZ_mul, toZ_toMont, toZ_curveRhs, pFe_value,
    feFromBe_value, ne_eq, sq]
  split_ifs with hlt hzero
  · exact iff_of_false not_false fun h => hlt.elim (absurd h.1.1) (absurd h.1.2)
  · exact iff_of_false not_false fun h => h.2.1 hzero
  · rw [decide_eq_true_eq, and_iff_right (not_or.mp hlt |>.imp not_not.mp not_not.mp), and_iff_right hzero]

theorem Encodes.valid (hm : Encodes m P) (hP : P ≠ 0) : p256PointValid m = true := by
  cases P with
  | zero => exact absurd rfl hP
  | some x y h =>
    have hcurve := (equation_iff_curve x y).mp h.1
    rw [p256PointValid_eq_true, hm.1, hm.2, ZMod.natCast_zmod_val, ZMod.natCast_zmod_val]
    refine ⟨⟨ZMod.val_lt x, ZMod.val_lt y⟩, ?_, hcurve⟩
    rintro ⟨hx0, hy0⟩
    rw [(ZMod.val_eq_zero x).mp hx0, (ZMod.val_eq_zero y).mp hy0] at hcurve
    have hb : (b256.value : ZMod prime) ≠ 0 := natCast_ne_zero (by decide) (by decide)
    exact hb (by linear_combination -hcurve)

/-- `p256_point_valid` accepts the points of the curve other than infinity, and nothing else. -/
theorem point_valid_iff (m : Nat → U8) : p256PointValid m = true ↔ ∃ P : Point, P ≠ 0 ∧ Encodes m P := by
  constructor
  · intro hvalid
    obtain ⟨⟨hx, hy⟩, _, h⟩ := (p256PointValid_eq_true m).mp hvalid
    exact ⟨.some _ _ (nonsingular h), WeierstrassCurve.Affine.Point.some_ne_zero _,
      (ZMod.val_cast_of_lt hx).symm, (ZMod.val_cast_of_lt hy).symm⟩
  · rintro ⟨P, hP, hm⟩
    exact hm.valid hP

/-! ### Scalars -/

theorem prime_order : order.Prime := by
  have h : Nat.Prime 208150935158385979 := by
    refine prime_of_test (a := 2) (show [191039911, 3023].Nodup by decide) (fun q hq => ?_) (by decide +kernel)
    rcases List.mem_cons.mp hq with rfl | hq
    · norm_num
    · rw [List.mem_singleton.mp hq]
      norm_num
  have h' : Nat.Prime 3969899 := by norm_num
  refine prime_of_test (a := 2) (show [2624747550333869278416773953, 1002328039319].Nodup by decide)
    (fun q hq => ?_)
    (by decide +kernel)
  rcases List.mem_cons.mp hq with rfl | hq
  · exact prime_of_one h (by decide +kernel)
  · rw [List.mem_singleton.mp hq]
    exact prime_of_one h' (by decide +kernel)

theorem be_p256ScalarAdd {a b : Nat → U8} (ha : be a 32 < order) (hb : be b 32 < order) :
    be (p256ScalarAdd a b) 32 = (be a 32 + be b 32) % order := by
  obtain ⟨hc, hs⟩ := sumFe_spec (feFromBe a) (feFromBe b)
  rw [p256ScalarAdd, be_feToBe]
  simp only [feCmp_lt, eq_zero_iff_toNat, ne_eq]
  rw [feFromBe_value, feFromBe_value] at hs
  generalize sumFe (feFromBe a) (feFromBe b) = s at hc hs ⊢
  obtain ⟨_, hd⟩ := diffFe_spec s.1 n256
  generalize hr : (if ¬ s.2.toNat = 0 then (diffFe s.1 n256).1 else s.1) = r
  obtain ⟨_, hd'⟩ := diffFe_spec r n256
  have := (diffFe r n256).1.value_lt
  have := r.value_lt
  have := s.1.value_lt
  have := (diffFe s.1 n256).1.value_lt
  have hv : r.value = if ¬ s.2.toNat = 0 then (diffFe s.1 n256).1.value else s.1.value := by
    rw [← hr]
    split <;> rfl
  rw [apply_ite Fe.value]
  rw [show n256.value = order from rfl] at *
  rw [show order = 0xffffffff00000000ffffffffffffffffbce6faada7179e84f3b9cac2fc632551 by decide] at *
  split at hv <;> split <;> omega

theorem p256ScalarRand_range {draws : List Bytes} {r : Bytes} (h : p256ScalarRand draws = some r) :
    0 < be r.byte 32 ∧ be r.byte 32 < order := by
  have hr := List.find?_some h
  rw [decide_eq_true_eq, feCmp_lt, feIsZero_value, feFromBe_value] at hr
  exact ⟨Nat.pos_of_ne_zero hr.2, hr.1⟩

theorem byte_bytes {n i : Nat} (f : Nat → U8) (h : i < n) : (bytes n f).byte i = f i := by
  rw [bytes, Bytes.byte, List.getD_eq_getElem?_getD, List.getElem?_map, List.getElem?_range h]
  rfl

end Sic.P256
