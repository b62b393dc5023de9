import Sic.Crypto.Mont
import Sic.Lib.Jacobian

/-! The points of the curve P-256, in Jacobian coordinates with the numbers in Montgomery form. -/

namespace Sic.P256

open Sic.Jacobian

def infinity : Jac Red := ⟨oneM, oneM, zeroFe⟩

def jacDouble (p : Jac Red) : Jac Red :=
  if feIsZero p.Z.1 then p else
    let delta := p.Z.mul p.Z
    let gamma := p.Y.mul p.Y
    let beta := p.X.mul gamma
    let t0 := p.X.sub delta
    let t1 := p.X.add delta
    let alpha := t0.mul t1
    let t0 := alpha.add alpha
    let alpha := t0.add alpha
    let x3 := alpha.mul alpha
    let tmp := beta.add beta
    let tmp := tmp.add tmp
    let t0 := tmp.add tmp
    let x3 := x3.sub t0
    let t0 := p.Y.add p.Z
    let z3 := ((t0.mul t0).sub gamma).sub delta
    let t0 := beta.add beta
    let t0 := t0.add t0
    let t0 := t0.sub x3
    let y3 := alpha.mul t0
    let tmp := gamma.mul gamma
    let tmp := tmp.add tmp
    let tmp := tmp.add tmp
    let tmp := tmp.add tmp
    ⟨x3, y3.sub tmp, z3⟩

def jacAdd (p q : Jac Red) : Jac Red :=
  if feIsZero p.Z.1 then q else if feIsZero q.Z.1 then p else
    let z1z1 := p.Z.mul p.Z
    let z2z2 := q.Z.mul q.Z
    let u1 := p.X.mul z2z2
    let u2 := q.X.mul z1z1
    let s1 := p.Y.mul (q.Z.mul z2z2)
    let s2 := q.Y.mul (p.Z.mul z1z1)
    let h := u2.sub u1
    let rr := s2.sub s1
    if feIsZero h.1 then (if feIsZero rr.1 then jacDouble p else infinity) else
      let t := h.add h
      let i := t.mul t
      let j := h.mul i
      let rr := rr.add rr
      let v := u1.mul i
      let x3 := ((rr.mul rr).sub j).sub (v.add v)
      let t2 := s1.mul j
      let y3 := (rr.mul (v.sub x3)).sub (t2.add t2)
      let t := p.Z.add q.Z
      ⟨x3, y3, (((t.mul t).sub z1z1).sub z2z2).mul h⟩

def scalarBits (x : U8) : List Bool := (List.range 8).reverse.map fun i => x >>> i &&& 1 ≠ 0

def jacMul (k : Nat → U8) (p : Jac Red) : Jac Red :=
  (List.range 32).foldl (fun acc i => (scalarBits (k i)).foldl (fun acc b =>
    if b then jacAdd (jacDouble acc) p else jacDouble acc) acc) infinity

def pointBytes (x y : Fe) (i : Nat) : U8 := if i < 32 then feToBe x i else feToBe y (i - 32)

def jacAffine (p : Jac Red) : Nat → U8 :=
  if feIsZero p.Z.1 then fun _ => 0 else
    let zinv := montInv p.Z
    let zinv2 := zinv.mul zinv
    let zinv3 := zinv2.mul zinv
    let xn := fromMont (p.X.mul zinv2)
    let yn := fromMont (p.Y.mul zinv3)
    pointBytes xn.1 yn.1

def loadPoint (p : Nat → U8) : Jac Red :=
  ⟨toMont (feFromBe p), toMont (feFromBe fun i => p (32 + i)), oneM⟩

def p256Mul (k p : Nat → U8) : Nat → U8 := jacAffine (jacMul k (loadPoint p))

def p256Add (a b : Nat → U8) : Nat → U8 := jacAffine (jacAdd (loadPoint a) (loadPoint b))

/-! ### The curve -/

def b256 : Fe :=
  ⟨[0x27d2604b, 0x3bce3c3e, 0xcc53b0f6, 0x651d06b0, 0x769886bc, 0xb3ebbd55, 0xaa3a93e7, 0x5ac635d8], rfl⟩

abbrev Point := (curve (b256.value : ZMod prime)).Point

theorem nonsingular {x y : ZMod prime} (h : y ^ 2 = x ^ 3 - 3 * x + b256.value) :
    (curve (b256.value : ZMod prime)).Nonsingular x y := by
  refine (WeierstrassCurve.Affine.equation_iff_nonsingular_of_Δ_ne_zero ?_).mp ((equation_iff_curve x y).mpr h)
  have h3 : (3 : ZMod prime) ≠ 0 := natCast_ne_zero (n := 3) (by decide) (by decide)
  have hsub : ((b256.value - 2 : Nat) : ZMod prime) ≠ 0 := natCast_ne_zero (by decide) (by decide)
  have hadd : ((b256.value + 2 : Nat) : ZMod prime) ≠ 0 := natCast_ne_zero (by decide) (by decide)
  rw [Nat.cast_sub (by decide), Nat.cast_two] at hsub
  rw [Nat.cast_add, Nat.cast_two] at hadd
  have hΔ : (curve (b256.value : ZMod prime)).Δ = -(2 ^ 4 * 3 ^ 3 * ((b256.value - 2) * (b256.value + 2))) := by
    generalize (b256.value : ZMod prime) = b
    simp only [WeierstrassCurve.Δ, WeierstrassCurve.b₂, WeierstrassCurve.b₄, WeierstrassCurve.b₆,
      WeierstrassCurve.b₈, curve]
    ring
  rw [hΔ]
  exact neg_ne_zero.mpr (mul_ne_zero (mul_ne_zero (pow_ne_zero 4 two_ne_zero') (pow_ne_zero 3 h3))
    (mul_ne_zero hsub hadd))

def field (p : Jac Red) : Jac (ZMod prime) := ⟨toZ p.X, toZ p.Y, toZ p.Z⟩

theorem field_infinity : field infinity = ⟨1, 1, 0⟩ := by
  rw [field, infinity, toZ_oneM, toZ_zeroFe]

theorem field_jacDouble (p : Jac Red) : field (jacDouble p) = dbl (field p) := by
  have hz : (field p).Z = 0 ↔ feIsZero p.Z.1 = true := (feIsZero_iff p.Z).symm
  rw [jacDouble, dbl]
  by_cases h : feIsZero p.Z.1 = true
  · rw [if_pos h, if_pos (hz.mpr h)]
  rw [if_neg h, if_neg (mt hz.mp h)]
  simp only [field, toZ_mul, toZ_add, toZ_sub, Jac.mk.injEq, and_true]
  exact ⟨by ring, by ring⟩

theorem field_jacAdd (p q : Jac Red) : field (jacAdd p q) = add (field p) (field q) := by
  have hp : (field p).Z = 0 ↔ feIsZero p.Z.1 = true := (feIsZero_iff p.Z).symm
  have hq : (field q).Z = 0 ↔ feIsZero q.Z.1 = true := (feIsZero_iff q.Z).symm
  rw [jacAdd, add]
  by_cases h : feIsZero p.Z.1 = true
  · rw [if_pos h, if_pos (hp.mpr h)]
  rw [if_neg h, if_neg (mt hp.mp h)]
  by_cases h : feIsZero q.Z.1 = true
  · rw [if_pos h, if_pos (hq.mpr h)]
  rw [if_neg h, if_neg (mt hq.mp h)]
  simp only [feIsZero_iff, toZ_mul, toZ_sub]
  by_cases hh : toZ q.X * (toZ p.Z * toZ p.Z) - toZ p.X * (toZ q.Z * toZ q.Z) = 0
  · rw [if_pos hh]
    refine Eq.trans ?_ (if_pos hh).symm
    by_cases hr : toZ q.Y * (toZ p.Z * (toZ p.Z * toZ p.Z)) - toZ p.Y * (toZ q.Z * (toZ q.Z * toZ q.Z)) = 0
    · rw [if_pos hr]
      exact (field_jacDouble p).trans (if_pos hr).symm
    · rw [if_neg hr]
      exact field_infinity.trans (if_neg hr).symm
  · rw [if_neg hh]
    refine Eq.trans ?_ (if_neg hh).symm
    simp only [field, toZ_mul, toZ_add, toZ_sub]

variable {b : ZMod prime}

theorem rep_jacDouble {p : Jac Red} {P : (curve b).Point} (h : Rep (field p) P) :
    Rep (field (jacDouble p)) (P + P) :=
  field_jacDouble p ▸ rep_dbl two_ne_zero' h

theorem rep_jacAdd {p q : Jac Red} {P Q : (curve b).Point} (hp : Rep (field p) P) (hq : Rep (field q) Q) :
    Rep (field (jacAdd p q)) (P + Q) :=
  field_jacAdd p q ▸ rep_add two_ne_zero' hp hq

/-! ### Multiples -/

theorem ofBits_scalarBits (x : U8) (n : Nat) : ofBits (scalarBits x) n = 256 * n + x.toNat := by
  have h : ∀ x : U8, ofBits (scalarBits x) 0 = x.toNat := by decide +kernel
  have hlen : (scalarBits x).length = 8 := by
    rw [scalarBits, List.length_map, List.length_reverse, List.length_range]
  rw [ofBits_eq, h, hlen, show 2 ^ 8 = 256 from rfl]

theorem rep_jacMul (k : Nat → U8) {p : Jac Red} {P : (curve b).Point} (hp : Rep (field p) P) :
    Rep (field (jacMul k p)) (be k 32 • P) := by
  have hdouble : ∀ {s n}, Rep (field s) (n • P) → Rep (field (jacDouble s)) ((2 * n) • P) := by
    intro s n h
    rw [two_mul, add_nsmul]
    exact rep_jacDouble h
  have hadd : ∀ {s n}, Rep (field s) (n • P) → Rep (field (jacAdd s p)) ((n + 1) • P) := by
    intro s n h
    rw [succ_nsmul]
    exact rep_jacAdd h hp
  rw [jacMul]
  generalize 32 = n
  induction n with
  | zero =>
    rw [List.range_zero, List.foldl_nil, be, zero_nsmul, field_infinity]
    exact rep_infinity 1 1
  | succ n ih =>
    rw [List.range_succ, List.foldl_append, List.foldl_cons, List.foldl_nil, be, ← ofBits_scalarBits]
    exact double_and_add (R := fun s n => Rep (field s) (n • P)) hdouble hadd (scalarBits (k n)) ih

/-! ### Points in bytes -/

/-- Sixty-four bytes: both coordinates, or zeros for the point at infinity. -/
def Encodes (m : Nat → U8) : Point → Prop
  | .zero => ∀ i < 64, m i = 0
  | .some x y _ => be m 32 = x.val ∧ be (fun i => m (32 + i)) 32 = y.val

theorem be_congr {m m' : Nat → U8} {n : Nat} (h : ∀ i < n, m i = m' i) : be m n = be m' n := by
  induction n with
  | zero => rfl
  | succ n ih => rw [be, be, ih fun i hi => h i (Nat.lt_succ_of_lt hi), h n (Nat.lt_succ_self n)]

theorem rep_loadPoint {m : Nat → U8} {P : Point} (hm : Encodes m P) (hP : P ≠ 0) :
    Rep (field (loadPoint m)) P := by
  cases P with
  | zero => exact absurd rfl hP
  | some x y h =>
    have hz : toZ (loadPoint m).Z = 1 := toZ_oneM
    refine .inr ⟨hz.trans_ne one_ne_zero, x, y, h, rfl, ?_, ?_⟩
    · change toZ (toMont (feFromBe m)) = x * toZ oneM ^ 2
      rw [toZ_toMont, feFromBe_value, hm.1, ZMod.natCast_zmod_val, toZ_oneM, one_pow, mul_one]
    · change toZ (toMont (feFromBe fun i => m (32 + i))) = y * toZ oneM ^ 3
      rw [toZ_toMont, feFromBe_value, hm.2, ZMod.natCast_zmod_val, toZ_oneM, one_pow, mul_one]

theorem encodes_pointBytes {x y : Fe} {u v : ZMod prime} (hx : x.value = u.val) (hy : y.value = v.val)
    (h : (curve (b256.value : ZMod prime)).Nonsingular u v) : Encodes (pointBytes x y) (.some u v h) := by
  constructor
  · refine (be_congr fun i hi => if_pos hi).trans ?_
    rw [be_feToBe, hx]
  · refine (be_congr fun i _ => (if_neg (by omega)).trans (congrArg _ (Nat.add_sub_cancel_left ..))).trans ?_
    rw [be_feToBe, hy]

theorem encodes_jacAffine {p : Jac Red} {P : Point} (h : Rep (field p) P) : Encodes (jacAffine p) P := by
  rcases h with ⟨hz, rfl⟩ | ⟨hz, x, y, n, rfl, hX, hY⟩
  · rw [jacAffine, if_pos ((feIsZero_iff p.Z).mpr hz)]
    exact fun _ _ => rfl
  have hz' : toZ p.Z ≠ 0 := hz
  have hx : toZ (p.X.mul ((montInv p.Z).mul (montInv p.Z))) = x := by
    rw [toZ_mul, toZ_mul, toZ_montInv hz', show toZ p.X = x * toZ p.Z ^ 2 from hX]
    field_simp
  have hy : toZ (p.Y.mul (((montInv p.Z).mul (montInv p.Z)).mul (montInv p.Z))) = y := by
    rw [toZ_mul, toZ_mul, toZ_mul, toZ_montInv hz', show toZ p.Y = y * toZ p.Z ^ 3 from hY]
    field_simp
  rw [jacAffine, if_neg (mt (feIsZero_iff p.Z).mp hz)]
  exact encodes_pointBytes ((fromMont_value _).trans (congrArg ZMod.val hx))
    ((fromMont_value _).trans (congrArg ZMod.val hy)) n

/-- `p256_mul` and `p256_add` compute in the group of the points of the curve, `jac_double` and `jac_add` for
every triple that stands for a point. -/
theorem group_law :
    (∀ x y : ZMod prime, y ^ 2 = x ^ 3 - 3 * x + b256.value → (curve (b256.value : ZMod prime)).Nonsingular x y) ∧
    (∀ (p : Jac Red) (P : Point), Rep (field p) P → Rep (field (jacDouble p)) (P + P)) ∧
    (∀ (p q : Jac Red) (P Q : Point), Rep (field p) P → Rep (field q) Q → Rep (field (jacAdd p q)) (P + Q)) ∧
    (∀ (k a : Nat → U8) (P : Point), Encodes a P → P ≠ 0 → Encodes (p256Mul k a) (be k 32 • P)) ∧
    (∀ (a b : Nat → U8) (P Q : Point), Encodes a P → P ≠ 0 → Encodes b Q → Q ≠ 0 →
      Encodes (p256Add a b) (P + Q)) :=
  ⟨fun _ _ h => nonsingular h, fun _ _ h => rep_jacDouble h, fun _ _ _ _ hp hq => rep_jacAdd hp hq,
    fun k _ _ ha hP => encodes_jacAffine (rep_jacMul k (rep_loadPoint ha hP)),
    fun _ _ _ _ ha hP hb hQ => encodes_jacAffine (rep_jacAdd (rep_loadPoint ha hP) (rep_loadPoint hb hQ))⟩

def gx256 : Fe :=
  ⟨[0xd898c296, 0xf4a13945, 0x2deb33a0, 0x77037d81, 0x63a440f2, 0xf8bce6e5, 0xe12c4247, 0x6b17d1f2], rfl⟩

def gy256 : Fe :=
  ⟨[0x37bf51f5, 0xcbb64068, 0x6b315ece, 0x2bce3357, 0x7c0f9e16, 0x8ee7eb4a, 0xfe1a7f9b, 0x4fe342e2], rfl⟩

theorem generator_on_curve : (gy256.value : ZMod prime) ^ 2 = gx256.value ^ 3 - 3 * gx256.value + b256.value := by
  have h : ((gy256.value ^ 2 + 3 * gx256.value : Nat) : ZMod prime) = (gx256.value ^ 3 + b256.value : Nat) :=
    (ZMod.natCast_eq_natCast_iff _ _ _).mpr (by decide)
  push_cast at h
  linear_combination h

theorem group_law_generator : ∃ G : Point, G ≠ 0 ∧ Encodes (pointBytes gx256 gy256) G ∧
    Encodes (p256Add (pointBytes gx256 gy256) (pointBytes gx256 gy256)) (G + G) ∧
    ∀ k, Encodes (p256Mul k (pointBytes gx256 gy256)) (be k 32 • G) := by
  obtain ⟨G, hne, hg⟩ : ∃ G : Point, G ≠ 0 ∧ Encodes (pointBytes gx256 gy256) G :=
    ⟨.some _ _ (group_law.1 gx256.value gy256.value generator_on_curve),
      WeierstrassCurve.Affine.Point.some_ne_zero _,
      encodes_pointBytes (ZMod.val_cast_of_lt (by decide)).symm (ZMod.val_cast_of_lt (by decide)).symm _⟩
  exact ⟨G, hne, hg, group_law.2.2.2.2 _ _ G G hg hne hg hne, fun k => group_law.2.2.2.1 k _ G hg hne⟩

end Sic.P256
