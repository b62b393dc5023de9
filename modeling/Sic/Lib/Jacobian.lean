import Mathlib.AlgebraicGeometry.EllipticCurve.Affine.Point

/-! Jacobian coordinates on a curve `y² = x³ - 3x + b`: the usual doubling and addition compute the group law of
the affine points, for every triple that stands for a point. -/

namespace Sic.Jacobian

open WeierstrassCurve.Affine

variable {F : Type*} [Field F]

structure Jac (F : Type*) where
  X : F
  Y : F
  Z : F

def curve (b : F) : WeierstrassCurve.Affine F := ⟨0, 0, 0, -3, b⟩

def dbl [DecidableEq F] (p : Jac F) : Jac F :=
  if p.Z = 0 then p else
    let delta := p.Z * p.Z
    let gamma := p.Y * p.Y
    let beta := p.X * gamma
    let alpha := 3 * ((p.X - delta) * (p.X + delta))
    let x := alpha * alpha - 8 * beta
    ⟨x, alpha * (4 * beta - x) - 8 * (gamma * gamma), (p.Y + p.Z) * (p.Y + p.Z) - gamma - delta⟩

def add [DecidableEq F] (p q : Jac F) : Jac F :=
  if p.Z = 0 then q else if q.Z = 0 then p else
    let z1z1 := p.Z * p.Z
    let z2z2 := q.Z * q.Z
    let u1 := p.X * z2z2
    let s1 := p.Y * (q.Z * z2z2)
    let h := q.X * z1z1 - u1
    let r := q.Y * (p.Z * z1z1) - s1
    if h = 0 then (if r = 0 then dbl p else ⟨1, 1, 0⟩) else
      let i := (h + h) * (h + h)
      let j := h * i
      let v := u1 * i
      let x := (r + r) * (r + r) - j - (v + v)
      ⟨x, (r + r) * (v - x) - (s1 * j + s1 * j), ((p.Z + q.Z) * (p.Z + q.Z) - z1z1 - z2z2) * h⟩

/-- `(X, Y, Z)` stands for the point `(X / Z², Y / Z³)`, or for the one at infinity. -/
def Rep {b : F} (p : Jac F) (P : (curve b).Point) : Prop :=
  p.Z = 0 ∧ P = 0 ∨ p.Z ≠ 0 ∧ ∃ x y h, P = .some x y h ∧ p.X = x * p.Z ^ 2 ∧ p.Y = y * p.Z ^ 3

variable {b : F}

theorem equation_iff_curve (x y : F) : (curve b).Equation x y ↔ y ^ 2 = x ^ 3 - 3 * x + b := by
  rw [equation_iff]
  simp only [curve]
  constructor <;> intro h <;> linear_combination h

theorem negY_eq (x y : F) : (curve b).negY x y = -y := by simp [negY, curve]

theorem addX_eq (x₁ x₂ l : F) : (curve b).addX x₁ x₂ l = l ^ 2 - x₁ - x₂ := by simp [addX, curve]

theorem addY_eq (x₁ x₂ y l : F) : (curve b).addY x₁ x₂ y l = l * (x₁ - (l ^ 2 - x₁ - x₂)) - y := by
  simp only [addY, negAddY, negY_eq, addX_eq]
  ring

theorem rep_infinity (x y : F) : Rep ⟨x, y, 0⟩ (0 : (curve b).Point) := .inl ⟨rfl, rfl⟩

theorem eq_neg_of_ne {x y₁ y₂ : F} (h₁ : (curve b).Equation x y₁) (h₂ : (curve b).Equation x y₂) (hne : y₁ ≠ y₂) :
    y₁ = -y₂ := by
  rw [equation_iff_curve] at h₁ h₂
  have hprod : (y₁ - y₂) * (y₁ + y₂) = 0 := by linear_combination h₁ - h₂
  exact eq_neg_of_add_eq_zero_left ((mul_eq_zero.mp hprod).resolve_left (sub_ne_zero.mpr hne))

variable [DecidableEq F]

theorem rep_dbl (h2 : (2 : F) ≠ 0) {p : Jac F} {P : (curve b).Point} (hp : Rep p P) : Rep (dbl p) (P + P) := by
  rcases hp with ⟨hz, rfl⟩ | ⟨hz, x, y, h, rfl, hX, hY⟩
  · rw [dbl, if_pos hz, add_zero]
    exact .inl ⟨hz, rfl⟩
  have hZ3 : (p.Y + p.Z) * (p.Y + p.Z) - p.Y * p.Y - p.Z * p.Z = 2 * y * p.Z ^ 4 := by
    rw [hY]
    ring
  rw [dbl, if_neg hz]
  dsimp only
  rw [hZ3, hX, hY]
  by_cases hy : y = 0
  · refine .inl ⟨by rw [hy]; ring, ?_⟩
    exact Point.add_self_of_Y_eq (by rw [negY_eq, hy, neg_zero])
  have hne : y ≠ (curve b).negY x y := by
    rw [negY_eq]
    intro heq
    exact hy ((mul_eq_zero.mp (show 2 * y = 0 by linear_combination heq)).resolve_left h2)
  have hslope : (curve b).slope x x y y * (2 * y) = 3 * x ^ 2 - 3 := by
    rw [slope_of_Y_ne rfl hne, negY_eq, show y - -y = 2 * y by ring, div_mul_cancel₀ _ (mul_ne_zero h2 hy)]
    simp only [curve]
    ring
  refine .inr ⟨mul_ne_zero (mul_ne_zero h2 hy) (pow_ne_zero 4 hz), _, _, _, Point.add_self_of_Y_ne hne, ?_, ?_⟩
  · rw [addX_eq]
    generalize (curve b).slope x x y y = l at hslope ⊢
    linear_combination (-p.Z ^ 8 * (2 * y * l + (3 * x ^ 2 - 3))) * hslope
  · rw [addY_eq]
    generalize (curve b).slope x x y y = l at hslope ⊢
    linear_combination (p.Z ^ 12 * ((3 * x ^ 2 - 3) ^ 2 + (3 * x ^ 2 - 3) * (2 * y * l) + (2 * y * l) ^ 2 -
      12 * x * y ^ 2)) * hslope

theorem rep_add (h2 : (2 : F) ≠ 0) {p q : Jac F} {P Q : (curve b).Point} (hp : Rep p P) (hq : Rep q Q) :
    Rep (add p q) (P + Q) := by
  have hdbl := rep_dbl h2 hp
  rcases hp with ⟨hz, rfl⟩ | ⟨hz, x₁, y₁, n₁, rfl, hX, hY⟩
  · rw [add, if_pos hz, zero_add]
    exact hq
  rcases hq with ⟨hz', rfl⟩ | ⟨hz', x₂, y₂, n₂, rfl, hX', hY'⟩
  · rw [add, if_neg hz, if_pos hz', add_zero]
    exact .inr ⟨hz, x₁, y₁, n₁, rfl, hX, hY⟩
  have hW : p.Z * q.Z ≠ 0 := mul_ne_zero hz hz'
  have hu : p.X * (q.Z * q.Z) = x₁ * (p.Z * q.Z) ^ 2 := by
    rw [hX]
    ring
  have hs : p.Y * (q.Z * (q.Z * q.Z)) = y₁ * (p.Z * q.Z) ^ 3 := by
    rw [hY]
    ring
  have hh : q.X * (p.Z * p.Z) - p.X * (q.Z * q.Z) = (x₂ - x₁) * (p.Z * q.Z) ^ 2 := by
    rw [hX, hX']
    ring
  have hr : q.Y * (p.Z * (p.Z * p.Z)) - p.Y * (q.Z * (q.Z * q.Z)) = (y₂ - y₁) * (p.Z * q.Z) ^ 3 := by
    rw [hY, hY']
    ring
  have hZ3 : (p.Z + q.Z) * (p.Z + q.Z) - p.Z * p.Z - q.Z * q.Z = 2 * (p.Z * q.Z) := by ring
  rw [add, if_neg hz, if_neg hz']
  dsimp only
  rw [hh, hr, hZ3, hu, hs]
  generalize p.Z * q.Z = w at hW ⊢
  by_cases hx : x₁ = x₂
  · subst hx
    rw [if_pos (by rw [sub_self, zero_mul])]
    by_cases hy : y₁ = y₂
    · subst hy
      rw [if_pos (by rw [sub_self, zero_mul])]
      exact hdbl
    · rw [if_neg (mul_ne_zero (sub_ne_zero.mpr (Ne.symm hy)) (pow_ne_zero 3 hW))]
      have hneg := eq_neg_of_ne n₁.1 n₂.1 hy
      exact .inl ⟨rfl, Point.add_of_Y_eq rfl (by rw [negY_eq, hneg])⟩
  · have hd : x₂ - x₁ ≠ 0 := sub_ne_zero.mpr (Ne.symm hx)
    have hslope : (curve b).slope x₁ x₂ y₁ y₂ * (x₂ - x₁) = y₂ - y₁ := by
      rw [slope_of_X_ne hx, ← neg_sub x₁ x₂, ← neg_sub y₁ y₂, mul_neg, div_mul_cancel₀ _ (sub_ne_zero.mpr hx)]
    rw [if_neg (mul_ne_zero hd (pow_ne_zero 2 hW))]
    refine .inr ⟨mul_ne_zero (mul_ne_zero h2 hW) (mul_ne_zero hd (pow_ne_zero 2 hW)), _, _, _,
      Point.add_of_X_ne hx, ?_, ?_⟩
    · rw [addX_eq]
      generalize (curve b).slope x₁ x₂ y₁ y₂ = l at hslope ⊢
      linear_combination (-4 * w ^ 6 * (l * (x₂ - x₁) + (y₂ - y₁))) * hslope
    · rw [addY_eq]
      generalize (curve b).slope x₁ x₂ y₁ y₂ = l at hslope ⊢
      linear_combination (8 * w ^ 9 * ((y₂ - y₁) ^ 2 + (y₂ - y₁) * (l * (x₂ - x₁)) + (l * (x₂ - x₁)) ^ 2 -
        (x₂ - x₁) ^ 2 * (2 * x₁ + x₂))) * hslope

end Sic.Jacobian
