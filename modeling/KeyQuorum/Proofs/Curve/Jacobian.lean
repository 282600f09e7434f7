import Mathlib.AlgebraicGeometry.EllipticCurve.Affine.Point
import Mathlib.Tactic.LinearCombination
import KeyQuorum.Curve.Point
import KeyQuorum.Proofs.Curve.Field

/-!
What Jacobian triples stand for.

The curve is taken as a Weierstrass curve, whose points are known to be a group. A triple stands
for a point when its coordinates are the point's times the square and the cube of `z`. Doubling
and adding triples then doubles and adds the points, with all the cases of the chord and the
tangent, and multiples of triples stand for multiples of points.
-/

namespace KeyQuorum

open WeierstrassCurve

/-- The curve `y ^ 2 = x ^ 3 + 7`. -/
def curve : Affine Fe where
  a₁ := 0
  a₂ := 0
  a₃ := 0
  a₄ := 0
  a₆ := 7

namespace curve

variable {x y x₁ y₁ x₂ y₂ : Fe}

lemma equation_iff : curve.Equation x y ↔ y * y = curveRhs x := by
  rw [Affine.equation_iff]
  simp only [curve, curveRhs, zero_mul, add_zero]
  rw [pow_two, pow_three', mul_assoc]

lemma discriminant_ne_zero : curve.Δ ≠ 0 := by decide

lemma nonsingular_iff : curve.Nonsingular x y ↔ y * y = curveRhs x := by
  rw [← equation_iff]
  exact (Affine.equation_iff_nonsingular_of_Δ_ne_zero discriminant_ne_zero).symm

@[simp] lemma negY_eq (x y : Fe) : curve.negY x y = -y := by
  simp [Affine.negY, curve]

lemma two_ne_zero : (2 : Fe) ≠ 0 := by decide

/-- The third point on the line of slope `ℓ` through two points, turned over. -/
lemma add_some_eq (h₁ : curve.Nonsingular x₁ y₁) (h₂ : curve.Nonsingular x₂ y₂)
    (hxy : ¬ (x₁ = x₂ ∧ y₁ = -y₂)) {ℓ : Fe} (hℓ : curve.slope x₁ x₂ y₁ y₂ = ℓ) :
    ∃ h, Affine.Point.some x₁ y₁ h₁ + Affine.Point.some x₂ y₂ h₂ =
      Affine.Point.some (ℓ * ℓ - x₁ - x₂) (ℓ * (x₁ - (ℓ * ℓ - x₁ - x₂)) - y₁) h := by
  have hvert : ¬ (x₁ = x₂ ∧ y₁ = curve.negY x₂ y₂) := by rwa [negY_eq]
  have hx : curve.addX x₁ x₂ ℓ = ℓ * ℓ - x₁ - x₂ := by
    simp only [Affine.addX, curve]
    ring
  have hy : curve.addY x₁ x₂ y₁ ℓ = ℓ * (x₁ - (ℓ * ℓ - x₁ - x₂)) - y₁ := by
    rw [Affine.addY, negY_eq, Affine.negAddY, hx]
    ring
  have h := Affine.nonsingular_add h₁ h₂ hvert
  rw [hℓ, hx, hy] at h
  refine ⟨h, ?_⟩
  rw [Affine.Point.add_some hvert]
  simp only [hℓ, hx, hy]

lemma chord (h₁ : curve.Nonsingular x₁ y₁) (h₂ : curve.Nonsingular x₂ y₂) (hx : x₁ ≠ x₂) :
    ∃ ℓ h, ℓ * (x₁ - x₂) = y₁ - y₂ ∧ Affine.Point.some x₁ y₁ h₁ + Affine.Point.some x₂ y₂ h₂ =
      Affine.Point.some (ℓ * ℓ - x₁ - x₂) (ℓ * (x₁ - (ℓ * ℓ - x₁ - x₂)) - y₁) h := by
  obtain ⟨h, heq⟩ := add_some_eq h₁ h₂ (fun hxy => hx hxy.1) rfl
  refine ⟨_, h, ?_, heq⟩
  rw [Affine.slope_of_X_ne hx]
  exact div_mul_cancel₀ _ (sub_ne_zero.mpr hx)

lemma ne_neg_self (hy : y ≠ 0) : y ≠ -y := by
  intro h
  have hdouble : 2 * y = 0 := by linear_combination h
  exact hy ((mul_eq_zero.mp hdouble).resolve_left two_ne_zero)

/-- A point is doubled by the tangent, when that is not upright. -/
lemma tangent (h₁ : curve.Nonsingular x y) (hy : y ≠ 0) :
    ∃ ℓ h, ℓ * (2 * y) = 3 * (x * x) ∧ Affine.Point.some x y h₁ + Affine.Point.some x y h₁ =
      Affine.Point.some (ℓ * ℓ - x - x) (ℓ * (x - (ℓ * ℓ - x - x)) - y) h := by
  obtain ⟨h, heq⟩ := add_some_eq h₁ h₁ (fun hxy => ne_neg_self hy hxy.2) rfl
  refine ⟨_, h, ?_, heq⟩
  have hneg : y ≠ curve.negY x y := by
    rw [negY_eq]
    exact ne_neg_self hy
  have hden : y - curve.negY x y = 2 * y := by
    rw [negY_eq]
    ring
  rw [Affine.slope_of_Y_ne rfl hneg, hden, div_mul_cancel₀ _ (mul_ne_zero two_ne_zero hy)]
  simp only [curve]
  ring

end curve

namespace Jacobian

variable {p q : Jacobian} {A B : curve.Point}

/-- The triple stands for the point. -/
def Stands (p : Jacobian) : curve.Point → Prop
  | .zero => p.z = 0
  | .some x y _ => p.z ≠ 0 ∧ p.x = x * (p.z * p.z) ∧ p.y = y * (p.z * p.z * p.z)

lemma Stands.zero_iff (h : p.Stands A) : p.z = 0 ↔ A = 0 := by
  cases A with
  | zero => exact ⟨fun _ => rfl, fun _ => h⟩
  | some x y hxy =>
    exact ⟨fun hz => absurd hz h.1, fun hA => absurd hA (Affine.Point.some_ne_zero hxy)⟩

/-- Doubling a triple doubles the point. -/
theorem Stands.double (h : p.Stands A) : p.double.Stands (A + A) := by
  cases A with
  | zero =>
    show 2 * (p.y * p.z) = 0
    rw [show p.z = 0 from h, mul_zero, mul_zero]
  | some x y hxy =>
    obtain ⟨hz, hpx, hpy⟩ := h
    by_cases hy : y = 0
    · -- the tangent is upright
      rw [Affine.Point.add_self_of_Y_eq (by rw [curve.negY_eq, hy, neg_zero])]
      show 2 * (p.y * p.z) = 0
      rw [hpy, hy, zero_mul, zero_mul, mul_zero]
    · obtain ⟨ℓ, hsum, hℓ, heq⟩ := curve.tangent hxy hy
      rw [heq]
      have hpy0 : p.y ≠ 0 := by
        rw [hpy]
        exact mul_ne_zero hy (mul_ne_zero (mul_ne_zero hz hz) hz)
      refine ⟨mul_ne_zero curve.two_ne_zero (mul_ne_zero hpy0 hz), ?_, ?_⟩
      · simp only [Jacobian.double, hpx, hpy]
        linear_combination -(3 * (x * x) + ℓ * (2 * y)) * p.z ^ 8 * hℓ
      · simp only [Jacobian.double, hpx, hpy]
        linear_combination -p.z ^ 12 * (12 * x * y ^ 2 - (9 * x ^ 4 + 6 * x ^ 2 * ℓ * y +
          4 * ℓ ^ 2 * y ^ 2)) * hℓ

/-- The coordinates that `add` compares, over the product of both `z`. -/
lemma scaled {x y : Fe} (hx : p.x = x * (p.z * p.z)) (hy : p.y = y * (p.z * p.z * p.z)) (z : Fe) :
    p.x * (z * z) = x * (p.z * z * (p.z * z)) ∧
      p.y * (z * z * z) = y * (p.z * z * (p.z * z) * (p.z * z)) := by
  rw [hx, hy]
  exact ⟨by ring, by ring⟩

/-- Adding triples adds the points, whichever of the cases they fall under. -/
theorem Stands.add (hp : p.Stands A) (hq : q.Stands B) : (p.add q).Stands (A + B) := by
  unfold Jacobian.add
  by_cases hpz : p.z = 0
  · rw [if_pos hpz, hp.zero_iff.mp hpz, zero_add]
    exact hq
  by_cases hqz : q.z = 0
  · rw [if_neg hpz, if_pos hqz, hq.zero_iff.mp hqz, add_zero]
    exact hp
  rw [if_neg hpz, if_neg hqz]
  cases A with
  | zero => exact absurd hp hpz
  | some x₁ y₁ h₁ =>
    cases B with
    | zero => exact absurd hq hqz
    | some x₂ y₂ h₂ =>
      obtain ⟨-, hpx, hpy⟩ := hp
      obtain ⟨-, hqx, hqy⟩ := hq
      obtain ⟨hu, hs⟩ := scaled hpx hpy q.z
      obtain ⟨hv, ht⟩ := scaled hqx hqy p.z
      rw [mul_comm q.z p.z] at hv ht
      set k := p.z * q.z
      have hk0 : k ≠ 0 := mul_ne_zero hpz hqz
      simp only [hu, hv, hs, ht, ← sub_mul]
      by_cases hx : x₁ = x₂
      · rw [if_pos (by rw [hx, sub_self, zero_mul])]
        by_cases hy : y₁ = y₂
        · subst hx hy
          rw [if_pos (by rw [sub_self, zero_mul])]
          exact Stands.double ⟨hpz, hpx, hpy⟩
        · -- the points are opposite
          have hneg : y₁ = curve.negY x₂ y₂ :=
            (Affine.Y_eq_of_X_eq h₁.1 h₂.1 hx).resolve_left hy
          have hr : (y₂ - y₁) * (k * k * k) ≠ 0 :=
            mul_ne_zero (sub_ne_zero.mpr (Ne.symm hy)) (mul_ne_zero (mul_ne_zero hk0 hk0) hk0)
          rw [if_neg hr, Affine.Point.add_of_Y_eq hx hneg]
          rfl
      · have hh : (x₂ - x₁) * (k * k) ≠ 0 :=
          mul_ne_zero (sub_ne_zero.mpr (Ne.symm hx)) (mul_ne_zero hk0 hk0)
        rw [if_neg hh]
        obtain ⟨ℓ, hsum, hℓ, heq⟩ := curve.chord h₁ h₂ hx
        rw [heq]
        obtain rfl : y₁ = ℓ * (x₁ - x₂) + y₂ := by linear_combination -hℓ
        refine ⟨mul_ne_zero hk0 hh, ?_, ?_⟩ <;> ring

/-! ### Multiples -/

lemma Stands.mulBits (h : p.Stands A) {width k : ℕ} (hk : k < 2 ^ width) :
    (p.mulBits width k).Stands (k • A) := by
  induction width generalizing k with
  | zero =>
    obtain rfl : k = 0 := by simpa using hk
    rw [zero_nsmul]
    rfl
  | succ width ih =>
    have hhalf : k / 2 < 2 ^ width := by
      rw [pow_succ] at hk
      omega
    have hdouble := (ih hhalf).double
    rw [← two_nsmul, ← mul_nsmul] at hdouble
    simp only [Jacobian.mulBits]
    split
    · next hodd =>
      have hsum := hdouble.add h
      rw [← succ_nsmul] at hsum
      have hkey : k / 2 * 2 + 1 = k := by omega
      rwa [hkey] at hsum
    · next heven =>
      have hkey : k / 2 * 2 = k := by omega
      rwa [hkey] at hdouble

end Jacobian

end KeyQuorum
