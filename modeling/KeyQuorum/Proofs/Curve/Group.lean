import KeyQuorum.Proofs.Curve.Jacobian

/-!
The points of the curve are a group.

A point is the same as a point of the Weierstrass curve. Sums and multiples are worked out in
triples and brought back, and since triples stand for points throughout, they are the sums and
multiples of the group.
-/

namespace KeyQuorum.Point

open WeierstrassCurve

def toCurve : Point → curve.Point
  | .infinity => .zero
  | .affine x y h => .some x y (curve.nonsingular_iff.mpr h)

lemma toCurve_injective : Function.Injective toCurve := by
  intro p q h
  cases p with
  | infinity =>
    cases q with
    | infinity => rfl
    | affine x y hxy => exact absurd h.symm (Affine.Point.some_ne_zero _)
  | affine x y hxy =>
    cases q with
    | infinity => exact absurd h (Affine.Point.some_ne_zero _)
    | affine x' y' hxy' =>
      obtain ⟨rfl, rfl⟩ := (Affine.Point.some.injEq ..).mp h
      rfl

lemma stands_toJacobian (p : Point) : p.toJacobian.Stands p.toCurve := by
  cases p with
  | infinity => rfl
  | affine x y h => exact ⟨one_ne_zero, by simp [toJacobian], by simp [toJacobian]⟩

/-- A triple is brought back to the point it stands for. -/
lemma toCurve_ofJacobian {t : Jacobian} {A : curve.Point} (h : t.Stands A) :
    (ofJacobian t).toCurve = A := by
  unfold ofJacobian
  by_cases hz : t.z = 0
  · rw [if_pos hz, h.zero_iff.mp hz]
    rfl
  rw [if_neg hz]
  cases A with
  | zero => exact absurd h hz
  | some x y hxy =>
    obtain ⟨-, hx, hy⟩ := h
    set w := Residue.inverse t.z with hw
    -- The inverse of `z` takes its square and cube off the coordinates again.
    have hinv : t.z * w = 1 := mul_inv_cancel₀ hz
    have hx' : t.x * (w * w) = x := by
      rw [hx]
      linear_combination x * (t.z * w + 1) * hinv
    have hy' : t.y * (w * w * w) = y := by
      rw [hy]
      linear_combination y * ((t.z * w) ^ 2 + t.z * w + 1) * hinv
    have hon : y * y = curveRhs x := curve.nonsingular_iff.mp hxy
    simp only [hx', hy', ofCoordinates?, dif_pos hon, Option.getD_some]
    rfl

instance : Zero Point := ⟨.infinity⟩

lemma toCurve_zero : (0 : Point).toCurve = 0 := rfl

lemma toCurve_add (p q : Point) : (p + q).toCurve = p.toCurve + q.toCurve :=
  toCurve_ofJacobian ((stands_toJacobian p).add (stands_toJacobian q))

lemma toCurve_neg (p : Point) : (-p).toCurve = -p.toCurve := by
  cases p with
  | infinity => rfl
  | affine x y h =>
    show (neg (.affine x y h)).toCurve = -Affine.Point.some x y _
    rw [Affine.Point.neg_some]
    simp only [neg, toCurve, curve.negY_eq]

instance : AddCommGroup Point where
  add_assoc p q r := toCurve_injective (by simp only [toCurve_add, add_assoc])
  zero_add p := toCurve_injective (by rw [toCurve_add, toCurve_zero, zero_add])
  add_zero p := toCurve_injective (by rw [toCurve_add, toCurve_zero, add_zero])
  neg_add_cancel p := toCurve_injective (by
    rw [toCurve_add, toCurve_neg, neg_add_cancel, toCurve_zero])
  add_comm p q := toCurve_injective (by rw [toCurve_add, toCurve_add, add_comm])
  nsmul := nsmulRec
  zsmul := zsmulRec

/-- Points as points of the Weierstrass curve. -/
def toCurveHom : Point →+ curve.Point where
  toFun := toCurve
  map_zero' := toCurve_zero
  map_add' := toCurve_add

lemma ofJacobian_mulBits {k : ℕ} (hk : k < 2 ^ 256) (p : Point) :
    ofJacobian (p.toJacobian.mulBits 256 k) = k • p := by
  refine toCurve_injective ?_
  rw [toCurve_ofJacobian ((stands_toJacobian p).mulBits hk)]
  exact (map_nsmul toCurveHom k p).symm

/-- The multiple that is worked out is the one of the group. -/
theorem mul_eq_nsmul (k : Scalar) (p : Point) : k * p = k.val • p := by
  have hk : k.val < 2 ^ 256 := k.isLt.trans (by decide)
  show mul k p = _
  unfold mul
  exact ofJacobian_mulBits hk p

end KeyQuorum.Point
