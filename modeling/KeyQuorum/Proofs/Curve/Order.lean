import Mathlib.GroupTheory.Perm.Cycle.Type
import KeyQuorum.Proofs.Curve.Group

/-!
The group of the points has the order of the generator, so the scalars act on it.

The generator has order `groupOrder`, a prime, and this divides the number of points. There are
at most two points for each first coordinate, hence fewer than three times that many points
altogether. No point is its own opposite, for `-7` is no cube, so their number is odd. What is
left is that the points are exactly the multiples of the generator.
-/

namespace KeyQuorum

/-- Opposite coordinates have different parities, for the prime is odd. -/
lemma Fe.isOdd_neg {y : Fe} (hy : y ≠ 0) : Fe.isOdd (-y) = !Fe.isOdd y := by
  have hpos : 0 < y.val := Nat.pos_of_ne_zero fun h => hy (Fin.ext h)
  have hval : (-y).val = fieldPrime - y.val := by
    rw [Fin.val_neg', Nat.mod_eq_of_lt (by omega)]
  have hodd : fieldPrime % 2 = 1 := by decide
  have hlt := y.isLt
  unfold Fe.isOdd
  rw [hval]
  by_cases h : y.val % 2 = 1
  · have : ¬ (fieldPrime - y.val) % 2 = 1 := by omega
    simp [h, this]
  · have : (fieldPrime - y.val) % 2 = 1 := by omega
    simp [h, this]

namespace Point

/-! ### How many points there may be -/

/-- A point's first coordinate and the parity of its second. -/
def code : Point → Option (Fe × Bool)
  | .infinity => none
  | .affine x y _ => some (x, Fe.isOdd y)

lemma code_injective : Function.Injective code := by
  intro p q h
  cases p with
  | infinity => cases q <;> simp [code] at h ⊢
  | affine x y hxy =>
    cases q with
    | infinity => simp [code] at h
    | affine x' y' hxy' =>
      obtain ⟨rfl, hodd⟩ : x = x' ∧ Fe.isOdd y = Fe.isOdd y' := by simpa [code] using h
      -- The second coordinates are equal or opposite, and opposite ones differ in parity.
      have hsquares : (y - y') * (y + y') = 0 := by linear_combination hxy - hxy'
      rcases mul_eq_zero.mp hsquares with hsub | hadd
      · obtain rfl := sub_eq_zero.mp hsub
        rfl
      · have hneg : y = -y' := eq_neg_of_add_eq_zero_left hadd
        by_cases hy' : y' = 0
        · rw [hy', neg_zero] at hneg
          subst hneg hy'
          rfl
        · rw [hneg, Fe.isOdd_neg hy'] at hodd
          exact absurd hodd (by simp)

instance : Finite Point := Finite.of_injective code code_injective

lemma card_le : Nat.card Point ≤ 2 * fieldPrime + 1 := by
  refine (Nat.card_le_card_of_injective code code_injective).trans ?_
  rw [Nat.card_eq_fintype_card, Fintype.card_option, Fintype.card_prod, Fintype.card_fin,
    Fintype.card_bool]
  omega

/-! ### No point is its own opposite -/

/-- `-7` is no cube. -/
lemma cube_ne (x : Fe) : x * x * x ≠ -7 := by
  intro h
  have hx : x ≠ 0 := by
    rintro rfl
    exact absurd h (by decide)
  -- The cubes are those whose power by a third of the order of the units is one.
  have hpow : (-7 : Fe) ^ ((fieldPrime - 1) / 3) = 1 := by
    rw [← h, ← pow_three', ← pow_mul]
    exact Residue.pow_pred fieldPrime_prime hx
  rw [← Residue.pow_eq] at hpow
  exact absurd hpow (by decide +kernel)

lemma y_ne_zero {x y : Fe} (h : y * y = curveRhs x) : y ≠ 0 := by
  rintro rfl
  rw [mul_zero, curveRhs] at h
  refine absurd ?_ (cube_ne x)
  linear_combination -h

lemma eq_zero_of_add_self {p : Point} (h : p + p = 0) : p = 0 := by
  cases p with
  | infinity => rfl
  | affine x y hxy =>
    have hneg : Point.affine x y hxy = -Point.affine x y hxy := eq_neg_of_add_eq_zero_left h
    have hyy : y = -y := by injection hneg
    exact absurd hyy (curve.ne_neg_self (y_ne_zero hxy))

/-! ### The order of the generator and of the group -/

lemma generator_ne_zero : generator ≠ 0 := nofun

lemma nsmul_generator : groupOrder • generator = 0 := by
  have hlt : groupOrder < 2 ^ 256 := by decide
  rw [← ofJacobian_mulBits hlt]
  decide +kernel

lemma addOrderOf_generator : addOrderOf generator = groupOrder := by
  have : Fact groupOrder.Prime := ⟨groupOrder_prime⟩
  exact addOrderOf_eq_prime nsmul_generator generator_ne_zero

/-- **The number of points** is the order of the generator. -/
theorem card_eq : Nat.card Point = groupOrder := by
  obtain ⟨m, hm⟩ : groupOrder ∣ Nat.card Point :=
    addOrderOf_generator ▸ addOrderOf_dvd_natCard generator
  have hpos : 0 < Nat.card Point := Nat.card_pos
  have hlt : 2 * fieldPrime + 1 < groupOrder * 3 := by decide
  -- The number of points is a multiple of the order, and three times that would be too many.
  have hm3 : m < 3 := by
    by_contra hge
    have hle := card_le
    have := Nat.mul_le_mul_left groupOrder (Nat.not_lt.mp hge)
    omega
  -- With twice the order there would be a point of order two, its own opposite.
  have hm2 : m ≠ 2 := by
    rintro rfl
    have : Fact (Nat.Prime 2) := ⟨Nat.prime_two⟩
    have : Fintype Point := Fintype.ofFinite Point
    have hdvd : 2 ∣ Fintype.card Point := by
      rw [← Nat.card_eq_fintype_card, hm]
      exact dvd_mul_left 2 groupOrder
    obtain ⟨p, hp⟩ := exists_prime_addOrderOf_dvd_card 2 hdvd
    have hdouble : p + p = 0 := by
      rw [← two_nsmul, ← hp]
      exact addOrderOf_nsmul_eq_zero p
    rw [eq_zero_of_add_self hdouble, addOrderOf_zero] at hp
    omega
  have hm0 : m ≠ 0 := by
    rintro rfl
    omega
  obtain rfl : m = 1 := by omega
  rw [hm, mul_one]

lemma nsmul_groupOrder (p : Point) : groupOrder • p = 0 := by
  rw [← card_eq]
  exact card_nsmul_eq_zero'

lemma mod_nsmul (k : ℕ) (p : Point) : (k % groupOrder) • p = k • p := by
  conv_rhs => rw [← Nat.mod_add_div k groupOrder]
  rw [add_nsmul, mul_comm groupOrder, mul_nsmul, nsmul_groupOrder, add_zero]

/-! ### The scalars act on the points -/

instance : SMul Scalar Point := ⟨mul⟩

lemma smul_eq (k : Scalar) (p : Point) : k • p = k.val • p := mul_eq_nsmul k p

instance : Module Scalar Point where
  one_smul p := by
    rw [smul_eq]
    exact one_nsmul p
  mul_smul a b p := by
    rw [smul_eq, smul_eq, smul_eq, Fin.val_mul, mod_nsmul, mul_comm, mul_nsmul]
  smul_zero a := by rw [smul_eq, nsmul_zero]
  smul_add a p q := by rw [smul_eq, smul_eq, smul_eq, nsmul_add]
  add_smul a b p := by rw [smul_eq, smul_eq, smul_eq, Fin.val_add, mod_nsmul, add_nsmul]
  zero_smul p := by
    rw [smul_eq]
    exact zero_nsmul p

lemma ofScalar_eq (k : Scalar) : ofScalar k = k • generator := rfl

/-- A scalar is known by its point. -/
theorem ofScalar_injective : Function.Injective ofScalar :=
  smul_left_injective Scalar generator_ne_zero

lemma ofScalar_zero : ofScalar 0 = .infinity := zero_smul Scalar generator

lemma ofScalar_ne_infinity {k : Scalar} : ofScalar k ≠ .infinity ↔ k ≠ 0 := by
  rw [← ofScalar_zero, ofScalar_injective.ne_iff]

end Point

end KeyQuorum
