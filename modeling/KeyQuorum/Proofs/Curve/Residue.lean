import Mathlib.Data.ZMod.Basic
import Mathlib.FieldTheory.Finite.Basic
import KeyQuorum.Curve.Residue

/-!
Residues as a ring, and as a field when the modulus is prime.

Repeated squaring gives the power of the ring. By Fermat's little theorem the power `m - 2`
then is the inverse modulo a prime `m`, so the division by powers is the division of a field.
-/

namespace KeyQuorum.Residue

open Fin.CommRing

variable {m : ℕ} [NeZero m]

/-- Repeated squaring gives the power, when the exponent has no more bits than are gone over. -/
lemma powBits_eq (a : Fin m) {width e : ℕ} (h : e < 2 ^ width) : powBits a width e = a ^ e := by
  induction width generalizing e with
  | zero =>
    obtain rfl : e = 0 := by simpa using h
    rw [powBits, pow_zero]
  | succ width ih =>
    have hhalf : e / 2 < 2 ^ width := by
      rw [pow_succ] at h
      omega
    have hsquare : a ^ (e / 2) * a ^ (e / 2) = a ^ (2 * (e / 2)) := by
      rw [two_mul, pow_add]
    simp only [powBits, ih hhalf, hsquare]
    split
    · next hodd =>
      rw [← pow_succ]
      exact congrArg (a ^ ·) (by omega)
    · next heven => exact congrArg (a ^ ·) (by omega)

lemma pow_eq (a : Fin m) (e : ℕ) : Residue.pow a e = a ^ e := by
  unfold Residue.pow
  exact powBits_eq a Nat.lt_log2_self

lemma pow_pred (hm : m.Prime) {a : Fin m} (ha : a ≠ 0) : a ^ (m - 1) = 1 := by
  have : Fact m.Prime := ⟨hm⟩
  have hne : ZMod.finEquiv m a ≠ 0 := by simpa using ha
  apply (ZMod.finEquiv m).injective
  rw [map_pow, map_one]
  exact ZMod.pow_card_sub_one_eq_one hne

lemma mul_inverse_cancel (hm : m.Prime) {a : Fin m} (ha : a ≠ 0) : a * inverse a = 1 := by
  have hsplit : m - 1 = (m - 2) + 1 := by
    have := hm.two_le
    omega
  rw [inverse, pow_eq, mul_comm, ← pow_succ, ← hsplit]
  exact pow_pred hm ha

lemma inverse_zero (hm : 2 < m) : inverse (0 : Fin m) = 0 := by
  rw [inverse, pow_eq]
  exact zero_pow (by omega)

/-- The field of the residues modulo an odd prime. -/
@[reducible] def field (hm : m.Prime) (htwo : 2 < m) : Field (Fin m) where
  __ := Fin.instCommRing m
  inv := inverse
  div a b := a * inverse b
  exists_pair_ne := by
    have : Fact (1 < m) := ⟨hm.one_lt⟩
    exact ⟨0, 1, by simp [Fin.ext_iff, Nat.mod_eq_of_lt hm.one_lt]⟩
  mul_inv_cancel a ha := mul_inverse_cancel hm ha
  inv_zero := inverse_zero htwo
  nnqsmul := _
  qsmul := _

end KeyQuorum.Residue
