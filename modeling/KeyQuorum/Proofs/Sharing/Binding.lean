import KeyQuorum.Proofs.Curve.Order
import KeyQuorum.Proofs.Sharing.Interpolation
import KeyQuorum.Sharing.Dealing

/-!
Verified shares bind the secret that comes out, whoever has dealt them.

A share that holds against commitments has, as its point, the value of the polynomial whose
coefficients are the committed points. The weights of Lagrange take every power of the places
but the zeroth to zero, so of the weighted sum of the points only the first commitment is left:
what is recovered is the scalar of that point, and a scalar is known by its point.
-/

open scoped Polynomial

namespace KeyQuorum

/-- Shares of different numbers that carry the commitments and hold against them, no fewer than
there are commitments. -/
structure Verified (cs : List Point) (shares : List (PublicShare × Scalar)) : Prop where
  ids : (shares.map fun s => s.1.id).Nodup
  commitments : ∀ s ∈ shares, s.1.commitments = cs
  verified : ∀ s ∈ shares, s.1.verify s.2 = true
  enough : cs.length ≤ shares.length

lemma PublicShare.verify_iff {p : PublicShare} {secret : Scalar} : p.verify secret = true ↔
    p.id ≠ 0 ∧ p.commitments ≠ [] ∧ Point.ofScalar secret = p.point ∧
      Polynomial.evaluatePoints 1 (Scalar.ofId p.id) p.commitments = p.point := by
  simp only [verify, Bool.and_eq_true, decide_eq_true_eq, Bool.not_eq_true',
    List.isEmpty_eq_false_iff, and_assoc]

lemma PublicShare.verify_eq_true {p : PublicShare} {secret : Scalar} (h : p.verify secret = true) :
    p.id ≠ 0 ∧
      Point.ofScalar secret = Polynomial.evaluatePoints 1 (Scalar.ofId p.id) p.commitments := by
  obtain ⟨hid, -, hpoint, hvalue⟩ := verify_iff.mp h
  exact ⟨hid, hpoint.trans hvalue.symm⟩

namespace Recovery

variable {xs : List Scalar}

/-- The weights take every power of the places to that of zero. -/
lemma sum_pow_mul_weight (hn : xs.Nodup) {k : ℕ} (hk : k < xs.length) :
    (xs.map fun x => x ^ k * weight xs x).sum = 0 ^ k := by
  have hdeg : (.X ^ k : Scalar[X]).degree < xs.length := by
    rw [Polynomial.degree_X_pow]
    exact_mod_cast hk
  have hsum := sum_weight_mul_eval hn hdeg
  simpa only [Polynomial.eval_pow, Polynomial.eval_X] using hsum

lemma sum_weight_smul_points (hn : xs.Nodup) {cs : List Point} {k : ℕ}
    (hk : k + cs.length ≤ xs.length) :
    (xs.map fun x => weight xs x • Polynomial.evaluatePoints (x ^ k) x cs).sum =
      (0 : Scalar) ^ k • cs.head?.getD 0 := by
  induction cs generalizing k with
  | nil =>
    have hzero : ∀ x ∈ xs, weight xs x • Polynomial.evaluatePoints (x ^ k) x [] = 0 :=
      fun x _ => smul_zero _
    rw [List.map_congr_left hzero]
    simp
  | cons c cs ih =>
    rw [List.length_cons] at hk
    -- The first point is taken out, with the power in front of it; the rest has the next power.
    have hsplit : ∀ x ∈ xs, weight xs x • Polynomial.evaluatePoints (x ^ k) x (c :: cs) =
        (x ^ k * weight xs x) • c +
          weight xs x • Polynomial.evaluatePoints (x ^ (k + 1)) x cs := by
      intro x _
      rw [pow_succ, mul_comm (x ^ k) (weight xs x), mul_smul, ← smul_add]
      rfl
    rw [List.map_congr_left hsplit, List.sum_map_add, ih (by omega), pow_succ, mul_zero, zero_smul,
      add_zero, ← sum_pow_mul_weight hn (by omega), List.sum_smul, List.map_map]
    rfl

end Recovery

namespace Verified

variable {cs : List Point} {shares : List (PublicShare × Scalar)}

lemma recover_eq (h : Verified cs shares) (hcs : cs ≠ []) :
    ∃ v, Recovery.recover (shares.map fun s => (s.1.id, s.2)) = .ok v ∧
      Point.ofScalar v = cs.head hcs := by
  set pairs := shares.map fun s => (s.1.id, s.2) with hpairs
  set xs := (pairs.map Prod.fst).map Scalar.ofId with hxs
  have hids : (pairs.map Prod.fst).Nodup := by
    rw [hpairs, List.map_map]
    exact h.ids
  have hn : xs.Nodup := hids.map Recovery.ofId_injective
  have hlen : xs.length = shares.length := by simp [hxs, hpairs]
  have hne : pairs ≠ [] := by
    intro hnil
    have hshares : shares.length = 0 := by simpa [hpairs] using congrArg List.length hnil
    have hpos := List.length_pos_of_ne_nil hcs
    have := h.enough
    omega
  have hzero : ∀ p ∈ pairs, p.1 ≠ 0 := by
    intro p hp
    obtain ⟨s, hs, rfl⟩ := List.mem_map.mp hp
    exact (PublicShare.verify_eq_true (h.verified s hs)).1
  refine ⟨_, Recovery.recover_eq hne hzero hids, ?_⟩
  have hpoints : ∀ s ∈ shares, (s.2 * Recovery.weight xs (Scalar.ofId s.1.id)) • Point.generator =
      Recovery.weight xs (Scalar.ofId s.1.id) •
        Polynomial.evaluatePoints (Scalar.ofId s.1.id ^ 0) (Scalar.ofId s.1.id) cs := by
    intro s hs
    obtain ⟨-, hvalue⟩ := PublicShare.verify_eq_true (h.verified s hs)
    rw [h.commitments s hs] at hvalue
    rw [mul_comm, mul_smul, pow_zero, ← hvalue]
    rfl
  have henough : 0 + cs.length ≤ xs.length := by
    rw [hlen, zero_add]
    exact h.enough
  calc Point.ofScalar (pairs.map fun p => p.2 * Recovery.weight xs (Scalar.ofId p.1)).sum
      = (shares.map fun s => (s.2 * Recovery.weight xs (Scalar.ofId s.1.id)) •
          Point.generator).sum := by
        rw [Point.ofScalar_eq, List.sum_smul, hpairs, List.map_map, List.map_map]
        rfl
    _ = (xs.map fun x => Recovery.weight xs x • Polynomial.evaluatePoints (x ^ 0) x cs).sum := by
        rw [List.map_congr_left hpoints]
        simp only [hxs, hpairs, List.map_map]
        rfl
    _ = cs.head?.getD 0 := by
        rw [Recovery.sum_weight_smul_points hn henough, pow_zero, one_smul]
    _ = cs.head hcs := by rw [List.head?_eq_some_head hcs, Option.getD_some]

/-- **Verified shares bind the secret**: what they recover is the scalar of the first commitment,
and so the same for all of them. -/
theorem binds_secret (hcs : cs ≠ []) (h : Verified cs shares) :
    ∃ v, Recovery.recover (shares.map fun s => (s.1.id, s.2)) = .ok v ∧
      Point.ofScalar v = cs.head hcs ∧
      ∀ others, Verified cs others →
        Recovery.recover (others.map fun s => (s.1.id, s.2)) = .ok v := by
  obtain ⟨v, hrec, hv⟩ := h.recover_eq hcs
  refine ⟨v, hrec, hv, fun others hothers => ?_⟩
  obtain ⟨w, hrec', hw⟩ := hothers.recover_eq hcs
  obtain rfl : w = v := Point.ofScalar_injective (hw.trans hv.symm)
  exact hrec'

/-- Two of three shares of the secret eleven, and the other way round. -/
theorem two_shares_bind :
    let dealing := Dealing.ofPolynomial [11, 3] (Point.ofScalar 11) 3
    let pairs := dealing.shares.map fun s => (s.publicShare, s.secret)
    Verified dealing.commitments (pairs.take 2) ∧ Verified dealing.commitments (pairs.drop 1) ∧
      ∃ v, Recovery.recover ((pairs.take 2).map fun s => (s.1.id, s.2)) = .ok v ∧
        Recovery.recover ((pairs.drop 1).map fun s => (s.1.id, s.2)) = .ok v := by
  intro dealing pairs
  have hfirst : Verified dealing.commitments (pairs.take 2) :=
    ⟨by decide +kernel, by decide +kernel, by decide +kernel, by decide +kernel⟩
  have hlast : Verified dealing.commitments (pairs.drop 1) :=
    ⟨by decide +kernel, by decide +kernel, by decide +kernel, by decide +kernel⟩
  obtain ⟨v, hrec, -, hothers⟩ := binds_secret (by decide +kernel) hfirst
  exact ⟨hfirst, hlast, v, hrec, hothers _ hlast⟩

end Verified

end KeyQuorum
