import KeyQuorum.Proofs.Sharing.Binding
import KeyQuorum.Proofs.Sharing.Survival
import KeyQuorum.Proofs.Sharing.Threshold

/-!
When a share holds against the commitments of a polynomial.

The committed points, each times its power of the share's place, come to the point of the
polynomial's value there: a sum of multiples of the generator is the multiple by the sum, from
whichever end the powers are taken. A scalar is known by its point. So a share holds just if its
secret is the value and its own point is the secret's, and a dealt share holds with its secret
alone.
-/

namespace KeyQuorum

/-- The commitments of a polynomial give the point of its value. -/
lemma Polynomial.evaluatePoints_commitments (power x : Scalar) (f : Polynomial) :
    evaluatePoints power x f.commitments = power • Point.ofScalar (f.evaluate x) := by
  induction f generalizing power with
  | nil =>
    have hzero : Point.ofScalar 0 = 0 := Point.ofScalar_zero
    rw [evaluate_nil, hzero, smul_zero]
    rfl
  | cons a f ih =>
    -- The place is taken out of the power on one side and out of the value on the other.
    calc evaluatePoints power x (Point.ofScalar a :: commitments f)
        = power • Point.ofScalar a + (power * x) • Point.ofScalar (evaluate f x) := by
          rw [← ih]
          rfl
      _ = power • Point.ofScalar (evaluate f x * x + a) := by
          simp only [Point.ofScalar_eq]
          module

namespace PublicShare

lemma verify_commitments_iff {f : Polynomial} (hf : f ≠ []) {id : UInt16} (hid : id ≠ 0)
    {point : Point} {secret : Scalar} : verify ⟨id, point, f.commitments⟩ secret = true ↔
      secret = f.evaluate (Scalar.ofId id) ∧ point = Point.ofScalar secret := by
  have hcommitments : f.commitments ≠ [] := mt List.map_eq_nil_iff.mp hf
  have hvalue : Polynomial.evaluatePoints 1 (Scalar.ofId id) f.commitments =
      Point.ofScalar (f.evaluate (Scalar.ofId id)) := by
    rw [Polynomial.evaluatePoints_commitments, one_smul]
  rw [verify_iff]
  simp only [hid, hcommitments, hvalue, ne_eq, not_false_eq_true, true_and]
  constructor
  · rintro ⟨rfl, hsame⟩
    exact ⟨Point.ofScalar_injective hsame.symm, rfl⟩
  · rintro ⟨rfl, rfl⟩
    exact ⟨rfl, rfl⟩

end PublicShare

namespace Dealing

variable {secret : Scalar} {threshold maxSigners : UInt32} {e e' : Entropy} {d : Dealing}
  {s : KeyShare}

lemma eq_of_mem_shares (h : deal secret threshold maxSigners e = .ok (d, e'))
    (hs : s ∈ d.shares) :
    s.id ≠ 0 ∧ s.secret = (polynomial secret threshold e).evaluate (Scalar.ofId s.id) ∧
      s.publicShare =
        ⟨s.id, Point.ofScalar s.secret, (polynomial secret threshold e).commitments⟩ := by
  obtain ⟨-, hadmissible, rfl⟩ := deal_eq_ok h
  obtain ⟨hid, hvalue⟩ := of_mem_shares hadmissible.count_lt hs
  refine ⟨hid, hvalue, ?_⟩
  obtain ⟨i, -, rfl⟩ := List.mem_map.mp hs
  rfl

lemma verify_iff_of_mem (h : deal secret threshold maxSigners e = .ok (d, e'))
    (hs : s ∈ d.shares) {v : Scalar} : s.publicShare.verify v = true ↔ v = s.secret := by
  obtain ⟨hid, hvalue, hpublic⟩ := eq_of_mem_shares h hs
  have hf : polynomial secret threshold e ≠ [] := List.cons_ne_nil _ _
  rw [hpublic, PublicShare.verify_commitments_iff hf hid, ← hvalue]
  refine ⟨And.left, fun hv => ⟨hv, ?_⟩⟩
  rw [hv]

end Dealing

/-- **Verification is exact**: against the commitments of a polynomial just its value at the
share's number holds, with the point of that value, and of a dealt share just its own secret. -/
theorem PublicShare.verifies_iff_value :
    (∀ (f : Polynomial) (id : UInt16) (point : Point) (secret : Scalar), f ≠ [] → id ≠ 0 →
      (verify ⟨id, point, f.commitments⟩ secret = true ↔
        secret = f.evaluate (Scalar.ofId id) ∧ point = Point.ofScalar secret)) ∧
    ∀ (secret : Scalar) (threshold maxSigners : UInt32) (e e' : Entropy) (d : Dealing),
      Dealing.deal secret threshold maxSigners e = .ok (d, e') →
      ∀ s ∈ d.shares, s.publicShare.verify s.secret = true ∧
        ∀ v, v ≠ s.secret → s.publicShare.verify v = false := by
  refine ⟨fun f id point secret hf hid => verify_commitments_iff hf hid,
    fun secret threshold maxSigners e e' d hdeal s hs => ⟨?_, fun v hv => ?_⟩⟩
  · exact (Dealing.verify_iff_of_mem hdeal hs).mpr rfl
  · exact Bool.eq_false_iff.mpr (mt (Dealing.verify_iff_of_mem hdeal hs).mp hv)

/-- The share at two of the polynomial `11 + 3 * x`, and the shares of the secret five. -/
theorem PublicShare.seventeen_verifies :
    (∀ secret, verify ⟨2, Point.ofScalar 17, Polynomial.commitments [11, 3]⟩ secret = true ↔
      secret = 17) ∧
    ∃ d e', Dealing.deal 5 2 3 (.ofBlocks [] .counting) = .ok (d, e') ∧
      ∀ s ∈ d.shares, s.publicShare.verify s.secret = true ∧
        s.publicShare.verify (s.secret + 1) = false := by
  obtain ⟨hvalue, hdealt⟩ := verifies_iff_value
  have hsecret : (5 : Scalar) ≠ 0 := by decide
  have hadmissible : Dealing.Admissible 2 3 := by decide
  obtain ⟨e', hdeal⟩ := Dealing.deal_of_admissible hsecret hadmissible (.ofBlocks [] .counting)
  refine ⟨fun secret => ?_, _, e', hdeal, fun s hs => ?_⟩
  · have hseventeen : Polynomial.evaluate [11, 3] (Scalar.ofId 2) = 17 := by decide
    rw [hvalue [11, 3] 2 _ secret (List.cons_ne_nil _ _) (by decide), hseventeen]
    refine ⟨And.left, fun h => ⟨h, ?_⟩⟩
    rw [h]
  · obtain ⟨hholds, hfails⟩ := hdealt 5 2 3 _ e' _ hdeal s hs
    exact ⟨hholds, hfails _ (add_ne_left.mpr one_ne_zero)⟩

end KeyQuorum
