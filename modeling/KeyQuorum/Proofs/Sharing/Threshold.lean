import KeyQuorum.Proofs.Sharing.Interpolation
import KeyQuorum.Sharing.Dealing

/-!
Any shares of a dealing give the secret back, once there are as many as the threshold.

The shares are values of a polynomial with fewer coefficients than there are shares, so their
weighted sum is the value at zero, and that is the secret dealt.
-/

open scoped Polynomial

namespace KeyQuorum

namespace Polynomial

/-- The formal polynomial of a list of coefficients. -/
noncomputable def formal (f : Polynomial) : Scalar[X] :=
  f.foldr (fun a g => g * .X + .C a) 0

lemma eval_formal (f : Polynomial) (x : Scalar) : (formal f).eval x = evaluate f x := by
  induction f with
  | nil => exact Polynomial.eval_zero
  | cons a f ih =>
    rw [evaluate_cons, ← ih]
    show Polynomial.eval x (formal f * .X + .C a) = _
    rw [Polynomial.eval_add, Polynomial.eval_mul, Polynomial.eval_X, Polynomial.eval_C]

lemma coeff_formal (f : Polynomial) (k : ℕ) : (formal f).coeff k = f[k]?.getD 0 := by
  induction f generalizing k with
  | nil => exact Polynomial.coeff_zero k
  | cons a f ih =>
    show Polynomial.coeff (formal f * .X + .C a) k = _
    cases k with
    | zero => simp
    | succ k =>
      rw [Polynomial.coeff_add, Polynomial.coeff_mul_X, Polynomial.coeff_C_succ, add_zero, ih]
      rfl

lemma degree_formal_lt (f : Polynomial) : (formal f).degree < f.length := by
  rw [Polynomial.degree_lt_iff_coeff_zero]
  intro k hk
  rw [coeff_formal, List.getElem?_eq_none hk, Option.getD_none]

lemma formal_coeffs {g : Scalar[X]} {n : ℕ} (h : g.degree < n) :
    formal ((List.range n).map g.coeff) = g := by
  refine Polynomial.ext fun k => ?_
  rw [coeff_formal, List.getElem?_map]
  by_cases hk : k < n
  · rw [List.getElem?_range hk]
    rfl
  · have hnone : (List.range n)[k]? = none := List.getElem?_eq_none (by
      rw [List.length_range]
      exact Nat.le_of_not_lt hk)
    rw [hnone]
    exact ((Polynomial.degree_lt_iff_coeff_zero g n).mp h k (Nat.le_of_not_lt hk)).symm

lemma evaluate_zero (a : Scalar) (f : Polynomial) : evaluate (a :: f) 0 = a := by
  rw [evaluate_cons, mul_zero, zero_add]

end Polynomial

namespace Recovery

variable {f : Polynomial} {shares : List (UInt16 × Scalar)}

/-- Values of a polynomial at different numbers, none of which is zero. -/
structure Sampled (f : Polynomial) (shares : List (UInt16 × Scalar)) : Prop where
  nonzero : ∀ s ∈ shares, s.1 ≠ 0
  ids : (shares.map Prod.fst).Nodup
  values : ∀ s ∈ shares, s.2 = f.evaluate (Scalar.ofId s.1)

namespace Sampled

lemma nodup_places (h : Sampled f shares) : ((shares.map Prod.fst).map Scalar.ofId).Nodup :=
  h.ids.map ofId_injective

/-- Values of a polynomial come to the sum of what they weigh. -/
lemma recover_eq_sum (h : Sampled f shares) (hne : shares ≠ []) :
    let xs := (shares.map Prod.fst).map Scalar.ofId
    recover shares = .ok (xs.map fun x => (Polynomial.formal f).eval x * weight xs x).sum := by
  intro xs
  rw [recover_eq hne h.nonzero h.ids]
  simp only [xs, List.map_map]
  refine congrArg (Except.ok ∘ List.sum) (List.map_congr_left fun s hs => ?_)
  rw [h.values s hs, ← Polynomial.eval_formal]
  rfl

/-- Values of a polynomial with no more coefficients than there are values give its value at
zero. -/
theorem recover_eq (h : Sampled f shares) (hne : shares ≠ []) (hlen : f.length ≤ shares.length) :
    recover shares = .ok (f.evaluate 0) := by
  have hdeg : (Polynomial.formal f).degree < ((shares.map Prod.fst).map Scalar.ofId).length := by
    refine lt_of_lt_of_le (Polynomial.degree_formal_lt f) ?_
    rw [List.length_map, List.length_map]
    exact_mod_cast hlen
  rw [h.recover_eq_sum hne, sum_weight_mul_eval h.nodup_places hdeg, Polynomial.eval_formal]

end Sampled

end Recovery

namespace Dealing

variable {f : Polynomial} {group : Point} {count : ℕ} {s : KeyShare}

lemma of_mem_shares (hcount : count < 65536) (hs : s ∈ (ofPolynomial f group count).shares) :
    s.id ≠ 0 ∧ s.secret = f.evaluate (Scalar.ofId s.id) := by
  obtain ⟨i, hi, rfl⟩ := List.mem_map.mp hs
  refine ⟨fun h => ?_, rfl⟩
  have hval := congrArg UInt16.toNat h
  exact absurd ((toNat_number hcount (List.mem_range.mp hi)).symm.trans hval) (Nat.succ_ne_zero i)

lemma nodup_ids (hcount : count < 65536) (f : Polynomial) (group : Point) :
    ((ofPolynomial f group count).shares.map KeyShare.id).Nodup := by
  simp only [ofPolynomial, List.map_map]
  refine List.Nodup.map_on (fun i hi j hj h => ?_) List.nodup_range
  have hi := toNat_number hcount (List.mem_range.mp hi)
  have hj := toNat_number hcount (List.mem_range.mp hj)
  exact Nat.succ_injective (hi.symm.trans ((congrArg UInt16.toNat h).trans hj))

lemma sampled_of_subset (hcount : count < 65536) {ss : List KeyShare}
    (hsub : ss ⊆ (ofPolynomial f group count).shares) (hn : (ss.map KeyShare.id).Nodup) :
    Recovery.Sampled f (ss.map fun s => (s.id, s.secret)) where
  nonzero p hp := by
    obtain ⟨s, hs, rfl⟩ := List.mem_map.mp hp
    exact (of_mem_shares hcount (hsub hs)).1
  ids := by
    rw [List.map_map]
    exact hn
  values p hp := by
    obtain ⟨s, hs, rfl⟩ := List.mem_map.mp hp
    exact (of_mem_shares hcount (hsub hs)).2

/-! ### What is dealt -/

variable {secret : Scalar} {threshold maxSigners : UInt32} {e e' : Entropy} {d : Dealing}

/-- The polynomial that a secret is dealt under. -/
def polynomial (secret : Scalar) (threshold : UInt32) (e : Entropy) : Polynomial :=
  (Polynomial.random (canonical secret) threshold.toNat e).1

lemma Admissible.count_lt (h : Admissible threshold maxSigners) : maxSigners.toNat < 65536 :=
  Nat.lt_succ_of_le (UInt32.le_iff_toNat_le.mp h.2.2)

lemma deal_of_admissible (hsecret : secret ≠ 0) (h : Admissible threshold maxSigners)
    (e : Entropy) : ∃ e', deal secret threshold maxSigners e =
      .ok (ofPolynomial (polynomial secret threshold e) (Point.ofScalar (canonical secret))
        maxSigners.toNat, e') := by
  rw [deal, if_neg (not_not_intro h), if_neg hsecret]
  exact ⟨_, rfl⟩

lemma deal_eq_ok (h : deal secret threshold maxSigners e = .ok (d, e')) :
    secret ≠ 0 ∧ Admissible threshold maxSigners ∧
      d = ofPolynomial (polynomial secret threshold e) (Point.ofScalar (canonical secret))
        maxSigners.toNat := by
  unfold deal at h
  split at h
  · cases h
  · next hadmissible =>
    split at h
    · cases h
    · next hsecret =>
      have hd := congrArg Prod.fst (Except.ok.inj h)
      exact ⟨hsecret, not_not.mp hadmissible, hd.symm⟩

lemma length_shares (h : deal secret threshold maxSigners e = .ok (d, e')) :
    d.shares.length = maxSigners.toNat := by
  obtain ⟨-, -, rfl⟩ := deal_eq_ok h
  simp [ofPolynomial]

lemma length_polynomial (secret : Scalar) (h : threshold ≠ 0) (e : Entropy) :
    (polynomial secret threshold e).length = threshold.toNat := by
  have hpos : threshold.toNat ≠ 0 := fun h0 => h (UInt32.toNat_inj.mp h0)
  simp only [polynomial, Polynomial.random, List.length_cons, List.length_map,
    Entropy.length_drawScalars]
  omega

lemma evaluate_polynomial_zero (secret : Scalar) (threshold : UInt32) (e : Entropy) :
    (polynomial secret threshold e).evaluate 0 = canonical secret :=
  Polynomial.evaluate_zero _ _

/-- **Any shares recover the secret**, in any order, once they are as many as the threshold: what
comes out is the secret or its opposite, whichever has an even point. -/
theorem recover_of_threshold (secret : Scalar) (hsecret : secret ≠ 0)
    {threshold maxSigners : UInt32} (h : Admissible threshold maxSigners) (e : Entropy) :
    ∃ d e', deal secret threshold maxSigners e = .ok (d, e') ∧
      d.shares.length = maxSigners.toNat ∧ (d.shares.map KeyShare.id).Nodup ∧
      ∀ ss : List KeyShare, ss ⊆ d.shares → (ss.map KeyShare.id).Nodup →
        threshold.toNat ≤ ss.length →
        Recovery.recover (ss.map fun s => (s.id, s.secret)) =
          .ok (if (Point.ofScalar secret).oddY then -secret else secret) := by
  obtain ⟨e', hdeal⟩ := deal_of_admissible hsecret h e
  refine ⟨_, e', hdeal, length_shares hdeal, nodup_ids h.count_lt _ _, fun ss hsub hn hlen => ?_⟩
  have hsampled := sampled_of_subset h.count_lt hsub hn
  have hlength : (ss.map fun s => (s.id, s.secret)).length = ss.length := List.length_map _
  have hcount := length_polynomial secret h.1 e
  have hthreshold : threshold.toNat ≠ 0 := fun h0 => h.1 (UInt32.toNat_inj.mp h0)
  rw [hsampled.recover_eq (List.ne_nil_of_length_pos (by omega)) (by omega),
    evaluate_polynomial_zero]
  rfl

/-- The last two of three shares of the secret five, in reverse order. -/
theorem recover_five_of_two :
    (5 : Scalar) ≠ 0 ∧ Admissible 2 3 ∧
      ∃ d e', deal 5 2 3 (.ofBlocks [] .counting) = .ok (d, e') ∧
        Recovery.recover ((d.shares.drop 1).reverse.map fun s => (s.id, s.secret)) = .ok 5 := by
  have hsecret : (5 : Scalar) ≠ 0 := by decide
  have hadmissible : Admissible 2 3 := by decide
  have heven : (Point.ofScalar 5).oddY = false := by decide +kernel
  obtain ⟨d, e', hdeal, hlen, hn, hrec⟩ :=
    recover_of_threshold 5 hsecret hadmissible (.ofBlocks [] .counting)
  refine ⟨hsecret, hadmissible, d, e', hdeal, ?_⟩
  have hsub : (d.shares.drop 1).reverse ⊆ d.shares := by
    intro s hs
    exact List.mem_of_mem_drop (List.mem_reverse.mp hs)
  have hids : ((d.shares.drop 1).reverse.map KeyShare.id).Nodup := by
    rw [List.map_reverse, List.nodup_reverse]
    exact hn.sublist ((List.drop_sublist 1 d.shares).map _)
  have htwo : (2 : UInt32).toNat ≤ (d.shares.drop 1).reverse.length := by
    rw [List.length_reverse, List.length_drop, hlen]
    decide
  have hfive := hrec _ hsub hids htwo
  rwa [heven, if_neg Bool.false_ne_true] at hfive

end Dealing

end KeyQuorum
