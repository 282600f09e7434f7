import KeyQuorum.Proofs.Sharing.Verification

/-!
One share short of the threshold the secret never comes out.

The polynomial that is dealt has as many coefficients as the threshold says, and its last one is
not zero. Put together, the values at one place fewer miss its value at zero by the last
coefficient times a product of places, and neither of these is zero.
-/

namespace KeyQuorum

/-- Values of a polynomial with one coefficient more than there are values give something else
than its value at zero, unless the last coefficient is zero. -/
theorem Recovery.Sampled.recover_short {f : Polynomial} {shares : List (UInt16 × Scalar)}
    (h : Sampled f shares) (hne : shares ≠ []) (hlen : f.length = shares.length + 1)
    (hlast : f[shares.length]? ≠ some 0) :
    ∃ v, recover shares = .ok v ∧ v ≠ f.evaluate 0 := by
  set xs := (shares.map Prod.fst).map Scalar.ofId with hxs
  have hlength : xs.length = shares.length := by rw [hxs, List.length_map, List.length_map]
  have hdeg : (Polynomial.formal f).degree ≤ xs.length := by
    refine Order.le_of_lt_succ (lt_of_lt_of_le (Polynomial.degree_formal_lt f) ?_)
    rw [hlen, hlength]
    rfl
  have hcoeff : (Polynomial.formal f).coeff xs.length ≠ 0 := by
    have hlt : shares.length < f.length := by omega
    rw [List.getElem?_eq_getElem hlt] at hlast
    rw [Polynomial.coeff_formal, hlength, List.getElem?_eq_getElem hlt, Option.getD_some]
    exact fun h0 => hlast (congrArg some h0)
  have hplaces : (vanishing xs).eval 0 ≠ 0 := by
    refine eval_vanishing_ne_zero (zero_notMem_places fun id hid => ?_)
    obtain ⟨s, hs, rfl⟩ := List.mem_map.mp hid
    exact h.nonzero s hs
  refine ⟨_, h.recover_eq_sum hne, ?_⟩
  rw [← hxs, sum_weight_mul_eval_of_degree_le h.nodup_places hdeg, Polynomial.eval_formal, ne_eq,
    sub_eq_self]
  exact mul_ne_zero hcoeff hplaces

namespace Dealing

/-- **One share short of the threshold the secret never comes out**, whichever the shares are and
in whatever order: something is recovered, and it is not the secret that was dealt. -/
theorem recover_one_short (secret : Scalar) (hsecret : secret ≠ 0) {threshold maxSigners : UInt32}
    (h : Admissible threshold maxSigners) (htwo : 2 ≤ threshold) (e : Entropy) :
    ∃ d e', deal secret threshold maxSigners e = .ok (d, e') ∧
      ∀ ss : List KeyShare, ss ⊆ d.shares → (ss.map KeyShare.id).Nodup →
        ss.length + 1 = threshold.toNat →
        ∃ v, Recovery.recover (ss.map fun s => (s.id, s.secret)) = .ok v ∧
          v ≠ if (Point.ofScalar secret).oddY then -secret else secret := by
  obtain ⟨e', hdeal⟩ := deal_of_admissible hsecret h e
  refine ⟨_, e', hdeal, fun ss hsub hn hlen => ?_⟩
  set f := polynomial secret threshold e with hf
  have htwo : 2 ≤ threshold.toNat := UInt32.le_iff_toNat_le.mp htwo
  have hsampled := sampled_of_subset h.count_lt hsub hn
  have hlength : (ss.map fun s => (s.id, s.secret)).length = ss.length := List.length_map _
  have hcount : f.length = (ss.map fun s => (s.id, s.secret)).length + 1 := by
    rw [hf, length_polynomial secret h.1 e, hlength, hlen]
  have hlast : f[(ss.map fun s => (s.id, s.secret)).length]? ≠ some 0 := fun hzero =>
    ne_zero_of_mem_polynomial hsecret (List.mem_of_getElem? hzero) rfl
  obtain ⟨v, hv, hmiss⟩ :=
    hsampled.recover_short (List.ne_nil_of_length_pos (by omega)) hcount hlast
  refine ⟨v, hv, ?_⟩
  rw [hf, evaluate_polynomial_zero] at hmiss
  exact hmiss

/-- A single one of the shares of the secret five, of which two are needed. -/
theorem one_of_two_misses_five :
    (5 : Scalar) ≠ 0 ∧ Admissible 2 3 ∧ (2 : UInt32) ≤ 2 ∧
      ∃ d e', deal 5 2 3 (.ofBlocks [] .counting) = .ok (d, e') ∧
        ∀ s ∈ d.shares, ∃ v, Recovery.recover [(s.id, s.secret)] = .ok v ∧ v ≠ 5 := by
  have hsecret : (5 : Scalar) ≠ 0 := by decide
  have hadmissible : Admissible 2 3 := by decide
  have htwo : (2 : UInt32) ≤ 2 := by decide
  have heven : (Point.ofScalar 5).oddY = false := by decide +kernel
  obtain ⟨d, e', hdeal, hmiss⟩ :=
    recover_one_short 5 hsecret hadmissible htwo (.ofBlocks [] .counting)
  refine ⟨hsecret, hadmissible, htwo, d, e', hdeal, fun s hs => ?_⟩
  have hsub : [s] ⊆ d.shares := List.cons_subset.mpr ⟨hs, List.nil_subset _⟩
  have hfive := hmiss [s] hsub (List.nodup_singleton _) rfl
  rwa [heven, if_neg Bool.false_ne_true] at hfive

end Dealing

end KeyQuorum
