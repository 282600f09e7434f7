import Mathlib.LinearAlgebra.Lagrange
import KeyQuorum.Proofs.Curve.Field
import KeyQuorum.Sharing.Recovery

/-!
Recovery as Lagrange interpolation at zero.

The weight of a place is the value at zero of its Lagrange basis polynomial. Places that are
pairwise different have weights, and under these the values of a polynomial of smaller degree
than there are places sum up to its value at zero.
-/

open scoped Polynomial

namespace KeyQuorum.Recovery

variable {xs : List Scalar} {x : Scalar}

/-- The weight of a place, as Lagrange has it. -/
noncomputable def weight (xs : List Scalar) (x : Scalar) : Scalar :=
  (Lagrange.basis xs.toFinset id x).eval 0

/-! ### The weights that are worked out -/

lemma product_sub_eq_zero {ys : List Scalar} : product (ys.map (· - x)) = 0 ↔ x ∈ ys := by
  induction ys with
  | nil => exact iff_of_false one_ne_zero List.not_mem_nil
  | cons y ys ih =>
    show (y - x) * product (ys.map (· - x)) = 0 ↔ x ∈ y :: ys
    rw [mul_eq_zero, sub_eq_zero, ih, List.mem_cons, eq_comm]

/-- A weight is wanting just if its place comes again at another. -/
lemma weight?_eq_none {j : ℕ} : weight? xs j x = none ↔ x ∈ xs.eraseIdx j := by
  rw [← product_sub_eq_zero, weight?]
  split
  · next hzero => exact iff_of_true rfl hzero
  · next hne => exact iff_of_false (Option.some_ne_none _) hne

lemma product_mul_inverse {ys : List Scalar} (h : ∀ y ∈ ys, y ≠ x) :
    product ys * Residue.inverse (product (ys.map (· - x))) =
      (ys.map fun y => (x - y)⁻¹ * (0 - y)).prod := by
  induction ys with
  | nil => exact mul_inv_cancel₀ one_ne_zero
  | cons y ys ih =>
    have hy : y - x ≠ 0 := sub_ne_zero.mpr (h y List.mem_cons_self)
    have hys : ∀ z ∈ ys, z ≠ x := fun z hz => h z (List.mem_cons_of_mem y hz)
    have hflip : (x - y)⁻¹ * (0 - y) = y * (y - x)⁻¹ := by
      rw [← neg_sub y x, inv_neg, zero_sub, neg_mul_neg, mul_comm]
    rw [List.map_cons, List.map_cons, List.prod_cons, ← ih hys, hflip]
    show y * product ys * ((y - x) * product (ys.map (· - x)))⁻¹ =
      y * (y - x)⁻¹ * (product ys * (product (ys.map (· - x)))⁻¹)
    rw [mul_inv]
    ring

lemma weight_eq (hn : xs.Nodup) (x : Scalar) :
    weight xs x = ((xs.filter (· ≠ x)).map fun y => (x - y)⁻¹ * (0 - y)).prod := by
  have herase : xs.toFinset.erase x = (xs.filter (· ≠ x)).toFinset := by
    ext y
    simp [and_comm]
  unfold weight Lagrange.basis Lagrange.basisDivisor
  rw [herase, List.prod_toFinset _ (hn.filter _), ← Polynomial.coe_evalRingHom, map_list_prod,
    List.map_map]
  refine congrArg List.prod (List.map_congr_left fun y _ => ?_)
  simp

lemma eraseIdx_eq_filter (hn : xs.Nodup) {j : ℕ} (hx : xs[j]? = some x) :
    xs.eraseIdx j = xs.filter (· ≠ x) := by
  obtain ⟨hj, rfl⟩ := List.getElem?_eq_some_iff.mp hx
  rw [← hn.erase_getElem j hj, hn.erase_eq_filter]
  exact List.filter_congr fun y _ => by rw [bne, beq_eq_decide, decide_not]

lemma weight?_eq (hn : xs.Nodup) {j : ℕ} (hx : xs[j]? = some x) :
    weight? xs j x = some (weight xs x) := by
  have hothers := eraseIdx_eq_filter hn hx
  have hne : ∀ y ∈ xs.filter (· ≠ x), y ≠ x := fun y hy => by simpa using (List.mem_filter.mp hy).2
  have hdenominator : product ((xs.filter (· ≠ x)).map (· - x)) ≠ 0 := fun hzero =>
    hne x (product_sub_eq_zero.mp hzero) rfl
  rw [weight?, hothers, if_neg hdenominator, product_mul_inverse hne, weight_eq hn]

/-- The sum from a place on, with the places from there on those of the points. -/
lemma weightedSum?_eq (hn : xs.Nodup) {points : List (Scalar × Scalar)} {j : ℕ}
    (hplaces : xs.drop j = points.map Prod.fst) :
    weightedSum? xs j points = some (points.map fun p => p.2 * weight xs p.1).sum := by
  induction points generalizing j with
  | nil => rfl
  | cons p points ih =>
    obtain ⟨x, y⟩ := p
    have hx : xs[j]? = some x := by
      rw [← List.head?_drop, hplaces]
      rfl
    have hrest : xs.drop (j + 1) = points.map Prod.fst := by
      rw [← List.tail_drop, hplaces]
      rfl
    simp only [weightedSum?, weight?_eq hn hx, ih hrest, List.map_cons, List.sum_cons]
    rfl

/-! ### Lagrange's theorem -/

/-- **Interpolation at zero**: the weighted values of a polynomial give its value at zero. -/
theorem sum_weight_mul_eval (hn : xs.Nodup) {g : Scalar[X]} (hdeg : g.degree < xs.length) :
    (xs.map fun x => g.eval x * weight xs x).sum = g.eval 0 := by
  have hcard : g.degree < xs.toFinset.card := by rwa [List.toFinset_card_of_nodup hn]
  have hinj : Set.InjOn (id : Scalar → Scalar) xs.toFinset := Set.injOn_id _
  have heval := congrArg (Polynomial.eval 0) (Lagrange.eq_interpolate hinj hcard)
  rw [Lagrange.interpolate_apply, Polynomial.eval_finsetSum, List.sum_toFinset _ hn] at heval
  simp only [Polynomial.eval_mul, Polynomial.eval_C] at heval
  exact heval.symm

/-! ### One place short -/

/-- The polynomial that is zero at the places and nowhere else. -/
noncomputable def vanishing (xs : List Scalar) : Scalar[X] := Lagrange.nodal xs.toFinset id

lemma eval_vanishing (hx : x ∈ xs) : (vanishing xs).eval x = 0 :=
  Lagrange.eval_nodal_at_node (v := id) (List.mem_toFinset.mpr hx)

lemma eval_vanishing_ne_zero (hx : x ∉ xs) : (vanishing xs).eval x ≠ 0 :=
  Lagrange.eval_nodal_not_at_node fun _ hy hxy =>
    hx (hxy ▸ List.mem_toFinset.mp hy)

lemma natDegree_vanishing (hn : xs.Nodup) : (vanishing xs).natDegree = xs.length := by
  rw [vanishing, Lagrange.natDegree_nodal, List.toFinset_card_of_nodup hn]

lemma coeff_vanishing (hn : xs.Nodup) : (vanishing xs).coeff xs.length = 1 := by
  rw [← natDegree_vanishing hn]
  exact Lagrange.nodal_monic

/-- **Interpolation with one place too few**: the weighted values of a polynomial miss its value
at zero by what its leading term adds there. -/
theorem sum_weight_mul_eval_of_degree_le (hn : xs.Nodup) {g : Scalar[X]}
    (hdeg : g.degree ≤ xs.length) :
    (xs.map fun x => g.eval x * weight xs x).sum =
      g.eval 0 - g.coeff xs.length * (vanishing xs).eval 0 := by
  -- Without its leading term the polynomial has a small degree, and the same values.
  set h := g - .C (g.coeff xs.length) * vanishing xs with hh
  have hsmall : h.degree < xs.length := by
    rw [Polynomial.degree_lt_iff_coeff_zero]
    intro k hk
    rcases hk.eq_or_lt with rfl | hlt
    · rw [hh, Polynomial.coeff_sub, Polynomial.coeff_C_mul, coeff_vanishing hn, mul_one, sub_self]
    · have hg : g.coeff k = 0 :=
        Polynomial.coeff_eq_zero_of_degree_lt (hdeg.trans_lt (by exact_mod_cast hlt))
      have hv : (vanishing xs).coeff k = 0 :=
        Polynomial.coeff_eq_zero_of_natDegree_lt ((natDegree_vanishing hn).trans_lt hlt)
      rw [hh, Polynomial.coeff_sub, Polynomial.coeff_C_mul, hg, hv, mul_zero, sub_zero]
  have hsame : ∀ x ∈ xs, g.eval x * weight xs x = h.eval x * weight xs x := by
    intro x hx
    rw [hh, Polynomial.eval_sub, Polynomial.eval_mul, eval_vanishing hx, mul_zero, sub_zero]
  rw [List.map_congr_left hsame, sum_weight_mul_eval hn hsmall, hh, Polynomial.eval_sub,
    Polynomial.eval_mul, Polynomial.eval_C]

/-! ### What is refused -/

lemma badId?_eq_none {ids : List UInt16} (hzero : ∀ id ∈ ids, id ≠ 0) (hn : ids.Nodup) :
    badId? ids = none := by
  induction ids with
  | nil => rfl
  | cons id ids ih =>
    obtain ⟨hid, hn⟩ := List.nodup_cons.mp hn
    rw [badId?, if_neg (hzero id List.mem_cons_self), if_neg hid]
    exact ih (fun z hz => hzero z (List.mem_cons_of_mem id hz)) hn

lemma ofId_injective : Function.Injective Scalar.ofId := by
  intro a b h
  have ha : a.toNat < groupOrder := a.toNat_lt.trans (by decide)
  have hb : b.toNat < groupOrder := b.toNat_lt.trans (by decide)
  have hval := congrArg Fin.val h
  simp only [Scalar.ofId, Fin.ofNat, Nat.mod_eq_of_lt ha, Nat.mod_eq_of_lt hb] at hval
  exact UInt16.toNat_inj.mp hval

lemma zero_notMem_places {ids : List UInt16} (h : ∀ id ∈ ids, id ≠ 0) :
    0 ∉ ids.map Scalar.ofId := by
  intro h0
  obtain ⟨id, hid, h0⟩ := List.mem_map.mp h0
  exact h id hid (ofId_injective h0)

lemma map_fst_points (shares : List (UInt16 × Scalar)) :
    (shares.map fun s => (Scalar.ofId s.1, s.2)).map Prod.fst =
      (shares.map Prod.fst).map Scalar.ofId := by
  rw [List.map_map, List.map_map]
  rfl

/-- Shares of different numbers are recovered from by Lagrange's weights. -/
theorem recover_eq {shares : List (UInt16 × Scalar)} (hne : shares ≠ [])
    (hzero : ∀ s ∈ shares, s.1 ≠ 0) (hn : (shares.map Prod.fst).Nodup) :
    let xs := (shares.map Prod.fst).map Scalar.ofId
    recover shares = .ok (shares.map fun s => s.2 * weight xs (Scalar.ofId s.1)).sum := by
  intro xs
  have hxs : xs.Nodup := hn.map ofId_injective
  have hplaces : (shares.map fun s => (Scalar.ofId s.1, s.2)).map Prod.fst = xs :=
    map_fst_points shares
  have hids : ∀ id ∈ shares.map Prod.fst, id ≠ 0 := by
    intro id hid
    obtain ⟨s, hs, rfl⟩ := List.mem_map.mp hid
    exact hzero s hs
  rw [recover, if_neg (by simpa using hne), badId?_eq_none hids hn]
  simp only [hplaces, weightedSum?_eq hxs (List.drop_zero.trans hplaces.symm), List.map_map]
  rfl

end KeyQuorum.Recovery
