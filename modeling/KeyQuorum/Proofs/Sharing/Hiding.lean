import Mathlib.Data.Set.Card
import KeyQuorum.Proofs.Sharing.Survival
import KeyQuorum.Proofs.Sharing.Threshold

/-!
What fewer shares than the threshold tell about the secret.

Through their values there goes a polynomial for every value at zero, since multiples of the
polynomial that vanishes at their places can be added. With this alone they would tell nothing.
But no coefficient that is dealt is zero, so they do exclude the secrets for which all polynomials
through the values agree that some coefficient is zero. No coefficient excludes more than one
secret, and none excludes any while twice as many shares are still fewer than the threshold.
-/

open scoped Polynomial

namespace KeyQuorum.Dealing

variable {secret s s' c c' : Scalar} {threshold maxSigners : UInt32}
  {view : List (UInt16 × Scalar)} {t i : ℕ} {f g g' q : Scalar[X]}

/-- A secret that is dealt as it is. -/
def IsCanonical (s : Scalar) : Prop := s ≠ 0 ∧ (Point.ofScalar s).oddY = false

lemma IsCanonical.canonical_eq (h : IsCanonical s) : canonical s = s :=
  if_neg (Bool.eq_false_iff.mp h.2)

/-- Numbers and secrets of shares, as a secret is dealt to them under some draws. -/
def Seen (secret : Scalar) (threshold maxSigners : UInt32) (view : List (UInt16 × Scalar)) : Prop :=
  ∃ e d e', deal secret threshold maxSigners e = .ok (d, e') ∧
    view ⊆ d.shares.map fun s => (s.id, s.secret)

def Numbered (maxSigners : UInt32) (view : List (UInt16 × Scalar)) : Prop :=
  ∀ p ∈ view, p.1 ≠ 0 ∧ p.1.toNat ≤ maxSigners.toNat

/-! ### The coefficients that can be drawn -/

lemma exists_polynomial (secret : Scalar) {cs : List Scalar} (hcs : ∀ a ∈ cs, a ≠ 0)
    (hlen : cs.length + 1 = threshold.toNat) :
    ∃ e, polynomial secret threshold e = canonical secret :: cs := by
  lift cs to List UnitScalar using hcs
  set e : Entropy := .ofBlocks (cs.map fun a => Residue.toBlock a.1) .counting
  have husable : ∀ i (hi : i < cs.length),
      UnitScalar.ofBlock? (e.block (e.used + i)) = some cs[i] := by
    intro i hi
    have hblock : e.block (e.used + i) = Residue.toBlock cs[i].1 := by
      show ((cs.map fun a => Residue.toBlock a.1)[0 + i]?).getD _ = _
      rw [Nat.zero_add, List.getElem?_map, List.getElem?_eq_getElem hi]
      rfl
    rw [hblock, UnitScalar.ofBlock?_toBlock]
  rw [List.length_map] at hlen
  refine ⟨e, ?_⟩
  rw [polynomial, Polynomial.random, ← hlen, Nat.add_sub_cancel,
    Entropy.drawScalars_of_usable husable]

lemma mem_values_iff {f : Polynomial} {group : Point} {count : ℕ} (hcount : count < 65536)
    {p : UInt16 × Scalar} :
    p ∈ ((ofPolynomial f group count).shares.map fun s => (s.id, s.secret)) ↔
      (p.1 ≠ 0 ∧ p.1.toNat ≤ count) ∧ p.2 = f.evaluate (Scalar.ofId p.1) := by
  constructor
  · intro hp
    obtain ⟨s, hs, rfl⟩ := List.mem_map.mp hp
    obtain ⟨hid, hvalue⟩ := of_mem_shares hcount hs
    refine ⟨⟨hid, ?_⟩, hvalue⟩
    obtain ⟨i, hi, rfl⟩ := List.mem_map.mp hs
    have hi : i < count := List.mem_range.mp hi
    exact (toNat_number hcount hi).le.trans hi
  · rintro ⟨⟨hid, hle⟩, hvalue⟩
    -- The share of a number stands one place before it.
    have hpos : p.1.toNat ≠ 0 := fun h0 => hid (UInt16.toNat_inj.mp h0)
    have hnumber : UInt16.ofNat (p.1.toNat - 1 + 1) = p.1 := by
      rw [Nat.sub_add_cancel (Nat.pos_of_ne_zero hpos), UInt16.ofNat_toNat]
    refine List.mem_map.mpr ⟨_, List.mem_map.mpr
      ⟨p.1.toNat - 1, List.mem_range.mpr (by omega), rfl⟩, ?_⟩
    rw [hnumber]
    exact Prod.ext rfl hvalue.symm

lemma seen_iff_coefficients : Seen secret threshold maxSigners view ↔
    secret ≠ 0 ∧ Admissible threshold maxSigners ∧ Numbered maxSigners view ∧
      ∃ cs : List Scalar, (∀ a ∈ cs, a ≠ 0) ∧ cs.length + 1 = threshold.toNat ∧
        ∀ p ∈ view, p.2 = Polynomial.evaluate (canonical secret :: cs) (Scalar.ofId p.1) := by
  constructor
  · rintro ⟨e, d, e', hdeal, hsub⟩
    obtain ⟨hsecret, hadmissible, rfl⟩ := deal_eq_ok hdeal
    have hvalues := fun p hp => (mem_values_iff hadmissible.count_lt).mp (hsub (a := p) hp)
    refine ⟨hsecret, hadmissible, fun p hp => (hvalues p hp).1, _, fun a ha => ?_, ?_,
      fun p hp => (hvalues p hp).2⟩
    · exact ne_zero_of_mem_polynomial hsecret (List.mem_cons_of_mem _ ha)
    · exact length_polynomial secret hadmissible.1 e
  · rintro ⟨hsecret, hadmissible, hnumbered, cs, hcs, hlen, hvalues⟩
    obtain ⟨e, he⟩ := exists_polynomial secret hcs hlen
    obtain ⟨e', hdeal⟩ := deal_of_admissible hsecret hadmissible e
    refine ⟨e, _, e', hdeal, fun p hp => ?_⟩
    rw [he]
    exact (mem_values_iff hadmissible.count_lt).mpr ⟨hnumbered p hp, hvalues p hp⟩

/-! ### Polynomials through what is seen -/

/-- A polynomial of degree below `t` that has the values of a view, and `c` at zero. -/
structure Through (view : List (UInt16 × Scalar)) (t : ℕ) (c : Scalar) (g : Scalar[X]) : Prop where
  degree : g.degree < t
  constant : g.eval 0 = c
  values : ∀ p ∈ view, g.eval (Scalar.ofId p.1) = p.2

lemma through_formal {cs : List Scalar} (hlen : cs.length + 1 = t)
    (hvalues : ∀ p ∈ view, p.2 = Polynomial.evaluate (c :: cs) (Scalar.ofId p.1)) :
    Through view t c (Polynomial.formal (c :: cs)) where
  degree := hlen ▸ Polynomial.degree_formal_lt (c :: cs)
  constant := by rw [Polynomial.eval_formal, Polynomial.evaluate_zero]
  values p hp := by rw [Polynomial.eval_formal, hvalues p hp]

lemma Through.formal_coeffs {n : ℕ} (h : Through view (n + 1) c g) :
    Polynomial.formal (c :: (List.range n).map (g.coeff ∘ Nat.succ)) = g := by
  rw [← h.constant, ← Polynomial.coeff_zero_eq_eval_zero, ← List.map_map, ← List.map_cons,
    ← List.range_succ_eq_map, Polynomial.formal_coeffs h.degree]

/-- What can be seen are the values of the polynomials without a zero among their coefficients. -/
lemma seen_iff_through : Seen secret threshold maxSigners view ↔
    secret ≠ 0 ∧ Admissible threshold maxSigners ∧ Numbered maxSigners view ∧
      ∃ g, Through view threshold.toNat (canonical secret) g ∧
        ∀ i, 0 < i → i < threshold.toNat → g.coeff i ≠ 0 := by
  rw [seen_iff_coefficients]
  refine and_congr_right fun _ => and_congr_right fun hadmissible => and_congr_right fun _ =>
    ⟨?_, ?_⟩
  · rintro ⟨cs, hcs, hlen, hvalues⟩
    refine ⟨_, through_formal hlen hvalues, fun i hpos hi => ?_⟩
    obtain ⟨j, rfl⟩ : ∃ j, i = j + 1 := ⟨i - 1, by omega⟩
    have hj : j < cs.length := by omega
    rw [Polynomial.coeff_formal, List.getElem?_cons_succ, List.getElem?_eq_getElem hj]
    exact hcs _ (List.getElem_mem hj)
  · rintro ⟨g, hg, hcoeff⟩
    obtain ⟨n, hn⟩ : ∃ n, threshold.toNat = n + 1 :=
      Nat.exists_eq_succ_of_ne_zero fun h0 => hadmissible.1 (UInt32.toNat_inj.mp h0)
    rw [hn] at hg hcoeff ⊢
    refine ⟨(List.range n).map (g.coeff ∘ Nat.succ), fun a ha => ?_,
      by rw [List.length_map, List.length_range], fun p hp => ?_⟩
    · obtain ⟨i, hi, rfl⟩ := List.mem_map.mp ha
      exact hcoeff (i + 1) (Nat.succ_pos i) (Nat.succ_lt_succ (List.mem_range.mp hi))
    · rw [← Polynomial.eval_formal, hg.formal_coeffs, hg.values p hp]

namespace Through

lemma add (h : Through view t c g) (hdeg : q.degree < t)
    (hzero : ∀ p ∈ view, q.eval (Scalar.ofId p.1) = 0) : Through view t (c + q.eval 0) (g + q) where
  degree := (Polynomial.degree_add_le g q).trans_lt (max_lt h.degree hdeg)
  constant := by rw [Polynomial.eval_add, h.constant]
  values p hp := by rw [Polynomial.eval_add, h.values p hp, hzero p hp, add_zero]

lemma line (h : Through view t c g) (h' : Through view t c g') (a : Scalar) :
    Through view t c (g + .C a * (g' - g)) := by
  have hdeg : (.C a * (g' - g)).degree < (t : WithBot ℕ) :=
    (Polynomial.degree_mul_le_of_le Polynomial.degree_C_le le_rfl).trans_lt (by
      rw [zero_add]
      exact (Polynomial.degree_sub_le g' g).trans_lt (max_lt h'.degree h.degree))
  have hline := h.add hdeg fun p hp => by
    rw [Polynomial.eval_mul, Polynomial.eval_sub, h.values p hp, h'.values p hp, sub_self, mul_zero]
  rwa [Polynomial.eval_mul, Polynomial.eval_sub, h.constant, h'.constant, sub_self, mul_zero,
    add_zero] at hline

/-- If some coefficients are each other than zero for a polynomial, then for one polynomial they
all are. -/
lemma exists_coeff_ne_zero (h : Through view t c g) {S : Finset ℕ} (hcard : S.card < groupOrder)
    (hS : ∀ i ∈ S, ∃ g, Through view t c g ∧ g.coeff i ≠ 0) :
    ∃ g, Through view t c g ∧ ∀ i ∈ S, g.coeff i ≠ 0 := by
  induction S using Finset.induction_on with
  | empty => exact ⟨g, h, by simp⟩
  | insert i S hi ih =>
    obtain ⟨g, hg, hcoeff⟩ := ih ((Finset.card_le_card (Finset.subset_insert i S)).trans_lt hcard)
      fun j hj => hS j (Finset.mem_insert_of_mem hj)
    obtain ⟨g', hg', hcoeff'⟩ := hS i (Finset.mem_insert_self i S)
    -- Each coefficient is zero for at most one point of the line, so there is a point left.
    set roots := (insert i S).image fun j => g.coeff j * (g.coeff j - g'.coeff j)⁻¹ with hroots
    have hlt : roots.card < (Finset.univ : Finset Scalar).card := by
      rw [Finset.card_univ, Fintype.card_fin]
      exact Finset.card_image_le.trans_lt hcard
    obtain ⟨a, -, ha⟩ := Finset.exists_mem_notMem_of_card_lt_card hlt
    refine ⟨_, hg.line hg' a, fun j hj hzero => ?_⟩
    rw [Polynomial.coeff_add, Polynomial.coeff_C_mul, Polynomial.coeff_sub] at hzero
    by_cases hsame : g.coeff j = g'.coeff j
    · have hg0 : g.coeff j = 0 := by linear_combination hzero + a * hsame
      rcases Finset.mem_insert.mp hj with rfl | hj
      · exact hcoeff' (hsame ▸ hg0)
      · exact hcoeff j hj hg0
    · refine ha (Finset.mem_image.mpr ⟨j, hj, ?_⟩)
      rw [mul_inv_eq_iff_eq_mul₀ (sub_ne_zero.mpr hsame)]
      linear_combination hzero

end Through

/-! ### The secrets that are excluded -/

/-- The polynomial that vanishes at the places of a view. -/
noncomputable def blind (view : List (UInt16 × Scalar)) : Scalar[X] :=
  Recovery.vanishing ((view.map Prod.fst).map Scalar.ofId)

section Blind

variable (hids : (view.map Prod.fst).Nodup)
include hids

lemma natDegree_blind : (blind view).natDegree = view.length := by
  rw [blind, Recovery.natDegree_vanishing (hids.map Recovery.ofId_injective), List.length_map,
    List.length_map]

lemma coeff_blind : (blind view).coeff view.length = 1 := by
  have hcoeff := Recovery.coeff_vanishing (hids.map Recovery.ofId_injective)
  rwa [List.length_map, List.length_map] at hcoeff

lemma Through.add_mul_blind (h : Through view t c g) (hdeg : q.natDegree + view.length < t) :
    Through view t (c + q.eval 0 * (blind view).eval 0) (g + q * blind view) := by
  have hlt : (q * blind view).degree < t := by
    refine Polynomial.degree_le_natDegree.trans_lt ?_
    refine lt_of_le_of_lt (Nat.cast_le.mpr Polynomial.natDegree_mul_le) ?_
    rw [natDegree_blind hids]
    exact_mod_cast hdeg
  have hadd := h.add hlt fun p hp => by
    rw [Polynomial.eval_mul, blind, Recovery.eval_vanishing, mul_zero]
    exact List.mem_map_of_mem (List.mem_map_of_mem hp)
  rwa [Polynomial.eval_mul] at hadd

end Blind

lemma eval_blind_ne_zero (h : Numbered maxSigners view) : (blind view).eval 0 ≠ 0 := by
  refine Recovery.eval_vanishing_ne_zero (Recovery.zero_notMem_places fun id hid => ?_)
  obtain ⟨p, hp, rfl⟩ := List.mem_map.mp hid
  exact (h p hp).1

section Excluded

variable (hnumbered : Numbered maxSigners view) (hids : (view.map Prod.fst).Nodup)
include hnumbered hids

lemma Through.shift (h : Through view t s f) (hlen : view.length < t) (c : Scalar) :
    Through view t c (f + .C ((c - s) * ((blind view).eval 0)⁻¹) * blind view) := by
  have hshift := h.add_mul_blind hids (q := .C ((c - s) * ((blind view).eval 0)⁻¹))
    (by rwa [Polynomial.natDegree_C, Nat.zero_add])
  rwa [Polynomial.eval_C, inv_mul_cancel_right₀ (eval_blind_ne_zero hnumbered),
    add_sub_cancel] at hshift

/-- **No coefficient excludes two secrets**, once it is not zero for some secret. -/
lemma Through.excluded_unique (h : Through view t s f) (hlen : view.length < t)
    (hi : f.coeff i ≠ 0) (hc : ∀ g, Through view t c g → g.coeff i = 0)
    (hc' : ∀ g, Through view t c' g → g.coeff i = 0) : c = c' := by
  have hroot := hc _ (h.shift hnumbered hids hlen c)
  have hroot' := hc' _ (h.shift hnumbered hids hlen c')
  have hne := eval_blind_ne_zero hnumbered
  rw [Polynomial.coeff_add, Polynomial.coeff_C_mul] at hroot hroot'
  have hblind : (blind view).coeff i ≠ 0 := by
    intro h0
    rw [h0, mul_zero, add_zero] at hroot
    exact hi hroot
  -- Both secrets are that far from the one seen as takes the coefficient to zero.
  have hratio : (c - s) * ((blind view).eval 0)⁻¹ = (c' - s) * ((blind view).eval 0)⁻¹ :=
    mul_right_cancel₀ hblind (by linear_combination hroot - hroot')
  exact sub_left_injective (mul_right_cancel₀ (inv_ne_zero hne) hratio)

/-- With fewer than half as many shares as coefficients, each coefficient is other than zero for
some polynomial. -/
lemma Through.exists_coeff_of_few (h : Through view t c g) (hlen : 2 * view.length < t)
    (hpos : 0 < i) (hi : i < t) : ∃ g, Through view t c g ∧ g.coeff i ≠ 0 := by
  by_cases hzero : g.coeff i = 0
  · obtain ⟨m, hm, hdeg, hcoeff⟩ : ∃ m, 0 < m ∧ m + view.length < t ∧
        (.X ^ m * blind view : Scalar[X]).coeff i ≠ 0 := by
      -- Either the first or the last coefficient of the blind polynomial is moved there.
      by_cases hfirst : i + view.length < t
      · refine ⟨i, hpos, hfirst, ?_⟩
        rw [Polynomial.coeff_X_pow_mul', if_pos le_rfl, Nat.sub_self,
          Polynomial.coeff_zero_eq_eval_zero]
        exact eval_blind_ne_zero hnumbered
      · refine ⟨i - view.length, by omega, by omega, ?_⟩
        rw [Polynomial.coeff_X_pow_mul', if_pos (Nat.sub_le _ _), Nat.sub_sub_self (by omega),
          coeff_blind hids]
        exact one_ne_zero
    have hadd := h.add_mul_blind hids (q := .X ^ m) (by rwa [Polynomial.natDegree_X_pow])
    rw [Polynomial.eval_pow, Polynomial.eval_X, zero_pow hm.ne', zero_mul, add_zero] at hadd
    refine ⟨_, hadd, ?_⟩
    rwa [Polynomial.coeff_add, hzero, zero_add]
  · exact ⟨g, h, hzero⟩

/-- The secrets that a coefficient excludes are fewer than the coefficients, once a secret is
seen. -/
lemma Through.ncard_excluded_lt (h : Through view t s f) (hlen : view.length < t)
    (hcoeff : ∀ i, 0 < i → i < t → f.coeff i ≠ 0) {excluded : Set Scalar}
    (hzero : ∀ c ∈ excluded, ∃ i, i ∈ Finset.Ico 1 t ∧ ∀ g, Through view t c g → g.coeff i = 0) :
    excluded.ncard < t := by
  choose! index hindex hzero using hzero
  -- Each excluded secret has a coefficient of its own, and there are fewer of these.
  have hinj : Set.InjOn index excluded := by
    intro c hc c' hc' hsame
    obtain ⟨hpos, hi⟩ := Finset.mem_Ico.mp (hindex c hc)
    exact h.excluded_unique hnumbered hids hlen (hcoeff _ hpos hi) (hzero c hc)
      (hsame ▸ hzero c' hc')
  have hcard := Set.ncard_le_ncard_of_injOn (t := ↑(Finset.Ico 1 t)) index hindex hinj
  rw [Set.ncard_coe_finset, Nat.card_Ico] at hcard
  omega

lemma Through.seen_iff (h : Through view threshold.toNat s f)
    (hadmissible : Admissible threshold maxSigners) (hlen : view.length < threshold.toNat)
    (hs' : IsCanonical s') : Seen s' threshold maxSigners view ↔
      ∀ i, 0 < i → i < threshold.toNat →
        ∃ g, Through view threshold.toNat s' g ∧ g.coeff i ≠ 0 := by
  rw [seen_iff_through, hs'.canonical_eq]
  constructor
  · rintro ⟨-, -, -, g, hg, hne⟩ i hpos hi
    exact ⟨g, hg, hne i hpos hi⟩
  · intro hall
    have hcard : (Finset.Ico 1 threshold.toNat).card < groupOrder := by
      rw [Nat.card_Ico]
      exact (Nat.sub_le _ _).trans_lt (threshold.toNat_lt.trans (by decide))
    obtain ⟨g, hg, hne⟩ := (h.shift hnumbered hids hlen s').exists_coeff_ne_zero hcard
      fun i hi => hall i (Finset.mem_Ico.mp hi).1 (Finset.mem_Ico.mp hi).2
    exact ⟨hs'.1, hadmissible, hnumbered, g, hg,
      fun i hpos hi => hne i (Finset.mem_Ico.mpr ⟨hpos, hi⟩)⟩

end Excluded

/-- **What is seen of fewer shares than the threshold**, dealt of one secret, can be seen of any
other but those that it excludes: for them some coefficient is zero of all polynomials through
the values. They are fewer than the coefficients, and there are none if twice as many shares are
still fewer than the threshold. -/
theorem hides_up_to_zeros (hseen : Seen s threshold maxSigners view)
    (hids : (view.map Prod.fst).Nodup) (hlen : view.length < threshold.toNat) :
    (∀ s', IsCanonical s' → (Seen s' threshold maxSigners view ↔
      ∀ i, 0 < i → i < threshold.toNat →
        ∃ g, Through view threshold.toNat s' g ∧ g.coeff i ≠ 0)) ∧
    {s' | IsCanonical s' ∧ ¬ Seen s' threshold maxSigners view}.ncard < threshold.toNat ∧
    (2 * view.length < threshold.toNat →
      ∀ s', IsCanonical s' → Seen s' threshold maxSigners view) := by
  obtain ⟨-, hadmissible, hnumbered, f, hf, hcoeff⟩ := seen_iff_through.mp hseen
  have hiff := fun s' (hs' : IsCanonical s') =>
    hf.seen_iff hnumbered hids hadmissible hlen hs'
  refine ⟨hiff, hf.ncard_excluded_lt hnumbered hids hlen hcoeff ?_, fun hfew s' hs' => ?_⟩
  · rintro s' ⟨hs', hunseen⟩
    rw [hiff s' hs'] at hunseen
    push Not at hunseen
    obtain ⟨i, hpos, hi, hzero⟩ := hunseen
    exact ⟨i, Finset.mem_Ico.mpr ⟨hpos, hi⟩, hzero⟩
  · refine (hiff s' hs').mpr fun i hpos hi => ?_
    exact (hf.shift hnumbered hids hlen s').exists_coeff_of_few hnumbered hids hfew hpos hi

/-- One of three shares of the secret one, of which three are needed: the secret two is not
excluded. -/
theorem three_of_one_or_two :
    Seen 1 3 3 [(1, 3)] ∧ ([((1 : UInt16), (3 : Scalar))].map Prod.fst).Nodup ∧
      1 < (3 : UInt32).toNat ∧
      {s' | IsCanonical s' ∧ ¬ Seen s' 3 3 [(1, 3)]}.ncard < 3 ∧ Seen 2 3 3 [(1, 3)] := by
  have hseen : Seen 1 3 3 [(1, 3)] := by
    refine seen_iff_coefficients.mpr ⟨by decide, by decide, ?_, [1, 1], by simp, rfl, ?_⟩
    · exact List.forall_mem_singleton.mpr (by decide)
    · rw [canonical_one]
      exact List.forall_mem_singleton.mpr (by decide)
  have hids : ([((1 : UInt16), (3 : Scalar))].map Prod.fst).Nodup := List.nodup_singleton 1
  have hlen : 1 < (3 : UInt32).toNat := by decide
  have htwo : IsCanonical 2 := ⟨by decide, by decide +kernel⟩
  obtain ⟨-, hcount, hfew⟩ := hides_up_to_zeros hseen hids hlen
  exact ⟨hseen, hids, hlen, hcount, hfew (by decide) 2 htwo⟩

/-- Of the secret one the first share can be two, of the secret two it cannot. -/
theorem two_excluded_by_two : IsCanonical 1 ∧ IsCanonical 2 ∧
    Seen 1 2 2 [(1, 2)] ∧ ¬ Seen 2 2 2 [(1, 2)] := by
  have hone : IsCanonical 1 := ⟨by decide, by decide +kernel⟩
  have htwo : IsCanonical 2 := ⟨by decide, by decide +kernel⟩
  refine ⟨hone, htwo, ?_, fun hseen => ?_⟩
  · refine seen_iff_coefficients.mpr ⟨hone.1, by decide, ?_, [1], by simp, rfl, ?_⟩
    · exact List.forall_mem_singleton.mpr (by decide)
    · rw [hone.canonical_eq]
      exact List.forall_mem_singleton.mpr (by decide)
  · obtain ⟨-, -, -, cs, hcs, hlen, hvalues⟩ := seen_iff_coefficients.mp hseen
    obtain ⟨a, rfl⟩ := List.length_eq_one_iff.mp (Nat.succ_injective hlen)
    have hvalue := hvalues (1, 2) (List.mem_singleton_self _)
    rw [htwo.canonical_eq, Polynomial.evaluate_cons, Polynomial.evaluate_cons,
      Polynomial.evaluate_nil, zero_mul, zero_add] at hvalue
    have hplace : Scalar.ofId 1 = 1 := by decide
    rw [hplace, mul_one] at hvalue
    exact hcs a (List.mem_singleton_self a) (right_eq_add.mp hvalue)

end KeyQuorum.Dealing
