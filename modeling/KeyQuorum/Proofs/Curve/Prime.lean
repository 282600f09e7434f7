import Mathlib.NumberTheory.LucasPrimality
import Mathlib.Tactic.NormNum.Prime
import KeyQuorum.Curve.Field
import KeyQuorum.Proofs.Curve.Residue

/-!
The two moduli of the curve are primes.

By Lucas a number `n` is a prime when some residue has order `n - 1`, which is seen from its
powers as soon as the prime factors of `n - 1` are known. These are primes for the same reason,
and so on down to numbers that are small. The certificates below list the roots and the factors,
small primes first, and are checked by computation.
-/

namespace KeyQuorum

/-- Why a number is a prime. -/
structure Certificate where
  /-- The number before the prime. -/
  pred : ℕ
  root : ℕ
  /-- The prime factors of `pred`, as often as they divide it. -/
  factors : List ℕ

namespace Certificate

open Fin.CommRing

def number (c : Certificate) : ℕ := c.pred + 1

def power (c : Certificate) (e : ℕ) : Fin (c.pred + 1) :=
  Residue.pow (Fin.ofNat (c.pred + 1) c.root) e

/-- Whether the root has order `pred`, given the primes known so far. -/
def holds (known : List ℕ) (c : Certificate) : Bool :=
  c.factors.all (known.contains ·) && c.factors.prod = c.pred && c.power c.pred = 1 &&
    c.factors.all fun q => c.power (c.pred / q) ≠ 1

/-- Whether all certificates hold, each by the primes before it. -/
def chained : List ℕ → List Certificate → Bool
  | _, [] => true
  | known, c :: rest => c.holds known && chained (c.number :: known) rest

/-- Lucas's criterion. -/
lemma prime_of_order {n : ℕ} [NeZero n] (a : Fin n) (hone : Residue.pow a (n - 1) = 1)
    (hne : ∀ q, q.Prime → q ∣ n - 1 → Residue.pow a ((n - 1) / q) ≠ 1) : n.Prime := by
  refine lucas_primality n (ZMod.finEquiv n a) ?_ fun q hq hdvd hpow => ?_
  · rw [← map_pow, ← Residue.pow_eq, hone, map_one]
  · refine hne q hq hdvd ((ZMod.finEquiv n).injective ?_)
    rw [Residue.pow_eq, map_pow, hpow, map_one]

variable {known : List ℕ} {c : Certificate}

lemma prime_of_holds (hknown : ∀ q ∈ known, q.Prime) (h : c.holds known = true) :
    c.number.Prime := by
  simp only [holds, Bool.and_eq_true, List.all_eq_true, List.contains_iff_mem,
    decide_eq_true_eq] at h
  obtain ⟨⟨⟨hmem, hprod⟩, hone⟩, hne⟩ := h
  refine prime_of_order (n := c.pred + 1) _ hone fun q hq hdvd => ?_
  rw [Nat.add_sub_cancel] at hdvd ⊢
  -- a prime that divides the product is one of the factors
  rw [← hprod] at hdvd
  obtain ⟨r, hr, hqr⟩ := (Prime.dvd_prod_iff hq.prime).mp hdvd
  obtain rfl := (Nat.prime_dvd_prime_iff_eq hq (hknown r (hmem r hr))).mp hqr
  exact hne q hr

theorem prime_of_chained {cs : List Certificate} (hknown : ∀ q ∈ known, q.Prime)
    (h : chained known cs = true) : ∀ n ∈ cs.map number, n.Prime := by
  induction cs generalizing known with
  | nil => simp
  | cons c cs ih =>
    rw [chained, Bool.and_eq_true] at h
    have hc := prime_of_holds hknown h.1
    intro n hn
    rcases List.mem_cons.mp hn with rfl | hn
    · exact hc
    · refine ih ?_ h.2 n hn
      rintro q hq
      rcases List.mem_cons.mp hq with rfl | hq
      · exact hc
      · exact hknown q hq

end Certificate

/-! ### The certificates of the moduli -/

def smallPrimes : List ℕ :=
  [2, 3, 5, 7, 11, 17, 29, 31, 41, 53, 59, 97, 109, 149, 293, 461, 631, 797, 971, 1373, 1627, 1871,
    2011, 2621, 2657, 4051, 4423, 5323, 7723, 9349, 13441, 16699, 20113, 24809, 28181, 41201, 85831,
    96557, 120233, 305873]

lemma prime_of_small : ∀ q ∈ smallPrimes, q.Prime := by
  simp only [smallPrimes, List.forall_mem_cons, List.not_mem_nil, false_imp_iff, implies_true,
    and_true]
  norm_num

def certificates : List Certificate := [
  ⟨1206780, 10, [2, 2, 3, 5, 20113]⟩,
  ⟨1627770, 3, [2, 3, 5, 29, 1871]⟩,
  ⟨4681608, 23, [2, 2, 2, 3, 97, 2011]⟩,
  ⟨7240686, 3, [2, 3, 1206781]⟩,
  ⟨13331830, 13, [2, 5, 971, 1373]⟩,
  ⟨44706918, 6, [2, 3, 797, 9349]⟩,
  ⟨107590000, 3, [2, 2, 2, 2, 5, 5, 5, 5, 7, 29, 53]⟩,
  ⟨545358712, 5, [2, 2, 2, 41, 59, 28181]⟩,
  ⟨297159362676, 2, [2, 2, 3, 3, 11, 461, 1627771]⟩,
  ⟨107361793816595536, 3, [2, 2, 2, 2, 16699, 85831, 4681609]⟩,
  ⟨173378833005251800, 6, [2, 2, 2, 5, 5, 2621, 24809, 13331831]⟩,
  ⟨174723607534414371448, 3, [2, 2, 2, 17, 59, 4051, 120233, 44706919]⟩,
  ⟨22149492674086928081352, 5, [2, 2, 2, 3, 5323, 173378833005251801]⟩,
  ⟨132896956044521568488118, 6, [2, 3, 22149492674086928081353]⟩,
  ⟨29047611873442575647497758178, 2, [2, 293, 305873, 545358713, 297159362677]⟩,
  ⟨341948486974166000522343609283188, 2, [2, 2, 3, 3, 3, 109, 29047611873442575647497758179]⟩,
  ⟨255515944373312847190720520512484175976, 3,
    [2, 2, 2, 7, 7, 11, 1627, 2657, 4423, 41201, 96557, 7240687, 107590001]⟩,
  ⟨205115282021455665897114700593932402728804164701536103180137503955397370, 10,
    [2, 3, 5, 29, 29, 31, 7723, 132896956044521568488119,
      255515944373312847190720520512484175977]⟩,
  ⟨fieldPrime - 1, 3,
    [2, 3, 7, 13441, 205115282021455665897114700593932402728804164701536103180137503955397371]⟩,
  ⟨groupOrder - 1, 7,
    [2, 2, 2, 2, 2, 2, 3, 149, 631, 107361793816595537, 174723607534414371449,
      341948486974166000522343609283189]⟩]

lemma prime_of_certificate : ∀ n ∈ certificates.map Certificate.number, n.Prime :=
  Certificate.prime_of_chained prime_of_small (by decide +kernel)

theorem fieldPrime_prime : fieldPrime.Prime := prime_of_certificate _ (by decide)

theorem groupOrder_prime : groupOrder.Prime := prime_of_certificate _ (by decide)

end KeyQuorum
