import KeyQuorum.Proofs.Sharing.Threshold
import KeyQuorum.Proofs.Sharing.Wire

/-!
Which dealt shares survive the way over the wire.

Neither the secret nor a coefficient drawn at random is zero, so neither the group's point nor a
commitment is infinity. A share's own point is infinity just if the polynomial is zero at the
share's number. Such a share is written like all others, but cannot be read back.
-/

namespace KeyQuorum

lemma UnitScalar.ofBlock?_toBlock (s : UnitScalar) : ofBlock? (Residue.toBlock s.1) = some s := by
  have hlt : s.1.val < Nat.pow 256 32 := Nat.lt_trans s.1.isLt (by decide)
  have hpos : 0 < s.1.val := Nat.pos_of_ne_zero fun h => s.2 (Fin.ext h)
  have hvalue : (Residue.toBlock s.1).toNat = s.1.val := Block.toNat_ofNat hlt
  rw [ofBlock?, hvalue, ofNat?, dif_pos ⟨hpos, s.1.isLt⟩]

lemma Entropy.find_of_usable {e : Entropy} {i : Nat} {s : UnitScalar}
    (h : UnitScalar.ofBlock? (e.block i) = some s) : e.find i = (s, i + 1) := by
  rw [find]
  split
  · next t ht => rw [Option.some.inj (h.symm.trans ht)]
  · next hnone => rw [h] at hnone; cases hnone

/-- Where the blocks to come are usable, their scalars are drawn. -/
lemma Entropy.drawScalars_of_usable {e : Entropy} {ss : List UnitScalar}
    (h : ∀ i (hi : i < ss.length), UnitScalar.ofBlock? (e.block (e.used + i)) = some ss[i]) :
    e.drawScalars ss.length = (ss, { e with used := e.used + ss.length }) := by
  induction ss generalizing e with
  | nil => rfl
  | cons s ss ih =>
    have hfirst : e.drawScalar = (s, { e with used := e.used + 1 }) := by
      have hfind : e.find e.used = (s, e.used + 1) := find_of_usable (h 0 (Nat.succ_pos _))
      rw [drawScalar, hfind]
    have hrest := ih (e := { e with used := e.used + 1 }) fun i hi => by
      rw [Nat.add_assoc, Nat.add_comm 1 i]
      exact h (i + 1) (Nat.succ_lt_succ hi)
    rw [List.length_cons, drawScalars, hfirst]
    simp only [hrest, Nat.add_assoc, Nat.add_comm 1]

namespace Dealing

variable {secret : Scalar} {threshold maxSigners : UInt32} {e e' : Entropy} {d : Dealing}
  {s : KeyShare}

lemma canonical_ne_zero (hsecret : secret ≠ 0) : canonical secret ≠ 0 := by
  unfold canonical
  split
  · exact neg_ne_zero.mpr hsecret
  · exact hsecret

lemma ne_zero_of_mem_polynomial (hsecret : secret ≠ 0) {a : Scalar}
    (ha : a ∈ polynomial secret threshold e) : a ≠ 0 := by
  rcases List.mem_cons.mp ha with rfl | ha
  · exact canonical_ne_zero hsecret
  · obtain ⟨c, -, rfl⟩ := List.mem_map.mp ha
    exact c.2

lemma ids_eq_range (h : deal secret threshold maxSigners e = .ok (d, e')) :
    d.shares.map (·.id.toNat) = List.range' 1 maxSigners.toNat := by
  obtain ⟨-, hadmissible, rfl⟩ := deal_eq_ok h
  have hcount := hadmissible.count_lt
  rw [List.range'_eq_map_range, ofPolynomial, List.map_map]
  refine List.map_congr_left fun i hi => ?_
  rw [Nat.add_comm 1 i]
  exact toNat_number hcount (List.mem_range.mp hi)

/-- **What keeps a dealt share from being read back** is the value zero, and nothing else. -/
theorem legible_iff (h : deal secret threshold maxSigners e = .ok (d, e')) (hs : s ∈ d.shares) :
    s.Legible ↔ s.secret ≠ 0 := by
  obtain ⟨hsecret, ⟨hthreshold, -, -⟩, rfl⟩ := deal_eq_ok h
  obtain ⟨i, -, rfl⟩ := List.mem_map.mp hs
  refine ⟨fun hl => Point.ofScalar_ne_infinity.mp hl.publicShare.point,
    fun hne => ⟨⟨?_, ?_, ?_⟩, ?_⟩⟩
  · exact Point.ofScalar_ne_infinity.mpr hne
  · -- Neither a coefficient nor the secret is zero, and the commitments are as many as the
    -- threshold.
    intro c hc
    obtain ⟨a, ha, rfl⟩ := List.mem_map.mp hc
    exact Point.ofScalar_ne_infinity.mpr (ne_zero_of_mem_polynomial hsecret ha)
  · have hlen := length_polynomial secret hthreshold e
    have hlt : threshold.toNat < Nat.pow 256 4 := threshold.toNat_lt
    simpa [share, Polynomial.commitments, hlen] using hlt
  · exact Point.ofScalar_ne_infinity.mpr (canonical_ne_zero hsecret)

lemma refused_of_zero (h : deal secret threshold maxSigners e = .ok (d, e')) (hs : s ∈ d.shares)
    (hzero : s.secret = 0) :
    KeyShare.ofHex s.toHex = .error .invalidPoint ∧
      PublicShare.ofHex s.publicShare.toHex = .error .invalidPoint := by
  obtain ⟨-, ⟨hthreshold, -, -⟩, rfl⟩ := deal_eq_ok h
  obtain ⟨i, -, rfl⟩ := List.mem_map.mp hs
  have hcount : (polynomial secret threshold e).commitments.length < Nat.pow 256 4 := by
    rw [Polynomial.commitments, List.length_map, length_polynomial secret hthreshold]
    exact threshold.toNat_lt
  have hpoint : Point.ofScalar ((polynomial secret threshold e).evaluate
      (Scalar.ofId (UInt16.ofNat (i + 1)))) = .infinity :=
    not_not.mp (mt Point.ofScalar_ne_infinity.mp (not_not_intro hzero))
  rw [KeyShare.ofHex_toHex, PublicShare.ofHex_toHex]
  exact ⟨KeyShare.decode_encode_infinity hcount hpoint,
    PublicShare.decode_encode_infinity hcount hpoint⟩

/-- **A dealt share survives its text just if its value is not zero**, the key share as well as
the public share; a share of value zero is refused as having an invalid point. -/
theorem survives_iff_ne_zero (secret : Scalar) (hsecret : secret ≠ 0)
    {threshold maxSigners : UInt32} (h : Admissible threshold maxSigners) (e : Entropy) :
    ∃ d e', deal secret threshold maxSigners e = .ok (d, e') ∧ ∀ s ∈ d.shares,
      (KeyShare.ofHex s.toHex = .ok s ↔ s.secret ≠ 0) ∧
      (PublicShare.ofHex s.publicShare.toHex = .ok s.publicShare ↔ s.secret ≠ 0) ∧
      (s.secret = 0 → KeyShare.ofHex s.toHex = .error .invalidPoint ∧
        PublicShare.ofHex s.publicShare.toHex = .error .invalidPoint) := by
  obtain ⟨e', hdeal⟩ := deal_of_admissible hsecret h e
  refine ⟨_, e', hdeal, fun s hs => ?_⟩
  by_cases hzero : s.secret = 0
  · obtain ⟨hkey, hpublic⟩ := refused_of_zero hdeal hs hzero
    simp [hkey, hpublic, hzero]
  · have hl := (legible_iff hdeal hs).mpr hzero
    have hkey : KeyShare.ofHex s.toHex = .ok s := by
      rw [KeyShare.ofHex_toHex, KeyShare.decode_encode hl]
    have hpublic : PublicShare.ofHex s.publicShare.toHex = .ok s.publicShare := by
      rw [PublicShare.ofHex_toHex, PublicShare.decode_encode hl.publicShare]
    simp [hkey, hpublic, hzero]

/-! ### A share of value zero -/

lemma canonical_one : canonical 1 = 1 := if_neg (by decide +kernel)

/-- Draws under which the secret one is dealt as `1 - x`, which is zero at the first share. -/
def cancelling : Entropy := .ofBlocks [Residue.toBlock (-1 : Scalar)] .counting

lemma polynomial_cancelling : polynomial 1 2 cancelling = [1, -1] := by
  have hfind : cancelling.find 0 = (⟨-1, by decide⟩, 1) :=
    Entropy.find_of_usable (UnitScalar.ofBlock?_toBlock ⟨-1, by decide⟩)
  rw [polynomial, canonical_one]
  show 1 :: [(cancelling.find 0).1.val] = [1, -1]
  rw [hfind]

lemma deal_cancelling : ∃ e', deal 1 2 2 cancelling =
    .ok (ofPolynomial [1, -1] (Point.ofScalar (canonical 1)) 2, e') :=
  polynomial_cancelling ▸ deal_of_admissible (by decide) (by decide) cancelling

/-- The first of the two shares of the secret one is lost. -/
theorem first_share_lost : ∃ d e', deal 1 2 2 cancelling = .ok (d, e') ∧
    ∃ s ∈ d.shares, s.id = 1 ∧ KeyShare.ofHex s.toHex ≠ .ok s ∧
      PublicShare.ofHex s.publicShare.toHex ≠ .ok s.publicShare := by
  obtain ⟨e', hdeal⟩ := deal_cancelling
  refine ⟨_, e', hdeal, _, List.mem_cons_self, rfl, ?_⟩
  obtain ⟨hkey, hpublic⟩ := refused_of_zero hdeal List.mem_cons_self (by decide)
  rw [hkey, hpublic]
  exact ⟨nofun, nofun⟩

/-- Of the two shares of the secret one only the second survives. -/
theorem second_share_survives : (1 : Scalar) ≠ 0 ∧ Admissible 2 2 ∧
    ∃ d e', deal 1 2 2 cancelling = .ok (d, e') ∧
      ∀ s ∈ d.shares, KeyShare.ofHex s.toHex = .ok s ↔ s.id = 2 := by
  have hone : (1 : Scalar) ≠ 0 := by decide
  have hadmissible : Admissible 2 2 := by decide
  obtain ⟨d, e', hdeal, hall⟩ := survives_iff_ne_zero 1 hone hadmissible cancelling
  refine ⟨hone, hadmissible, d, e', hdeal, fun s hs => (hall s hs).1.trans ?_⟩
  obtain ⟨e'', hdeal'⟩ := deal_cancelling
  obtain rfl : _ = d := congrArg Prod.fst (Except.ok.inj (hdeal'.symm.trans hdeal))
  have hvalues : ∀ t ∈ (ofPolynomial [1, -1] (Point.ofScalar (canonical 1)) 2).shares,
      t.secret ≠ 0 ↔ t.id = 2 := by decide
  exact hvalues s hs

end Dealing

end KeyQuorum
