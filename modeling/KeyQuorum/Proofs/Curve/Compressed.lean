import KeyQuorum.Curve.Compressed
import KeyQuorum.Proofs.Curve.Order

/-!
Points read back from their compressed form.

Modulo a prime that is three modulo four, the power `(p + 1) / 4` of a square is one of its two
roots, and the two have different parities unless they are zero. So the first coordinate and the
tag name the point, and every point but infinity is read back from what is written of it. Nothing
else is read.
-/

namespace KeyQuorum

/-- A square has a root, and it is the one squared or its opposite. -/
lemma Fe.sqrt?_mul_self (y : Fe) : ∃ r, Fe.sqrt? (y * y) = some r ∧ (r = y ∨ r = -y) := by
  set r := Residue.pow (y * y) ((fieldPrime + 1) / 4) with hr
  have hroot : r * r = y * y := by
    by_cases hy : y = 0
    · have hexp : (fieldPrime + 1) / 4 ≠ 0 := by decide
      rw [hr, Residue.pow_eq, hy, mul_zero, zero_pow hexp, mul_zero]
    · have hexp : 2 * ((fieldPrime + 1) / 4 + (fieldPrime + 1) / 4) = (fieldPrime - 1) + 2 := by
        decide
      -- squared, the root is the power `p + 1` of `y`, and the power `p - 1` is one
      calc r * r = y ^ (2 * ((fieldPrime + 1) / 4 + (fieldPrime + 1) / 4)) := by
            rw [hr, Residue.pow_eq, ← pow_add, ← pow_two, ← pow_mul]
        _ = y ^ (fieldPrime - 1) * y ^ 2 := by rw [hexp, pow_add]
        _ = y * y := by rw [Residue.pow_pred fieldPrime_prime hy, one_mul, pow_two]
  exact ⟨r, if_pos hroot, mul_self_eq_mul_self_iff.mp hroot⟩

lemma Fe.sqrt?_curveRhs_zero : Fe.sqrt? (curveRhs 0) = none := by decide +kernel

namespace Point

lemma x_ne_zero {x y : Fe} (h : y * y = curveRhs x) : x ≠ 0 := by
  rintro rfl
  obtain ⟨r, hr, -⟩ := Fe.sqrt?_mul_self y
  rw [h, Fe.sqrt?_curveRhs_zero] at hr
  cases hr

theorem lift?_of_affine {x y : Fe} (h : y * y = curveRhs x) :
    lift? (Fe.isOdd y) x = some (.affine x y h) := by
  obtain ⟨r, hr, hry⟩ := Fe.sqrt?_mul_self y
  rw [h] at hr
  have hfind : [r, -r].find? (fun z => Fe.isOdd z = Fe.isOdd y) = some y := by
    by_cases hsame : r = y
    · simp [hsame]
    · obtain rfl : r = -y := hry.resolve_left hsame
      have hy : y ≠ 0 := by
        rintro rfl
        exact hsame neg_zero
      simp [Fe.isOdd_neg hy]
  simp only [lift?, hr, hfind, ofCoordinates?, dif_pos h, Option.bind_eq_bind, Option.bind_some]

/-- **Compressing loses nothing** of a point that is not infinity. -/
theorem decompress?_compress {p : Point} (hp : p ≠ .infinity) :
    decompress? p.compress = some p := by
  cases p with
  | infinity => exact absurd rfl hp
  | affine x y h =>
    have hx : Residue.ofBytes? fieldPrime (Residue.toBytes x) = some x :=
      Residue.ofBytes?_toBytes (by decide) x
    have hlift := lift?_of_affine h
    cases hodd : Fe.isOdd y <;> rw [hodd] at hlift <;>
      simp [compress, decompress?, hodd, hx, hlift]

/-- What is written of infinity names no point. -/
theorem decompress?_compress_infinity : decompress? infinity.compress = none := by
  have hzero : Residue.ofBytes? fieldPrime (List.replicate 32 0) = some 0 := by decide
  have hlift : lift? false 0 = none := by
    rw [lift?, Fe.sqrt?_curveRhs_zero]
    rfl
  simp only [compress, decompress?, if_true, hzero, Option.bind_eq_bind, Option.bind_some, hlift]

lemma lift?_eq_some {odd : Bool} {x : Fe} {p : Point} (h : lift? odd x = some p) :
    ∃ y hxy, p = .affine x y hxy ∧ Fe.isOdd y = odd := by
  simp only [lift?, Option.bind_eq_bind, Option.bind_eq_some_iff] at h
  obtain ⟨r, -, y, hfind, hpoint⟩ := h
  have hodd : Fe.isOdd y = odd := by simpa using List.find?_some hfind
  unfold ofCoordinates? at hpoint
  split at hpoint
  · next hxy => exact ⟨y, hxy, (Option.some.inj hpoint).symm, hodd⟩
  · cases hpoint

/-- **Only what is written of a point is read** as that point, which is not infinity. -/
theorem compress_of_decompress? {bs : Bytes} {p : Point} (h : decompress? bs = some p) :
    p ≠ .infinity ∧ p.compress = bs := by
  cases bs with
  | nil => cases h
  | cons tag rest =>
    have hread : ∃ odd x, tag = (if odd then 3 else 2) ∧
        Residue.ofBytes? fieldPrime rest = some x ∧ lift? odd x = some p := by
      simp only [decompress?, Option.bind_eq_bind, Option.bind_some, Option.bind_none] at h
      split at h
      · next htag =>
        obtain ⟨x, hx, hlift⟩ := Option.bind_eq_some_iff.mp h
        exact ⟨false, x, htag, hx, hlift⟩
      · split at h
        · next htag =>
          obtain ⟨x, hx, hlift⟩ := Option.bind_eq_some_iff.mp h
          exact ⟨true, x, htag, hx, hlift⟩
        · cases h
    obtain ⟨odd, x, htag, hx, hlift⟩ := hread
    obtain ⟨y, hxy, rfl, hodd⟩ := lift?_eq_some hlift
    refine ⟨Point.noConfusion, ?_⟩
    rw [compress, hodd, Residue.toBytes_of_ofBytes? hx, htag]

/-! ### What is read -/

lemma exists_isOdd {x y : Fe} (h : y * y = curveRhs x) (odd : Bool) :
    ∃ z, z * z = curveRhs x ∧ Fe.isOdd z = odd := by
  by_cases hodd : Fe.isOdd y = odd
  · exact ⟨y, h, hodd⟩
  · refine ⟨-y, by rw [neg_mul_neg, h], ?_⟩
    rw [Fe.isOdd_neg (y_ne_zero h)]
    exact Bool.not_eq.mpr hodd

lemma ofBigEndian_toBytes (x : Fe) : Bytes.ofBigEndian (Residue.toBytes x) = x.val :=
  Block.toNat_ofNat (x.isLt.trans (by decide))

lemma toBytes_eq {x : Fe} {bs : Bytes} (hlen : bs.length = 32)
    (hx : x.val = Bytes.ofBigEndian bs) : Residue.toBytes x = bs := by
  show Bytes.bigEndian 32 x.val = bs
  rw [hx, ← hlen]
  exact Bytes.bigEndian_ofBigEndian bs

lemma head?_compress {p : Point} (hp : p ≠ .infinity) :
    p.compress.head? = some (if p.oddY then 3 else 2) := by
  cases p with
  | infinity => exact absurd rfl hp
  | affine x y h => rfl

/-- A point is read when there is a tag and then a first coordinate that is on the curve. -/
theorem exists_decompress?_iff {bs : Bytes} : (∃ p, decompress? bs = some p) ↔
    bs.length = 33 ∧ (bs.head? = some 2 ∨ bs.head? = some 3) ∧
      ∃ x y : Fe, x.val = Bytes.ofBigEndian bs.tail ∧ y * y = curveRhs x := by
  constructor
  case mp =>
    rintro ⟨p, hp⟩
    obtain ⟨hne, rfl⟩ := compress_of_decompress? hp
    refine ⟨length_compress p, ?_, ?_⟩
    · have htag := head?_compress hne
      split at htag
      · exact .inr htag
      · exact .inl htag
    · cases p with
      | infinity => exact absurd rfl hne
      | affine x y h => exact ⟨x, y, (ofBigEndian_toBytes x).symm, h⟩
  case mpr =>
    rintro ⟨hlen, htag, x, y, hx, hy⟩
    match bs, hlen with
    | tag :: rest, hlen =>
      obtain ⟨odd, rfl⟩ : ∃ odd : Bool, tag = if odd then 3 else 2 := by
        rcases htag with htag | htag
        · exact ⟨false, Option.some.inj htag⟩
        · exact ⟨true, Option.some.inj htag⟩
      obtain ⟨z, hz, hodd⟩ := exists_isOdd hy odd
      have hbytes : compress (.affine x z hz) = (if odd then 3 else 2) :: rest := by
        rw [compress, hodd, toBytes_eq (Nat.succ.inj hlen) hx]
      exact ⟨.affine x z hz, hbytes ▸ decompress?_compress Point.noConfusion⟩

/-- **Points but infinity are one to one with what is read as points.** Such a point is read back
from its compressed form and from no other bytes, and the tag tells its parity. Refused are just the
bytes of another length, with another tag than two or three, or with a first coordinate that is not
below the modulus or not on the curve; among them is what is written of infinity. -/
theorem compresses_one_to_one :
    (∀ p : Point, p ≠ .infinity → decompress? p.compress = some p) ∧
    (∀ (bs : Bytes) (p : Point), decompress? bs = some p →
      p ≠ .infinity ∧ bs.head? = some (if p.oddY then 3 else 2) ∧ p.compress = bs) ∧
    (∀ bs : Bytes, decompress? bs = none ↔
      bs.length ≠ 33 ∨ (bs.head? ≠ some 2 ∧ bs.head? ≠ some 3) ∨
        fieldPrime ≤ Bytes.ofBigEndian bs.tail ∨
        ∀ x y : Fe, x.val = Bytes.ofBigEndian bs.tail → y * y ≠ curveRhs x) ∧
    decompress? infinity.compress = none := by
  refine ⟨fun p hp => decompress?_compress hp, fun bs p h => ?only, fun bs => ?refused,
    decompress?_compress_infinity⟩
  case only =>
    obtain ⟨hne, rfl⟩ := compress_of_decompress? h
    exact ⟨hne, head?_compress hne, rfl⟩
  case refused =>
    -- A residue is below the modulus, so a coordinate that is not has no point on the curve.
    have hlarge : fieldPrime ≤ Bytes.ofBigEndian bs.tail →
        ∀ x y : Fe, x.val = Bytes.ofBigEndian bs.tail → y * y ≠ curveRhs x :=
      fun hle x _ hx => absurd x.isLt (by omega)
    rw [Option.eq_none_iff_forall_ne_some, ← not_exists, exists_decompress?_iff,
      or_iff_right_of_imp hlarge]
    simp only [not_and_or, not_or, not_exists, imp_iff_not_or]

/-- The generator has an even second coordinate. Neither another tag is read nor the modulus. -/
theorem generator_compressed :
    decompress? generator.compress = some generator ∧ generator.compress.head? = some 2 ∧
    decompress? (4 :: generator.compress.tail) = none ∧
    decompress? (2 :: Bytes.bigEndian 32 fieldPrime) = none := by
  obtain ⟨hread, honly, hrefused, -⟩ := compresses_one_to_one
  have hgenerator := hread generator Point.noConfusion
  have hmodulus : Bytes.ofBigEndian (Bytes.bigEndian 32 fieldPrime) = fieldPrime :=
    Bytes.ofBigEndian_bigEndian (by decide)
  refine ⟨hgenerator, (honly _ _ hgenerator).2.1, (hrefused _).mpr (.inr (.inl ⟨?_, ?_⟩)),
    (hrefused _).mpr (.inr (.inr (.inl hmodulus.ge)))⟩
  · decide
  · decide

end Point

end KeyQuorum
