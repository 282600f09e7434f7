import KeyQuorum.Key.Signature
import KeyQuorum.Proofs.Curve.Compressed
import KeyQuorum.Proofs.Hash.Packed

/-!
Signatures that hold because of how they are made.

Whatever one-time scalar `n` is used, the response `s = n + e d` names a point that is `R` more
than `e` times the point of the key, so the signature holds unless `s` is zero. Signing thus
fails for two reasons only: its hash gives no one-time scalar, or the response is zero.
-/

namespace KeyQuorum

namespace Point

lemma ofScalar_add (a b : Scalar) : ofScalar (a + b) = ofScalar a + ofScalar b :=
  add_smul a b generator

lemma ofScalar_neg (a : Scalar) : ofScalar (-a) = -ofScalar a := neg_smul a generator

lemma ofScalar_mul (a b : Scalar) : ofScalar (a * b) = a * ofScalar b := mul_smul a b generator

/-- Of a scalar and its opposite, the one with an even point. -/
def evened (n : Scalar) : Scalar := if (ofScalar n).oddY then -n else n

lemma x?_neg (p : Point) : (-p).x? = p.x? := by cases p <;> rfl

lemma oddY_neg {p : Point} (hp : p ≠ .infinity) : (-p).oddY = !p.oddY := by
  cases p with
  | infinity => exact absurd rfl hp
  | affine x y h => exact Fe.isOdd_neg (y_ne_zero h)

lemma x?_evened {n : Scalar} {x : Fe} (hx : (ofScalar n).x? = some x) :
    (ofScalar (evened n)).x? = some x := by
  unfold evened
  split
  · rwa [ofScalar_neg, x?_neg]
  · exact hx

lemma oddY_evened (n : Scalar) : (ofScalar (evened n)).oddY = false := by
  unfold evened
  split
  · next hodd =>
    have hp : ofScalar n ≠ .infinity := fun hp => by
      rw [hp] at hodd
      cases hodd
    rw [ofScalar_neg, oddY_neg hp, hodd]
    rfl
  · next hodd => exact Bool.eq_false_iff.mpr hodd

lemma lift?_of_even {p : Point} {x : Fe} (hx : p.x? = some x) (heven : p.oddY = false) :
    lift? false x = some p := by
  cases p with
  | infinity => cases hx
  | affine x' y h =>
    obtain rfl : x' = x := Option.some.inj hx
    have hlift := lift?_of_affine h
    rwa [show Fe.isOdd y = false from heven] at hlift

end Point

lemma KeyPair.x?_secret (k : KeyPair) : (Point.ofScalar k.secret).x? = some k.publicKey.x := by
  obtain ⟨x, hx, hk⟩ := Option.bind_eq_some_iff.mp k.publicKey_eq
  unfold PublicKey.ofX? at hk
  split at hk
  · rw [hx, ← Option.some.inj hk]
  · cases hk

theorem KeyPair.ofScalar_evenSecret (k : KeyPair) :
    Point.ofScalar k.evenSecret = k.publicKey.point := by
  have hlift := Point.lift?_of_even (Point.x?_evened k.x?_secret) (Point.oddY_evened k.secret)
  exact (Option.get_of_eq_some _ hlift).symm

lemma KeyPair.isSome_ofScalar? (s : UnitScalar) : (ofScalar? s.1).isSome := by
  have hkey : ∃ k, PublicKey.ofPoint? (Point.ofScalar s.1) = some k := by
    cases hp : Point.ofScalar s.1 with
    | infinity => exact absurd hp (Point.ofScalar_ne_infinity.mpr s.2)
    | affine x y h =>
      have hx : (Point.ofScalar s.1).x? = some x := by rw [hp]; rfl
      have hlift := Point.lift?_of_even (Point.x?_evened hx) (Point.oddY_evened s.1)
      exact ⟨⟨x, by rw [hlift]; rfl⟩, dif_pos _⟩
  obtain ⟨k, hk⟩ := hkey
  unfold ofScalar?
  split
  · rfl
  · next hnone => rw [hk] at hnone; cases hnone

def KeyPair.ofUnit (s : UnitScalar) : KeyPair := (ofScalar? s.1).get (isSome_ofScalar? s)

lemma KeyPair.generate_eq (e : Entropy) :
    generate e = (some (ofUnit e.drawScalar.1), e.drawScalar.2) :=
  congrArg (·, _) (Option.some_get _).symm

lemma KeyPair.secret_ofUnit (s : UnitScalar) : (ofUnit s).secret = s.1 := by
  have hsome : ofScalar? s.1 = some (ofUnit s) := (Option.some_get _).symm
  unfold ofScalar? at hsome
  split at hsome
  · rw [← Option.some.inj hsome]
  · cases hsome

def KeyPair.one : KeyPair := ofUnit (Entropy.count 0)

/-- Pairs with the same public key have the same secret, or opposite ones. -/
lemma KeyPair.secret_of_publicKey_eq {k k' : KeyPair} (h : k.publicKey = k'.publicKey) :
    k.secret = k'.secret ∨ k.secret = -k'.secret := by
  -- A key is the point of the even secret, and this is the secret or its opposite.
  have heven : k.evenSecret = k'.evenSecret := Point.ofScalar_injective (by
    rw [k.ofScalar_evenSecret, k'.ofScalar_evenSecret, h])
  unfold evenSecret at heven
  split at heven <;> split at heven
  · exact .inl (neg_injective heven)
  · exact .inr (neg_eq_iff_eq_neg.mp heven)
  · exact .inr heven
  · exact .inl heven

namespace Signature

variable {k : KeyPair} {message random : Block 32} {n : Scalar} {x : Fe}

/-- What is answered to the challenge under a one-time scalar with an even point. -/
def response (k : KeyPair) (message : Block 32) (n : Scalar) (x : Fe) : Scalar :=
  n + challenge (Residue.toBytes x) k.publicKey message * k.evenSecret

lemma ofBytes?_toBlock {m : Nat} (hm : m ≤ Nat.pow 256 32) (a : Fin m) :
    Residue.ofBytes? m (Residue.toBlock a).bytes = some a :=
  Residue.ofBytes?_toBytes hm a

/-- **A signature holds by the way it is made**, unless its response is zero. -/
theorem verify_response (hx : (Point.ofScalar n).x? = some x)
    (heven : (Point.ofScalar n).oddY = false) :
    verify k.publicKey message
      (ofParts (Residue.toBlock x) (Residue.toBlock (response k message n x))) = true ↔
        response k message n x ≠ 0 := by
  set s := response k message n x with hs
  -- What is verified is the point of the one-time scalar again, by the way the response is made.
  have hpoint : Point.ofScalar s -
      challenge (Residue.toBytes x) k.publicKey message * k.publicKey.point = Point.ofScalar n := by
    rw [hs, response, Point.ofScalar_add, Point.ofScalar_mul, k.ofScalar_evenSecret]
    exact add_sub_cancel_right _ _
  have hx0 : x ≠ 0 := by
    cases hp : Point.ofScalar n with
    | infinity => rw [hp] at hx; cases hx
    | affine x' y h =>
      rw [hp] at hx
      exact Option.some.inj hx ▸ Point.x_ne_zero h
  have htake : (ofParts (Residue.toBlock x) (Residue.toBlock s)).bytes.take 32 =
      (Residue.toBlock x).bytes := List.take_left' (Residue.toBlock x).length_bytes
  have hdrop : (ofParts (Residue.toBlock x) (Residue.toBlock s)).bytes.drop 32 =
      (Residue.toBlock s).bytes := List.drop_left' (Residue.toBlock x).length_bytes
  rw [verify, htake, hdrop, ofBytes?_toBlock (by decide), ofBytes?_toBlock (by decide)]
  change (x ≠ 0 && s ≠ 0 && (Point.ofScalar s - challenge (Residue.toBytes x) k.publicKey message *
    k.publicKey.point).x? = some x && !(Point.ofScalar s - challenge (Residue.toBytes x) k.publicKey
    message * k.publicKey.point).oddY) = true ↔ _
  rw [hpoint]
  simp [hx0, hx, heven]

/-- **Signing fails only for a response of zero**, once its hash has given a one-time scalar. -/
theorem sign_of_nonce {n : UnitScalar} (hn : nonce? k random message = some n)
    (hx : (Point.ofScalar n.1).x? = some x) :
    sign k random message =
      let s := response k message (Point.evened n.1) x
      if s = 0 then .error .signingFailed
      else .ok (ofParts (Residue.toBlock x) (Residue.toBlock s)) := by
  have hmake : make? k message n = some (ofParts (Residue.toBlock x)
      (Residue.toBlock (response k message (Point.evened n.1) x))) := by
    rw [make?, hx]
    rfl
  have hverify : verify k.publicKey message (ofParts (Residue.toBlock x)
      (Residue.toBlock (response k message (Point.evened n.1) x))) = true ↔
        response k message (Point.evened n.1) x ≠ 0 :=
    verify_response (Point.x?_evened hx) (Point.oddY_evened n.1)
  unfold sign
  rw [hn, Option.bind_some, hmake]
  simp only [Option.filter_some, hverify]
  by_cases hs : response k message (Point.evened n.1) x = 0 <;> simp [hs]

lemma sign_eq_error {e : KeyError} (h : sign k random message = .error e) : e = .signingFailed := by
  unfold sign at h
  split at h
  · cases h
  · exact (Except.error.inj h).symm

/-! ### Whether signing succeeds, worked out -/

/-- The hash gives a one-time scalar, and the response is not zero. -/
def signs (k : KeyPair) (random message : Block 32) : Bool :=
  let mask := (Sha256.Packed.tagged "BIP0340/aux" random.bytes).bytes
  let seed := Bytes.xor (Residue.toBytes k.evenSecret) mask
  match UnitScalar.ofBlock? (Sha256.Packed.tagged "BIP0340/nonce"
      (seed ++ k.publicKey.bytes ++ message.bytes)) with
  | none => false
  | some n =>
    match (Point.ofScalar n.1).x? with
    | none => false
    | some x =>
      let e : Scalar := Residue.reduce (Sha256.Packed.tagged "BIP0340/challenge"
        (Residue.toBytes x ++ k.publicKey.bytes ++ message.bytes))
      Point.evened n.1 + e * k.evenSecret ≠ 0

/-- **Signing succeeds** just if it is found to. -/
theorem exists_sign_iff :
    (∃ sig, sign k random message = .ok sig) ↔ signs k random message = true := by
  have hsigns : signs k random message = match nonce? k random message with
      | none => false
      | some n =>
        match (Point.ofScalar n.1).x? with
        | none => false
        | some x => response k message (Point.evened n.1) x ≠ 0 := by
    simp only [signs, nonce?, response, challenge, Sha256.Packed.tagged_eq]
  rw [hsigns]
  cases hn : nonce? k random message with
  | none => simp [sign, hn]
  | some n =>
    cases hx : (Point.ofScalar n.1).x? with
    | none => simp [sign, hn, make?, hx]
    | some x =>
      rw [sign_of_nonce hn hx]
      by_cases hs : response k message (Point.evened n.1) x = 0 <;> simp [hx, hs]

def generatorX : Fe := Point.generator.x?.getD 0

/-- The signature under the one-time scalar one. -/
def plain (k : KeyPair) (message : Block 32) : Signature :=
  ofParts (Residue.toBlock generatorX) (Residue.toBlock (response k message 1 generatorX))

def answers (k : KeyPair) (message : Block 32) : Bool :=
  let e : Scalar := Residue.reduce (Sha256.Packed.tagged "BIP0340/challenge"
    (Residue.toBytes generatorX ++ k.publicKey.bytes ++ message.bytes))
  1 + e * k.evenSecret ≠ 0

lemma verify_plain_of_answers (h : answers k message = true) :
    verify k.publicKey message (plain k message) = true := by
  have hone : Point.ofScalar 1 = Point.generator := one_smul Scalar Point.generator
  have hresponse : response k message 1 generatorX ≠ 0 := by
    rw [response, challenge, Sha256.Packed.tagged_eq]
    exact of_decide_eq_true h
  exact (verify_response (by rw [hone]; rfl) (by rw [hone]; rfl)).mpr hresponse

end Signature

end KeyQuorum
