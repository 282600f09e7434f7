import KeyQuorum.Proofs.Key.Reading
import KeyQuorum.Proofs.Key.Signing

/-!
Two parties agree on a coordinate.

A public key names the point of its secret or the opposite one, whichever is even. So what one
party's secret makes of the other's key is the point of the product of both secrets, up to its
sign; and opposite points have the same first coordinate. The point is never infinity, for neither
a secret nor the point of a key is zero and the order of the points is prime.
-/

namespace KeyQuorum

lemma PublicKey.point_ne_zero (k : PublicKey) : k.point ≠ 0 := by
  have hlift : Point.lift? false k.x = some k.point := (Option.some_get k.lifts).symm
  obtain ⟨y, hxy, hpoint, -⟩ := Point.lift?_eq_some hlift
  rw [hpoint]
  exact Point.noConfusion

namespace KeyPair

variable {a b : KeyPair} {x : Fe}

lemma secret_ne_zero (k : KeyPair) : k.secret ≠ 0 := by
  intro h
  have hk := k.publicKey_eq
  rw [h, Point.ofScalar_zero] at hk
  cases hk

theorem exists_shared (k : KeyPair) (peer : PublicKey) :
    ∃ x, (k.secret * peer.point).x? = some x := by
  have hne : k.secret • peer.point ≠ 0 := smul_ne_zero k.secret_ne_zero peer.point_ne_zero
  change k.secret * peer.point ≠ 0 at hne
  cases h : k.secret * peer.point with
  | infinity => exact absurd h hne
  | affine x y hxy => exact ⟨x, rfl⟩

lemma point_publicKey (k : KeyPair) :
    k.publicKey.point = Point.ofScalar k.secret ∨ k.publicKey.point = -Point.ofScalar k.secret := by
  rw [← k.ofScalar_evenSecret, evenSecret]
  split
  · exact .inr (Point.ofScalar_neg k.secret)
  · exact .inl rfl

/-- A multiple of a key's point has the first coordinate of the same multiple of the secret's. -/
lemma x?_mul_point (s : Scalar) (k : KeyPair) :
    (s * k.publicKey.point).x? = (Point.ofScalar (s * k.secret)).x? := by
  rw [Point.ofScalar_mul]
  rcases k.point_publicKey with hpoint | hpoint
  · rw [hpoint]
  · have hneg : s * -Point.ofScalar k.secret = -(s * Point.ofScalar k.secret) :=
      smul_neg s (Point.ofScalar k.secret)
    rw [hpoint, hneg, Point.x?_neg]

/-- **Both sides find the same coordinate.** -/
theorem sharedX_comm (a b : KeyPair) : a.sharedX b.publicKey = b.sharedX a.publicKey := by
  have hx : (a.secret * b.publicKey.point).x? = (b.secret * a.publicKey.point).x? := by
    rw [x?_mul_point, x?_mul_point, mul_comm]
  unfold sharedX
  rw [hx]

lemma sharedX_eq (hx : (Point.ofScalar (a.secret * b.secret)).x? = some x) :
    a.sharedX b.publicKey = .ok (Residue.toBlock x) := by
  rw [sharedX, x?_mul_point, hx]

/-! ### Opposite secrets -/

/-- The pair of the opposite secret. Its point is the opposite one, and names the same key. -/
def opposite (k : KeyPair) : KeyPair where
  secret := -k.secret
  publicKey := k.publicKey
  publicKey_eq := by
    rw [Point.ofScalar_neg, PublicKey.ofPoint?, Point.x?_neg]
    exact k.publicKey_eq

lemma ofScalar?_neg (k : KeyPair) : ofScalar? (-k.secret) = some k.opposite :=
  ofScalar?_secret k.opposite

/-- The signs of the secrets are lost in the coordinate of their product. -/
lemma x?_mul_opposite {c d : KeyPair} (hc : c ∈ [a, a.opposite]) (hd : d ∈ [b, b.opposite]) :
    (Point.ofScalar (c.secret * d.secret)).x? = (Point.ofScalar (a.secret * b.secret)).x? := by
  -- The point of the product is the same or the opposite one, with the same first coordinate.
  have hsign : c.secret * d.secret = a.secret * b.secret ∨
      c.secret * d.secret = -(a.secret * b.secret) := by
    simp only [List.mem_cons, List.not_mem_nil, or_false] at hc hd
    rcases hc with rfl | rfl <;> rcases hd with rfl | rfl
    · exact .inl rfl
    · exact .inr (mul_neg _ _)
    · exact .inr (neg_mul _ _)
    · exact .inl (neg_mul_neg _ _)
  rcases hsign with hsame | hneg
  · rw [hsame]
  · rw [hneg, Point.ofScalar_neg, Point.x?_neg]

/-- **Two parties always agree on a coordinate**, that of the point of both secrets. Either secret
may be taken for its opposite: the public key stays the same, and so does what they agree on. -/
theorem agree_up_to_sign (a b : KeyPair) :
    ∃ x a' b', (Point.ofScalar (a.secret * b.secret)).x? = some x ∧
      ofScalar? (-a.secret) = some a' ∧ a'.publicKey = a.publicKey ∧
      ofScalar? (-b.secret) = some b' ∧ b'.publicKey = b.publicKey ∧
      ∀ c ∈ [a, a'], ∀ d ∈ [b, b'],
        c.sharedX d.publicKey = .ok (Residue.toBlock x) ∧
        d.sharedX c.publicKey = .ok (Residue.toBlock x) := by
  obtain ⟨x, hx⟩ := a.exists_shared b.publicKey
  rw [x?_mul_point] at hx
  refine ⟨x, a.opposite, b.opposite, hx, a.ofScalar?_neg, rfl, b.ofScalar?_neg, rfl,
    fun c hc d hd => ?_⟩
  have hagree := sharedX_eq ((x?_mul_opposite hc hd).trans hx)
  exact ⟨hagree, (sharedX_comm d c).trans hagree⟩

theorem one_agrees_with_opposite : ∃ x k, Point.x? .generator = some x ∧
    ofScalar? (-one.secret) = some k ∧ k.sharedX one.publicKey = .ok (Residue.toBlock x) := by
  obtain ⟨x, k, _, hx, hk, -, -, -, hagree⟩ := agree_up_to_sign one one
  have hgenerator : Point.ofScalar (one.secret * one.secret) = .generator := by decide +kernel
  rw [hgenerator] at hx
  exact ⟨x, k, hx, hk, (hagree k (by simp) one (by simp)).1⟩

end KeyPair

end KeyQuorum
