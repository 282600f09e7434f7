import KeyQuorum.Proofs.Curve.Prime

/-!
The coordinates and the scalars are fields.
-/

namespace KeyQuorum

instance : Field Fe := Residue.field fieldPrime_prime (by decide)

instance : Field Scalar := Residue.field groupOrder_prime (by decide)

end KeyQuorum
