import KeyQuorum.Curve.Point
import KeyQuorum.Entropy

/-!
Polynomials over the scalars, as the list of their coefficients from the constant one up.

The constant coefficient is the secret to be shared, and the values at the share numbers are
the shares. The points of the coefficients commit to the polynomial without showing it.
-/

namespace KeyQuorum

abbrev Polynomial := List Scalar

namespace Polynomial

def evaluate (f : Polynomial) (x : Scalar) : Scalar := f.foldr (fun a r => r * x + a) 0

def commitments (f : Polynomial) : List Point := f.map Point.ofScalar

/-- The point that commitments give at `x`, by the powers of `x` upwards from `power`. -/
def evaluatePoints (power x : Scalar) : List Point → Point
  | [] => .infinity
  | c :: cs => power * c + evaluatePoints (power * x) x cs

/-- A polynomial with a given constant coefficient and others drawn at random. -/
def random (secret : Scalar) (length : Nat) (e : Entropy) : Polynomial × Entropy :=
  let (coefficients, e) := e.drawScalars (length - 1)
  (secret :: coefficients.map Subtype.val, e)

@[simp] theorem evaluate_nil (x : Scalar) : evaluate [] x = 0 := rfl

@[simp] theorem evaluate_cons (a : Scalar) (f : Polynomial) (x : Scalar) :
    evaluate (a :: f) x = evaluate f x * x + a := rfl

end Polynomial

end KeyQuorum
