import KeyQuorum.Curve.Residue

/-!
The two prime fields of the curve secp256k1: coordinates live in one, the multiples of the
generator are counted in the other.

The coordinate prime is three modulo four, so the power `(p + 1) / 4` of a square is a root.
-/

namespace KeyQuorum

/-- The prime of the coordinates, `2 ^ 256 - 2 ^ 32 - 977`. -/
def fieldPrime : Nat := 0xfffffffffffffffffffffffffffffffffffffffffffffffffffffffefffffc2f

/-- The order of the generator, a prime. -/
def groupOrder : Nat := 0xfffffffffffffffffffffffffffffffebaaedce6af48a03bbfd25e8cd0364141

instance : @NeZero Nat Zero.ofOfNat0 fieldPrime := ⟨by decide⟩
instance : @NeZero Nat Zero.ofOfNat0 groupOrder := ⟨by decide⟩

abbrev Fe := Fin fieldPrime

/-- A number of times to add a point to itself. -/
abbrev Scalar := Fin groupOrder

namespace Fe

def isOdd (a : Fe) : Bool := a.val % 2 = 1

def sqrt? (a : Fe) : Option Fe :=
  let r := Residue.pow a ((fieldPrime + 1) / 4)
  if r * r = a then some r else none

end Fe

end KeyQuorum
