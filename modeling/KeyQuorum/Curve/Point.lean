import KeyQuorum.Curve.Jacobian

/-!
The points of secp256k1, `y ^ 2 = x ^ 3 + 7`, with the point at infinity as zero.

Every point carries the proof that it lies on the curve. Sums and multiples are worked out in
Jacobian coordinates and brought back.
-/

namespace KeyQuorum

/-- The right hand side of the curve's equation. -/
def curveRhs (x : Fe) : Fe := x * x * x + 7

inductive Point where
  | infinity
  | affine (x y : Fe) (onCurve : y * y = curveRhs x)
  deriving DecidableEq

namespace Point

def ofCoordinates? (x y : Fe) : Option Point :=
  if h : y * y = curveRhs x then some (.affine x y h) else none

def x? : Point → Option Fe
  | .infinity => none
  | .affine x _ _ => some x

/-- Whether the second coordinate is odd; infinity counts as even. -/
def oddY : Point → Bool
  | .infinity => false
  | .affine _ y _ => Fe.isOdd y

def neg : Point → Point
  | .infinity => .infinity
  | .affine x y h => .affine x (-y) (by grind)

def toJacobian : Point → Jacobian
  | .infinity => Jacobian.infinity
  | .affine x y _ => ⟨x, y, 1⟩

/-- The point a triple stands for; a triple off the curve gives infinity. -/
def ofJacobian (p : Jacobian) : Point :=
  if p.z = 0 then .infinity
  else
    let w := Residue.inverse p.z
    let ww := w * w
    (ofCoordinates? (p.x * ww) (p.y * (ww * w))).getD .infinity

def add (p q : Point) : Point := ofJacobian (p.toJacobian.add q.toJacobian)

instance : Neg Point := ⟨neg⟩
instance : Add Point := ⟨add⟩
instance : Sub Point := ⟨fun p q => p + -q⟩

@[irreducible] def mul (k : Scalar) (p : Point) : Point :=
  ofJacobian (p.toJacobian.mulBits 256 k.val)

instance : HMul Scalar Point Point := ⟨mul⟩

def generator : Point :=
  .affine 0x79be667ef9dcbbac55a06295ce870b07029bfcdb2dce28d959f2815b16f81798
    0x483ada7726a3c4655da4fbfc0e1108a8fd17b448a68554199c47d08ffb10d4b8 (by decide)

/-- The point of the generator's group that a scalar names. -/
def ofScalar (k : Scalar) : Point := k * generator

/-- The point with a given first coordinate and parity of the second. -/
def lift? (odd : Bool) (x : Fe) : Option Point := do
  let r ← Fe.sqrt? (curveRhs x)
  let y ← [r, -r].find? (Fe.isOdd · = odd)
  ofCoordinates? x y

end Point

end KeyQuorum
