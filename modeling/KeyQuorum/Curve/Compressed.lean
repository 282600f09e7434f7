import KeyQuorum.Curve.Point

/-!
Points as thirty-three bytes: a tag that tells the parity of the second coordinate, two for
even and three for odd, and the first coordinate.

Infinity has no such form; it is written as the even tag before zeros, which no point of the
curve has and which reading refuses.
-/

namespace KeyQuorum.Point

def compress : Point → Bytes
  | .infinity => 2 :: List.replicate 32 0
  | .affine x y _ => (if Fe.isOdd y then 3 else 2) :: Residue.toBytes x

def decompress? : Bytes → Option Point
  | tag :: rest => do
    let odd ← if tag = 2 then some false else if tag = 3 then some true else none
    lift? odd (← Residue.ofBytes? fieldPrime rest)
  | [] => none

@[simp] theorem length_compress (p : Point) : p.compress.length = 33 := by
  cases p <;> simp [compress, Residue.toBytes, Block.length_bytes]

end KeyQuorum.Point
