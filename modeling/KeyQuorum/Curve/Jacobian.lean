import KeyQuorum.Curve.Field

/-!
Points in Jacobian coordinates, where adding needs no division.

The triple `(x, y, z)` stands for the point with coordinates `x / z ^ 2` and `y / z ^ 3`, and
`z = 0` for the point at infinity. Doubling is tangent and adding is chord, except that two
triples of the same point are doubled and those of opposite points give infinity. Multiples
go by doubling and adding over the bits of the factor.
-/

namespace KeyQuorum

structure Jacobian where
  x : Fe
  y : Fe
  z : Fe

namespace Jacobian

def infinity : Jacobian := ⟨1, 1, 0⟩

def double (p : Jacobian) : Jacobian :=
  let yy := p.y * p.y
  let s := 4 * (p.x * yy)
  let m := 3 * (p.x * p.x)
  let x := m * m - 2 * s
  ⟨x, m * (s - x) - 8 * (yy * yy), 2 * (p.y * p.z)⟩

def add (p q : Jacobian) : Jacobian :=
  if p.z = 0 then q
  else if q.z = 0 then p
  else
    let zp := p.z * p.z
    let zq := q.z * q.z
    let u := p.x * zq
    let h := q.x * zp - u
    let s := p.y * (zq * q.z)
    let r := q.y * (zp * p.z) - s
    if h = 0 then
      if r = 0 then double p else infinity
    else
      let hh := h * h
      let hhh := hh * h
      let v := u * hh
      let x := r * r - hhh - 2 * v
      ⟨x, r * (v - x) - s * hhh, p.z * q.z * h⟩

/-- The multiple `k` times `p`, for `k` of at most `width` bits. -/
def mulBits (p : Jacobian) : (width k : Nat) → Jacobian
  | 0, _ => infinity
  | width + 1, k =>
    let r := (mulBits p width (k / 2)).double
    if k % 2 = 1 then r.add p else r

end Jacobian

end KeyQuorum
