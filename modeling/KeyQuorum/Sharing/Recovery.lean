import KeyQuorum.Sharing.Share

/-!
Recovering a shared secret: the value at zero of the polynomial through the shares.

Each share counts with its Lagrange weight at zero, the product of `y / (y - x)` over the other
shares' places `y`. Places must be pairwise different and none may be zero.
-/

namespace KeyQuorum.Recovery

/-- The first number of a list that is zero or occurs again, as the error it makes. -/
def badId? : List UInt16 → Option SharingError
  | [] => none
  | id :: rest =>
    if id = 0 then some .invalidId
    else if id ∈ rest then some (.duplicateId id)
    else badId? rest

def product (xs : List Scalar) : Scalar := xs.foldr (· * ·) 1

/-- The weight at zero of the place `x`, which is the `j`-th of the places `xs`. -/
def weight? (xs : List Scalar) (j : Nat) (x : Scalar) : Option Scalar :=
  let others := xs.eraseIdx j
  let denominator := product (others.map (· - x))
  if denominator = 0 then none else some (product others * Residue.inverse denominator)

/-- The sum of the values from the `j`-th place on, each times the weight of its place among
`xs`. -/
def weightedSum? (xs : List Scalar) (j : Nat) : List (Scalar × Scalar) → Option Scalar
  | [] => some 0
  | (x, y) :: rest => do
    let w ← weight? xs j x
    return y * w + (← weightedSum? xs (j + 1) rest)

def recover (shares : List (UInt16 × Scalar)) : Except SharingError Scalar :=
  if shares.isEmpty then .error .insufficientShares
  else
    match badId? (shares.map Prod.fst) with
    | some e => .error e
    | none =>
      let points := shares.map fun s => (Scalar.ofId s.1, s.2)
      match weightedSum? (points.map Prod.fst) 0 points with
      | some s => .ok s
      | none => .error .invalidId

end KeyQuorum.Recovery
