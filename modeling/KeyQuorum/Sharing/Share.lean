import KeyQuorum.Sharing.Polynomial

/-!
Shares of a secret key, and the check that one belongs to the polynomial it claims.

The public part of a share names its number, the point of its secret and the commitments of
the dealing; the key share adds the secret and the group's public point. The check compares
the secret's point with the point that the commitments give at the share's number.
-/

namespace KeyQuorum

inductive SharingError where
  | invalidParameters
  | zeroSecret
  | insufficientShares
  | duplicateId (id : UInt16)
  | invalidId
  deriving DecidableEq, Repr

def SharingError.message : SharingError → String
  | .invalidParameters => "invalid number of signers or threshold"
  | .zeroSecret => "secret key is zero"
  | .insufficientShares => "not enough shares to reconstruct"
  | .duplicateId id => "duplicate share id " ++ toString id.toNat
  | .invalidId => "share id must be non-zero"

/-- The place at which a share's polynomial is evaluated. -/
def Scalar.ofId (id : UInt16) : Scalar := Fin.ofNat groupOrder id.toNat

structure PublicShare where
  id : UInt16
  point : Point
  commitments : List Point
  deriving DecidableEq

structure KeyShare where
  secret : Scalar
  group : Point
  publicShare : PublicShare
  deriving DecidableEq

namespace PublicShare

/-- Whether a secret is the share's and lies on the committed polynomial. -/
def verify (p : PublicShare) (secret : Scalar) : Bool :=
  p.id ≠ 0 && !p.commitments.isEmpty && Point.ofScalar secret = p.point &&
    Polynomial.evaluatePoints 1 (Scalar.ofId p.id) p.commitments = p.point

end PublicShare

namespace KeyShare

def id (s : KeyShare) : UInt16 := s.publicShare.id

def shown (s : KeyShare) : String :=
  "KeyShare \x7b id: " ++ toString s.id.toNat ++
    ", commitments: " ++ toString s.publicShare.commitments.length ++
    ", secret: \"***SENSITIVE***\" \x7d"

end KeyShare

end KeyQuorum
