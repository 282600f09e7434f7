import KeyQuorum.Entropy
import KeyQuorum.Key.Public

/-!
Key pairs: a secret scalar and the public key of its point.

The public key is worked out when the pair is made, and the pair carries the proof. The secret
stays as it was given, whether its own point is even or not.
-/

namespace KeyQuorum

structure KeyPair where
  secret : Scalar
  publicKey : PublicKey
  publicKey_eq : PublicKey.ofPoint? (Point.ofScalar secret) = some publicKey

namespace KeyPair

/-- The pair of a secret; none for zero, whose point has no coordinates. -/
def ofScalar? (s : Scalar) : Option KeyPair :=
  match h : PublicKey.ofPoint? (Point.ofScalar s) with
  | some k => some ⟨s, k, h⟩
  | none => none

def ofHex (s : String) : Except KeyError KeyPair :=
  match Hex.decode s with
  | none => .error .invalidHex
  | some bs =>
    match (Residue.ofBytes? groupOrder bs).bind ofScalar? with
    | none => .error .invalidSecret
    | some k => .ok k

def generate (e : Entropy) : Option KeyPair × Entropy :=
  let (s, e) := e.drawScalar
  (ofScalar? s.1, e)

def secretHex (k : KeyPair) : String := Hex.encode (Residue.toBytes k.secret)

/-- The secret or its opposite, whichever has an even point: the secret of the public key's
point. -/
def evenSecret (k : KeyPair) : Scalar :=
  if (Point.ofScalar k.secret).oddY then -k.secret else k.secret

/-- The first coordinate of the point that this secret and a peer's key have in common. -/
def sharedX (k : KeyPair) (peer : PublicKey) : Except KeyError (Block 32) :=
  match (k.secret * peer.point).x? with
  | some x => .ok (Residue.toBlock x)
  | none => .error .invalidPublic

/-- The pair as it is shown to a reader of logs, without the secret. -/
def shown (k : KeyPair) : String :=
  "Keys \x7b public: " ++ k.publicKey.shown ++ ", secret: \"***SENSITIVE***\" \x7d"

end KeyPair

end KeyQuorum
