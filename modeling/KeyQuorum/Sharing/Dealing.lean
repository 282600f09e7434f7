import KeyQuorum.Sharing.Share

/-!
Dealing a secret key: as many shares as there are signers, any `threshold` of which give the
key back.

The key dealt is the given secret or its opposite, whichever has an even point, so that the
group's point is the one an x-only public key names. Shares are numbered from one.
-/

namespace KeyQuorum

structure Dealing where
  group : Point
  commitments : List Point
  shares : List KeyShare

namespace Dealing

/-- The scalar, or its opposite, with an even point. -/
def canonical (s : Scalar) : Scalar := if (Point.ofScalar s).oddY then -s else s

def share (f : Polynomial) (group : Point) (commitments : List Point) (id : UInt16) : KeyShare :=
  let secret := f.evaluate (Scalar.ofId id)
  ⟨secret, group, id, Point.ofScalar secret, commitments⟩

/-- The shares of a polynomial for the numbers from one up to `count`. -/
def ofPolynomial (f : Polynomial) (group : Point) (count : Nat) : Dealing :=
  let commitments := f.commitments
  ⟨group, commitments,
    (List.range count).map fun i => share f group commitments (UInt16.ofNat (i + 1))⟩

theorem toNat_number {i count : Nat} (hcount : count < 65536) (hi : i < count) :
    (UInt16.ofNat (i + 1)).toNat = i + 1 :=
  UInt16.toNat_ofNat_of_lt' (by rw [UInt16.size]; omega)

/-- Whether a threshold and a number of signers can be dealt for. -/
def Admissible (threshold maxSigners : UInt32) : Prop :=
  threshold ≠ 0 ∧ threshold ≤ maxSigners ∧ maxSigners ≤ 65535

instance (threshold maxSigners : UInt32) : Decidable (Admissible threshold maxSigners) := by
  unfold Admissible; infer_instance

def deal (secret : Scalar) (threshold maxSigners : UInt32) (e : Entropy) :
    Except SharingError (Dealing × Entropy) :=
  if ¬ Admissible threshold maxSigners then .error .invalidParameters
  else if secret = 0 then .error .zeroSecret
  else
    let secret := canonical secret
    let (f, e) := Polynomial.random secret threshold.toNat e
    .ok (ofPolynomial f (Point.ofScalar secret) maxSigners.toNat, e)

/-- Whether every share carries the dealing's own group point and commitments. -/
def uniform (d : Dealing) : Bool :=
  d.shares.all fun s => s.group = d.group && s.publicShare.commitments = d.commitments

end Dealing

end KeyQuorum
