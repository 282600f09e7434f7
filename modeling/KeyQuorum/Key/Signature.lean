import KeyQuorum.Hash.Sha256
import KeyQuorum.Key.Pair

/-!
Schnorr signatures over thirty-two byte messages, in the form of BIP-340.

A signature is the first coordinate of an even point `R` and a scalar `s`; it holds for a key
`P` when `s` times the generator is `R` plus `P` taken as often as a hash of all three says.
The scalar behind `R` is hashed from the secret, the message and a block of fresh randomness.
A signature is checked before it is handed out.
-/

namespace KeyQuorum

abbrev Signature := Block 64

namespace Signature

/-- The factor that ties a signature to its key and message. -/
def challenge (r : Bytes) (k : PublicKey) (message : Block 32) : Scalar :=
  Residue.reduce (Sha256.tagged "BIP0340/challenge" (r ++ k.bytes ++ message.bytes))

def ofParts (r s : Block 32) : Signature :=
  ⟨r.bytes ++ s.bytes, by rw [List.length_append, r.length_bytes, s.length_bytes]⟩

def verify (k : PublicKey) (message : Block 32) (sig : Signature) : Bool :=
  match Residue.ofBytes? fieldPrime (sig.bytes.take 32),
      Residue.ofBytes? groupOrder (sig.bytes.drop 32) with
  | some r, some s =>
    let e := challenge (sig.bytes.take 32) k message
    let p := Point.ofScalar s - e * k.point
    r ≠ 0 && s ≠ 0 && p.x? = some r && !p.oddY
  | _, _ => false

/-- The one-time scalar of a signature, before its point is made even. -/
def nonce? (k : KeyPair) (random message : Block 32) : Option UnitScalar :=
  let mask := (Sha256.tagged "BIP0340/aux" random.bytes).bytes
  UnitScalar.ofBlock? (Sha256.tagged "BIP0340/nonce"
    (Bytes.xor (Residue.toBytes k.evenSecret) mask ++ k.publicKey.bytes ++ message.bytes))

def make? (k : KeyPair) (message : Block 32) (n : UnitScalar) : Option Signature := do
  let x ← (Point.ofScalar n.1).x?
  let r := Residue.toBlock x
  let n := if (Point.ofScalar n.1).oddY then -n.1 else n.1
  return ofParts r (Residue.toBlock (n + challenge r.bytes k.publicKey message * k.evenSecret))

def sign (k : KeyPair) (random message : Block 32) : Except KeyError Signature :=
  match ((nonce? k random message).bind (make? k message)).filter (verify k.publicKey message) with
  | some sig => .ok sig
  | none => .error .signingFailed

/-- What signing hands out holds for the signer's own key. -/
theorem verify_of_sign {k : KeyPair} {random message : Block 32} {sig : Signature}
    (h : sign k random message = .ok sig) : verify k.publicKey message sig = true := by
  unfold sign at h
  split at h
  · next hs => cases h; exact (Option.filter_eq_some_iff.mp hs).2
  · cases h

end Signature

end KeyQuorum
