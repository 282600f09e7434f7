import KeyQuorum.Curve.Compressed
import KeyQuorum.Sharing.Share
import KeyQuorum.Text.Hex

/-!
Shares as bytes and as hexadecimal text.

A public share is its number in two bytes and the number of its commitments in four, both with
the least significant byte first, and then the compressed points, its own in front. A key share
is its public share followed by the secret and the group's point. The count in the header
fixes the length, which is checked before anything behind the header is read.
-/

namespace KeyQuorum

inductive WireError where
  | malformed (expected got : Nat)
  | invalidPoint
  | invalidScalar
  | invalidHex
  deriving DecidableEq, Repr

def WireError.message : WireError → String
  | .malformed expected got =>
    "malformed encoding: expected " ++ toString expected ++ " bytes, got " ++ toString got
  | .invalidPoint => "invalid curve point"
  | .invalidScalar => "invalid scalar"
  | .invalidHex => "invalid hex encoding"

namespace Wire

def publicLength (count : Nat) : Nat := 6 + 33 * (1 + count)

def keyLength (count : Nat) : Nat := publicLength count + 65

/-- The number and the count at the front of a share. -/
def header (bs : Bytes) : UInt16 × Nat :=
  (UInt16.ofNat (Bytes.ofLittleEndian (bs.take 2)), Bytes.ofLittleEndian ((bs.drop 2).take 4))

def point (bs : Bytes) : Except WireError Point :=
  match Point.decompress? bs with
  | some p => .ok p
  | none => .error .invalidPoint

def points : Nat → Bytes → Except WireError (List Point)
  | 0, _ => .ok []
  | n + 1, bs => do
    let p ← point (bs.take 33)
    let ps ← points n (bs.drop 33)
    return p :: ps

/-- The public share in front of bytes that are long enough. -/
def publicPart (bs : Bytes) : Except WireError PublicShare := do
  let (id, count) := header bs
  let p ← point ((bs.drop 6).take 33)
  let ps ← points count (bs.drop 39)
  return ⟨id, p, ps⟩

def scalar (bs : Bytes) : Except WireError Scalar :=
  match Residue.ofBytes? groupOrder bs with
  | some s => .ok s
  | none => .error .invalidScalar

/-- Refuses bytes whose length is not the one that `length` gives for the header's count. -/
def checkLength (length : Nat → Nat) (bs : Bytes) : Except WireError Unit :=
  if bs.length < publicLength 0 then .error (.malformed (publicLength 0) bs.length)
  else if bs.length ≠ length (header bs).2 then
    .error (.malformed (length (header bs).2) bs.length)
  else .ok ()

end Wire

namespace PublicShare

def encodedLength (p : PublicShare) : Nat := Wire.publicLength p.commitments.length

def encode (p : PublicShare) : Bytes :=
  Bytes.littleEndian 2 p.id.toNat ++ Bytes.littleEndian 4 p.commitments.length ++
    p.point.compress ++ p.commitments.flatMap Point.compress

def decode (bs : Bytes) : Except WireError PublicShare := do
  Wire.checkLength Wire.publicLength bs
  Wire.publicPart bs

def toHex (p : PublicShare) : String := Hex.encode p.encode

def ofHex (s : String) : Except WireError PublicShare :=
  match Hex.decode s with
  | some bs => decode bs
  | none => .error .invalidHex

end PublicShare

namespace KeyShare

def encode (s : KeyShare) : Bytes :=
  s.publicShare.encode ++ Residue.toBytes s.secret ++ s.group.compress

def decode (bs : Bytes) : Except WireError KeyShare := do
  Wire.checkLength Wire.keyLength bs
  let p ← Wire.publicPart bs
  let suffix := bs.drop (Wire.publicLength (Wire.header bs).2)
  let secret ← Wire.scalar (suffix.take 32)
  let group ← Wire.point (suffix.drop 32)
  return ⟨secret, group, p⟩

def toHex (s : KeyShare) : String := Hex.encode s.encode

def ofHex (s : String) : Except WireError KeyShare :=
  match Hex.decode s with
  | some bs => decode bs
  | none => .error .invalidHex

end KeyShare

end KeyQuorum
