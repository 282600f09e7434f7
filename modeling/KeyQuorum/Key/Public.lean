import KeyQuorum.Curve.Compressed
import KeyQuorum.Key.Halt
import KeyQuorum.Text.Hex

/-!
Public keys: the first coordinate of a point whose second coordinate is even.

The coordinate alone names the point, so a key is thirty-two bytes, and keys are compared and
sorted by the number they spell.
-/

namespace KeyQuorum

inductive KeyError where
  | invalidSecret
  | invalidPublic
  | invalidHex
  | signingFailed
  deriving DecidableEq, Repr

def KeyError.message : KeyError → String
  | .invalidSecret => "invalid secret key"
  | .invalidPublic => "invalid public key"
  | .invalidHex => "invalid hex encoding"
  | .signingFailed => "signing failed"

structure PublicKey where
  x : Fe
  lifts : (Point.lift? false x).isSome
  deriving DecidableEq

namespace PublicKey

def ofX? (x : Fe) : Option PublicKey :=
  if h : (Point.lift? false x).isSome then some ⟨x, h⟩ else none

/-- The key of a point or of its opposite, whichever is even. -/
def ofPoint? (p : Point) : Option PublicKey := p.x?.bind ofX?

/-- The point with even second coordinate that the key names. -/
def point (k : PublicKey) : Point := (Point.lift? false k.x).get k.lifts

def bytes (k : PublicKey) : Bytes := Residue.toBytes k.x

def hex (k : PublicKey) : String := Hex.encode k.bytes

def ofBlock? (b : Block 32) : Option PublicKey := (Residue.ofBlock? fieldPrime b).bind ofX?

/-- Reads a key from hexadecimal text. Only the length is left to the caller: bytes that are
not thirty-two halt the reading. -/
def ofHex (s : String) : Except (Halt KeyError) PublicKey :=
  match Hex.decode s with
  | none => .error (.refused .invalidHex)
  | some bs =>
    match Block.ofBytes? 32 bs with
    | none => .error .halted
    | some b =>
      match ofBlock? b with
      | none => .error (.refused .invalidPublic)
      | some k => .ok k

def sorted (ks : List PublicKey) : List PublicKey :=
  (ks.mergeSort fun a b => a.x.val ≤ b.x.val).eraseReps

def shown (k : PublicKey) : String := "PubKey(" ++ k.hex ++ ")"

end PublicKey

end KeyQuorum
