import KeyQuorum.Bytes

/-!
Residues modulo a number: powers, inverses and their byte form.

Powers go by repeated squaring over the bits of the exponent. Modulo a prime the power
`m - 2` is the inverse, which is how division is done here. A residue is written in thirty-two
bytes, most significant first, and read back only when the number is below the modulus.
-/

namespace KeyQuorum.Residue

-- The zero is named, so that it is the same one whatever else is imported.
variable {m : Nat} [@NeZero Nat Zero.ofOfNat0 m]

/-- The power `a ^ e`, for `e` of at most `width` bits. -/
def powBits (a : Fin m) : (width e : Nat) → Fin m
  | 0, _ => 1
  | width + 1, e =>
    let r := powBits a width (e / 2)
    if e % 2 = 1 then r * r * a else r * r

@[irreducible] def pow (a : Fin m) (e : Nat) : Fin m := powBits a (e.log2 + 1) e

/-- The inverse modulo a prime; zero has none and gives zero. -/
def inverse (a : Fin m) : Fin m := pow a (m - 2)

def toBlock (a : Fin m) : Block 32 := Block.ofNat 32 a.val

def toBytes (a : Fin m) : Bytes := (toBlock a).bytes

omit [@NeZero Nat Zero.ofOfNat0 m] in
def ofNat? (m v : Nat) : Option (Fin m) := if h : v < m then some ⟨v, h⟩ else none

def ofBlock? (m : Nat) (b : Block 32) : Option (Fin m) := ofNat? m b.toNat

def ofBytes? (m : Nat) (bs : Bytes) : Option (Fin m) := (Block.ofBytes? 32 bs).bind (ofBlock? m)

def reduce (b : Block 32) : Fin m := Fin.ofNat m b.toNat

omit [@NeZero Nat Zero.ofOfNat0 m] in
/-- What is written reads back, for a modulus that thirty-two bytes can hold. -/
theorem ofBytes?_toBytes (h : m ≤ Nat.pow 256 32) (a : Fin m) :
    ofBytes? m (toBytes a) = some a := by
  have ha : a.val < Nat.pow 256 32 := Nat.lt_of_lt_of_le a.isLt h
  simp [ofBytes?, toBytes, ofBlock?, toBlock, Block.toNat_ofNat ha, ofNat?]

omit [@NeZero Nat Zero.ofOfNat0 m] in
/-- What is read is what would be written of it. -/
theorem toBytes_of_ofBytes? {bs : Bytes} {a : Fin m} (h : ofBytes? m bs = some a) :
    toBytes a = bs := by
  simp only [ofBytes?, Option.bind_eq_some_iff, Block.ofBytes?, Option.dite_none_right_eq_some,
    Option.some.injEq] at h
  obtain ⟨b, ⟨hlen, rfl⟩, hvalue⟩ := h
  simp only [ofBlock?, ofNat?, Option.dite_none_right_eq_some, Option.some.injEq] at hvalue
  obtain ⟨hlt, rfl⟩ := hvalue
  exact congrArg Block.bytes (Block.ofNat_toNat ⟨bs, hlen⟩)

end KeyQuorum.Residue
