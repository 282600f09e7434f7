import KeyQuorum.Bytes

/-!
Base64 text with padding, in its one strict form.

Three bytes become four characters; a last group of one or two bytes is filled up with `=`.
Reading refuses missing padding, characters outside the alphabet and bits set in the part of
the last character that carries none, so each byte string has exactly one text.
-/

namespace KeyQuorum.Base64

/-- The character of a six bit value. -/
def symbol (n : Nat) : Char :=
  if n < 26 then Char.ofNat (65 + n)
  else if n < 52 then Char.ofNat (71 + n)
  else if n < 62 then Char.ofNat (n - 4)
  else if n = 62 then '+'
  else '/'

def value? (c : Char) : Option Nat :=
  if 'A' ≤ c ∧ c ≤ 'Z' then some (c.toNat - 65)
  else if 'a' ≤ c ∧ c ≤ 'z' then some (c.toNat - 71)
  else if '0' ≤ c ∧ c ≤ '9' then some (c.toNat + 4)
  else if c = '+' then some 62
  else if c = '/' then some 63
  else none

def encodeChars : Bytes → List Char
  | [] => []
  | [a] => [symbol (a.toNat / 4), symbol (a.toNat % 4 * 16), '=', '=']
  | [a, b] =>
    [symbol (a.toNat / 4), symbol (a.toNat % 4 * 16 + b.toNat / 16), symbol (b.toNat % 16 * 4), '=']
  | a :: b :: c :: rest =>
    symbol (a.toNat / 4) :: symbol (a.toNat % 4 * 16 + b.toNat / 16) ::
      symbol (b.toNat % 16 * 4 + c.toNat / 64) :: symbol (c.toNat % 64) :: encodeChars rest

def decodeChars : List Char → Option Bytes
  | [] => some []
  | [a, b, '=', '='] => do
    let x ← value? a
    let y ← value? b
    if y % 16 = 0 then some [UInt8.ofNat (x * 4 + y / 16)] else none
  | [a, b, c, '='] => do
    let x ← value? a
    let y ← value? b
    let z ← value? c
    if z % 4 = 0 then some [UInt8.ofNat (x * 4 + y / 16), UInt8.ofNat (y % 16 * 16 + z / 4)]
    else none
  | a :: b :: c :: d :: rest => do
    let x ← value? a
    let y ← value? b
    let z ← value? c
    let w ← value? d
    let bs ← decodeChars rest
    return UInt8.ofNat (x * 4 + y / 16) :: UInt8.ofNat (y % 16 * 16 + z / 4) ::
      UInt8.ofNat (z % 4 * 64 + w) :: bs
  | _ => none

def encode (bs : Bytes) : String := String.ofList (encodeChars bs)

def decode (s : String) : Option Bytes := decodeChars s.toList

theorem value?_symbol : ∀ n < 64, value? (symbol n) = some n := by decide

theorem symbol_ne_pad : ∀ n < 64, symbol n ≠ '=' := by decide

theorem decodeChars_encodeChars (bs : Bytes) : decodeChars (encodeChars bs) = some bs := by
  induction bs using encodeChars.induct with
  | case1 => rfl
  | case2 a =>
    have ha := a.toNat_lt
    have hx := value?_symbol (a.toNat / 4) (by omega)
    have hy := value?_symbol (a.toNat % 4 * 16) (by omega)
    have hi : a.toNat / 4 * 4 + a.toNat % 4 * 16 / 16 = a.toNat := by omega
    have h0 : a.toNat % 4 * 16 % 16 = 0 := by omega
    simp only [encodeChars, decodeChars, hx, hy, Option.bind_eq_bind, Option.bind_some, hi, h0,
      ↓reduceIte, UInt8.ofNat_toNat]
  | case3 a b =>
    have ha := a.toNat_lt
    have hb := b.toNat_lt
    have hx := value?_symbol (a.toNat / 4) (by omega)
    have hy := value?_symbol (a.toNat % 4 * 16 + b.toNat / 16) (by omega)
    have hz := value?_symbol (b.toNat % 16 * 4) (by omega)
    have hi : a.toNat / 4 * 4 + (a.toNat % 4 * 16 + b.toNat / 16) / 16 = a.toNat := by omega
    have hj : (a.toNat % 4 * 16 + b.toNat / 16) % 16 * 16 + b.toNat % 16 * 4 / 4 = b.toNat := by
      omega
    have h0 : b.toNat % 16 * 4 % 4 = 0 := by omega
    rw [encodeChars, decodeChars, hx, hy, hz]
    · simp only [Option.bind_eq_bind, Option.bind_some, hi, hj, h0, ↓reduceIte, UInt8.ofNat_toNat]
    · exact symbol_ne_pad _ (by omega)
  | case4 a b c rest ih =>
    have ha := a.toNat_lt
    have hb := b.toNat_lt
    have hc := c.toNat_lt
    have hx := value?_symbol (a.toNat / 4) (by omega)
    have hy := value?_symbol (a.toNat % 4 * 16 + b.toNat / 16) (by omega)
    have hz := value?_symbol (b.toNat % 16 * 4 + c.toNat / 64) (by omega)
    have hw := value?_symbol (c.toNat % 64) (by omega)
    have hp := symbol_ne_pad (c.toNat % 64) (by omega)
    have hi : a.toNat / 4 * 4 + (a.toNat % 4 * 16 + b.toNat / 16) / 16 = a.toNat := by omega
    have hj : (a.toNat % 4 * 16 + b.toNat / 16) % 16 * 16 +
        (b.toNat % 16 * 4 + c.toNat / 64) / 4 = b.toNat := by omega
    have hk : (b.toNat % 16 * 4 + c.toNat / 64) % 4 * 64 + c.toNat % 64 = c.toNat := by omega
    rw [encodeChars, decodeChars, hx, hy, hz, hw, ih]
    · simp only [Option.bind_eq_bind, Option.bind_some, hi, hj, hk, UInt8.ofNat_toNat]; rfl
    · intro _ h _; exact hp h
    · intro h _; exact hp h

theorem length_encodeChars (bs : Bytes) : (encodeChars bs).length = 4 * ((bs.length + 2) / 3) := by
  induction bs using encodeChars.induct with
  | case1 => rfl
  | case2 a => simp [encodeChars]
  | case3 a b => simp [encodeChars]
  | case4 a b c rest ih => simp only [encodeChars, List.length_cons, ih]; omega

theorem decode_encode (bs : Bytes) : decode (encode bs) = some bs := by
  simp [decode, encode, decodeChars_encodeChars]

end KeyQuorum.Base64
