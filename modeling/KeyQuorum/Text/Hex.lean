import KeyQuorum.Bytes

/-!
Hexadecimal text: two digits a byte, high half first.

Writing uses lower case; reading takes either case and refuses an odd number of digits and
every other character. So a text that reads is, in lower case, the text that writing gives.
-/

namespace KeyQuorum.Hex

/-- The digit of a half byte. -/
def digit (n : Nat) : Char :=
  if n < 10 then Char.ofNat (48 + n) else Char.ofNat (87 + n)

def value? (c : Char) : Option Nat :=
  if '0' ≤ c ∧ c ≤ '9' then some (c.toNat - 48)
  else if 'a' ≤ c ∧ c ≤ 'f' then some (c.toNat - 87)
  else if 'A' ≤ c ∧ c ≤ 'F' then some (c.toNat - 55)
  else none

def digits (b : UInt8) : List Char := [digit (b.toNat / 16), digit (b.toNat % 16)]

def encodeChars (bs : Bytes) : List Char := bs.flatMap digits

def decodeChars : List Char → Option Bytes
  | [] => some []
  | [_] => none
  | hi :: lo :: rest => do
    let h ← value? hi
    let l ← value? lo
    let bs ← decodeChars rest
    return UInt8.ofNat (16 * h + l) :: bs

def encode (bs : Bytes) : String := String.ofList (encodeChars bs)

def decode (s : String) : Option Bytes := decodeChars s.toList

theorem value?_digit : ∀ n < 16, value? (digit n) = some n := by decide

@[simp] theorem encodeChars_nil : encodeChars [] = [] := rfl

@[simp] theorem encodeChars_cons (b : UInt8) (bs : Bytes) :
    encodeChars (b :: bs) = digit (b.toNat / 16) :: digit (b.toNat % 16) :: encodeChars bs := rfl

theorem decodeChars_encodeChars (bs : Bytes) : decodeChars (encodeChars bs) = some bs := by
  induction bs with
  | nil => rfl
  | cons b bs ih =>
    have hb := b.toNat_lt
    have hhi := value?_digit (b.toNat / 16) (by omega)
    have hlo := value?_digit (b.toNat % 16) (by omega)
    have hjoin : UInt8.ofNat (16 * (b.toNat / 16) + b.toNat % 16) = b := by
      rw [Nat.div_add_mod]; exact UInt8.ofNat_toNat
    rw [encodeChars_cons, decodeChars, hhi, hlo, ih]
    exact congrArg (fun c => some (c :: bs)) hjoin

theorem length_encodeChars (bs : Bytes) : (encodeChars bs).length = 2 * bs.length := by
  induction bs with
  | nil => rfl
  | cons b bs ih => rw [encodeChars_cons, List.length_cons, List.length_cons, ih]; rfl

theorem decode_encode (bs : Bytes) : decode (encode bs) = some bs := by
  simp [decode, encode, decodeChars_encodeChars]

theorem value?_eq_some : ∀ n < 128, ∀ v ∈ value? (Char.ofNat n),
    v < 16 ∧ digit v = (Char.ofNat n).toLower := by decide

theorem toNat_lt_of_value? {c : Char} {v : Nat} (h : value? c = some v) : c.toNat < 128 := by
  unfold value? at h
  split at h
  · next hc => exact Nat.lt_of_le_of_lt hc.2 (by decide)
  split at h
  · next hc => exact Nat.lt_of_le_of_lt hc.2 (by decide)
  split at h
  · next hc => exact Nat.lt_of_le_of_lt hc.2 (by decide)
  · cases h

/-- The digit of a character's value is the character in lower case. -/
theorem digit_of_value? {c : Char} {v : Nat} (h : value? c = some v) :
    v < 16 ∧ digit v = c.toLower := by
  have hc : Char.ofNat c.toNat = c := c.ofNat_toNat
  have hv := value?_eq_some c.toNat (toNat_lt_of_value? h) v
  rw [hc] at hv
  exact hv h

theorem encodeChars_of_decodeChars {cs : List Char} {bs : Bytes} (h : decodeChars cs = some bs) :
    encodeChars bs = cs.map Char.toLower := by
  induction cs using decodeChars.induct generalizing bs with
  | case1 => obtain rfl := Option.some.inj h; rfl
  | case2 => cases h
  | case3 hi lo rest ih =>
    simp only [decodeChars, Option.bind_eq_bind, Option.bind_eq_some_iff, Option.pure_def,
      Option.some.injEq] at h
    obtain ⟨vh, hhi, vl, hlo, tail, hrest, rfl⟩ := h
    obtain ⟨hvh, hhigh⟩ := digit_of_value? hhi
    obtain ⟨hvl, hlow⟩ := digit_of_value? hlo
    have hbyte : (UInt8.ofNat (16 * vh + vl)).toNat = 16 * vh + vl := by
      rw [UInt8.toNat_ofNat']
      omega
    have hdiv : (16 * vh + vl) / 16 = vh := by omega
    have hmod : (16 * vh + vl) % 16 = vl := by omega
    rw [encodeChars_cons, hbyte, hdiv, hmod, hhigh, hlow, ih hrest]
    rfl

/-- What is read is, in lower case, what is written of it. -/
theorem encode_of_decode {s : String} {bs : Bytes} (h : decode s = some bs) :
    encode bs = s.toLower := by
  rw [encode, encodeChars_of_decodeChars h, ← String.toList_map, String.ofList_toList]
  rfl

end KeyQuorum.Hex
