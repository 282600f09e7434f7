import Mathlib.Tactic.Lemma
import KeyQuorum.Text.Base64

/-!
Base64 text is read just if it is written so.

A character has one value and a value one character. The places of the last group that carry no
bits are checked when the text is read, so nothing is lost in the bytes, and writing them gives
the text again.
-/

namespace KeyQuorum.Base64

variable {c : Char} {cs : List Char} {bs : Bytes} {v : Nat}

lemma value?_eq_some : ∀ n < 128, ∀ v ∈ value? (Char.ofNat n),
    v < 64 ∧ symbol v = Char.ofNat n := by decide

lemma toNat_lt_of_value? (h : value? c = some v) : c.toNat < 128 := by
  unfold value? at h
  split at h
  · next hc => exact Nat.lt_of_le_of_lt hc.2 (by decide)
  split at h
  · next hc => exact Nat.lt_of_le_of_lt hc.2 (by decide)
  split at h
  · next hc => exact Nat.lt_of_le_of_lt hc.2 (by decide)
  split at h
  · next hc => rw [hc]; decide
  split at h
  · next hc => rw [hc]; decide
  · cases h

lemma symbol_of_value? (h : value? c = some v) : v < 64 ∧ symbol v = c := by
  have hc : Char.ofNat c.toNat = c := c.ofNat_toNat
  have hv := value?_eq_some c.toNat (toNat_lt_of_value? h) v
  rw [hc] at hv
  exact hv h

lemma encodeChars_of_decodeChars (h : decodeChars cs = some bs) : encodeChars bs = cs := by
  induction cs using decodeChars.induct generalizing bs with
  | case1 =>
    obtain rfl := Option.some.inj h
    rfl
  | case2 a b =>
    simp only [decodeChars, Option.bind_eq_bind, Option.bind_eq_some_iff,
      Option.ite_none_right_eq_some, Option.some.injEq] at h
    obtain ⟨x, ha, y, hb, hspare, rfl⟩ := h
    obtain ⟨hx, rfl⟩ := symbol_of_value? ha
    obtain ⟨hy, rfl⟩ := symbol_of_value? hb
    -- The bits left over in the last character are zero, as the text was read.
    have hfirst : (UInt8.ofNat (x * 4 + y / 16)).toNat = x * 4 + y / 16 :=
      UInt8.toNat_ofNat_of_lt' (show _ < 256 by omega)
    have h0 : (x * 4 + y / 16) / 4 = x := by omega
    have h1 : (x * 4 + y / 16) % 4 * 16 = y := by omega
    rw [encodeChars, hfirst, h0, h1]
  | case3 a b c hne =>
    rw [decodeChars.eq_3 _ _ _ hne] at h
    simp only [Option.bind_eq_bind, Option.bind_eq_some_iff,
      Option.ite_none_right_eq_some, Option.some.injEq] at h
    obtain ⟨x, ha, y, hb, z, hc, hspare, rfl⟩ := h
    obtain ⟨hx, rfl⟩ := symbol_of_value? ha
    obtain ⟨hy, rfl⟩ := symbol_of_value? hb
    obtain ⟨hz, rfl⟩ := symbol_of_value? hc
    have hfirst : (UInt8.ofNat (x * 4 + y / 16)).toNat = x * 4 + y / 16 :=
      UInt8.toNat_ofNat_of_lt' (show _ < 256 by omega)
    have hsecond : (UInt8.ofNat (y % 16 * 16 + z / 4)).toNat = y % 16 * 16 + z / 4 :=
      UInt8.toNat_ofNat_of_lt' (show _ < 256 by omega)
    have h0 : (x * 4 + y / 16) / 4 = x := by omega
    have h1 : (x * 4 + y / 16) % 4 * 16 + (y % 16 * 16 + z / 4) / 16 = y := by omega
    have h2 : (y % 16 * 16 + z / 4) % 16 * 4 = z := by omega
    rw [encodeChars, hfirst, hsecond, h0, h1, h2]
  | case4 a b c d rest hne hne' ih =>
    rw [decodeChars.eq_4 _ _ _ _ _ hne hne'] at h
    simp only [Option.bind_eq_bind, Option.bind_eq_some_iff, Option.pure_def,
      Option.some.injEq] at h
    obtain ⟨x, ha, y, hb, z, hc, w, hd, tail, hrest, rfl⟩ := h
    obtain ⟨hx, rfl⟩ := symbol_of_value? ha
    obtain ⟨hy, rfl⟩ := symbol_of_value? hb
    obtain ⟨hz, rfl⟩ := symbol_of_value? hc
    obtain ⟨hw, rfl⟩ := symbol_of_value? hd
    have hfirst : (UInt8.ofNat (x * 4 + y / 16)).toNat = x * 4 + y / 16 :=
      UInt8.toNat_ofNat_of_lt' (show _ < 256 by omega)
    have hsecond : (UInt8.ofNat (y % 16 * 16 + z / 4)).toNat = y % 16 * 16 + z / 4 :=
      UInt8.toNat_ofNat_of_lt' (show _ < 256 by omega)
    have hthird : (UInt8.ofNat (z % 4 * 64 + w)).toNat = z % 4 * 64 + w :=
      UInt8.toNat_ofNat_of_lt' (show _ < 256 by omega)
    have h0 : (x * 4 + y / 16) / 4 = x := by omega
    have h1 : (x * 4 + y / 16) % 4 * 16 + (y % 16 * 16 + z / 4) / 16 = y := by omega
    have h2 : (y % 16 * 16 + z / 4) % 16 * 4 + (z % 4 * 64 + w) / 64 = z := by omega
    have h3 : (z % 4 * 64 + w) % 64 = w := by omega
    rw [encodeChars, hfirst, hsecond, hthird, h0, h1, h2, h3, ih hrest]
  | case5 cs =>
    rw [decodeChars] at h <;> simp_all

/-- Text that begins with a character outside the alphabet is not read. -/
lemma decodeChars_cons_eq_none (h : value? c = none) (cs : List Char) :
    decodeChars (c :: cs) = none := by
  unfold decodeChars
  split
  case h_1 heq => cases heq
  case h_5 => rfl
  all_goals
    next heq =>
      obtain ⟨rfl, -⟩ := List.cons.inj heq
      rw [h]
      rfl

/-- **Text is read as the bytes it is written of**, and as no others. -/
theorem decode_eq_some_iff (s : String) (bs : Bytes) : decode s = some bs ↔ s = encode bs := by
  constructor
  · intro h
    rw [encode, encodeChars_of_decodeChars h, String.ofList_toList]
  · rintro rfl
    exact decode_encode bs

end KeyQuorum.Base64
