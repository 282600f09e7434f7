import KeyQuorum.Event.Basic
import KeyQuorum.Proofs.Hash.Message
import KeyQuorum.Proofs.Key.Signing

/-!
The ids of drafts whose texts are spelled out.

Texts are given by their letters, or by the bytes they spell in hexadecimal. The bytes under the
hash are then put together without a string in between: JSON writes hexadecimal digits as they
are, one byte each. So an id can be worked out even for a draft of many long texts.
-/

namespace KeyQuorum

namespace Hex

def asciiDigit (n : Nat) : UInt8 :=
  UInt8.ofNat (Nat.shiftRight 0x66656463626139383736353433323130 (Nat.mul 8 n))

def ascii (bs : Bytes) : Bytes :=
  bs.flatMap fun b => [asciiDigit (b.toNat.div 16), asciiDigit (b.toNat.mod 16)]

lemma utf8_digit : ∀ n < 16, String.utf8EncodeChar (digit n) = [asciiDigit n] := by decide

lemma escape_digit : ∀ n < 16, Json.escape (digit n) = [digit n] := by decide

lemma utf8_encodeChars (bs : Bytes) : Json.utf8 (encodeChars bs) = ascii bs := by
  induction bs with
  | nil => rfl
  | cons b bs ih =>
    have hb := b.toNat_lt
    have hhi := utf8_digit (b.toNat / 16) (by omega)
    have hlo := utf8_digit (b.toNat % 16) (by omega)
    simp only [Json.utf8] at ih
    simp only [Json.utf8, encodeChars_cons, List.flatMap_cons, hhi, hlo, ih]
    rfl

lemma escape_encodeChars (bs : Bytes) : (encodeChars bs).flatMap Json.escape = encodeChars bs := by
  induction bs with
  | nil => rfl
  | cons b bs ih =>
    have hb := b.toNat_lt
    have hhi := escape_digit (b.toNat / 16) (by omega)
    have hlo := escape_digit (b.toNat % 16) (by omega)
    simp only [encodeChars_cons, List.flatMap_cons, hhi, hlo, ih]
    rfl

lemma length_ascii (bs : Bytes) : (ascii bs).length = 2 * bs.length := by
  induction bs with
  | nil => rfl
  | cons b bs ih =>
    simp only [ascii, List.flatMap_cons, List.length_append, List.length_cons, List.length_nil]
      at ih ⊢
    omega

lemma toUTF8_encode (bs : Bytes) : (encode bs).toUTF8.data.toList = ascii bs := by
  rw [← utf8_encodeChars, encode, String.toUTF8_eq_toByteArray, String.toByteArray_ofList,
    List.utf8Encode, List.data_toByteArray]
  rfl

end Hex

/-- A text by its letters, or by the bytes it spells in hexadecimal, part by part. -/
inductive Spelling where
  | letters (cs : List Char)
  | hex (parts : List Bytes)

namespace Spelling

open Sha256.Packed

def chars : Spelling → Json.Text
  | letters cs => cs
  | hex parts => Hex.encodeChars parts.flatten

def text (t : Spelling) : String := String.ofList t.chars

@[simp] lemma text_letters (cs : List Char) : (letters cs).text = String.ofList cs := rfl

@[simp] lemma text_hex (parts : List Bytes) : (hex parts).text = Hex.encode parts.flatten := rfl

def message : Spelling → Message
  | letters cs => .ofBytes (Json.utf8 cs)
  | hex parts => .join (parts.map fun bs => .ofBytes (Hex.ascii bs))

lemma message_eq (t : Spelling) : t.message = .ofBytes (Json.utf8 t.chars) := by
  cases t with
  | letters cs => rfl
  | hex parts =>
    have hascii : (parts.map Hex.ascii).flatten = Hex.ascii parts.flatten := by
      simp only [Hex.ascii, List.flatMap_def, List.map_flatten, List.flatten_flatten, List.map_map]
      rfl
    have hjoin := Message.join_map_ofBytes (parts.map Hex.ascii)
    rw [List.map_map] at hjoin
    exact hjoin.trans (congrArg Message.ofBytes (hascii.trans (Hex.utf8_encodeChars _).symm))

/-! JSON in pieces, one after the other. -/

def quoted : Spelling → List Spelling
  | letters cs => [letters ('"' :: cs.flatMap Json.escape ++ ['"'])]
  | hex parts => [letters ['"'], hex parts, letters ['"']]

def listed : List (List Spelling) → List Spelling
  | [] => []
  | [t] => t
  | t :: u :: rest => t ++ letters [','] :: listed (u :: rest)

def bracketed (items : List (List Spelling)) : List Spelling :=
  letters ['['] :: listed items ++ [letters [']']]

lemma flatMap_quoted (t : Spelling) : t.quoted.flatMap chars = Json.string t.text := by
  cases t with
  | letters cs =>
    rw [Json.string, text, String.toList_ofList, quoted, List.flatMap_singleton]
    rfl
  | hex parts =>
    rw [Json.string, text, String.toList_ofList, chars, Hex.escape_encodeChars]
    rfl

lemma flatMap_listed (items : List (List Spelling)) :
    (listed items).flatMap chars = Json.commas (items.map (·.flatMap chars)) := by
  induction items using listed.induct with
  | case1 => rfl
  | case2 t => rfl
  | case3 t u rest ih =>
    rw [listed, List.flatMap_append, List.flatMap_cons, ih]
    rfl

lemma flatMap_bracketed (items : List (List Spelling)) :
    (bracketed items).flatMap chars = Json.array (items.map (·.flatMap chars)) := by
  rw [bracketed, List.flatMap_append, List.flatMap_cons, flatMap_listed]
  rfl

/-- A text in pieces as a message. -/
lemma join_message (pieces : List Spelling) :
    Message.join (pieces.map message) = .ofBytes (Json.utf8 (pieces.flatMap chars)) := by
  have hmessages : pieces.map message = (pieces.map fun t => Json.utf8 t.chars).map .ofBytes := by
    rw [List.map_map]
    exact List.map_congr_left fun t _ => t.message_eq
  have htext :
      Json.utf8 (pieces.flatMap chars) = (pieces.map fun t => Json.utf8 t.chars).flatten := by
    rw [Json.utf8, List.flatMap_assoc]
    rfl
  rw [hmessages, Message.join_map_ofBytes, htext]

end Spelling

/-- A draft with its texts spelled out. -/
structure Draft.Spelled where
  author : PublicKey
  createdAt : Timestamp
  kind : UInt16
  tags : List (List Spelling)
  content : Spelling

namespace Draft.Spelled

open Spelling

def draft (d : Spelled) : Draft :=
  ⟨d.author, d.createdAt, d.kind, d.tags.map (·.map text), d.content.text⟩

/-- What is hashed to the id, in pieces. -/
def pieces (d : Spelled) : List Spelling :=
  bracketed [[letters (Json.number 0)], (hex [d.author.bytes]).quoted,
    [letters (Json.number d.createdAt.toNat)], [letters (Json.number d.kind.toNat)],
    bracketed (d.tags.map fun t => bracketed (t.map quoted)), d.content.quoted]

def message (d : Spelled) : Sha256.Packed.Message := .join (d.pieces.map Spelling.message)

/-- **The id of a draft** whose texts are spelled out. -/
theorem id_draft (d : Spelled) : d.draft.id = d.message.hash := by
  have hstrings (t : List Spelling) :
      (bracketed (t.map quoted)).flatMap chars = Json.strings (t.map text) := by
    simp only [Json.strings, flatMap_bracketed, List.map_map, Function.comp_def, flatMap_quoted]
  -- Both texts are the same array; the pieces only put off writing the digits.
  have htext : d.draft.idText = d.pieces.flatMap chars := by
    simp only [pieces, flatMap_bracketed, List.map_cons, List.map_nil, List.map_map,
      Function.comp_def, flatMap_quoted, hstrings, List.flatMap_singleton]
    simp only [idText, draft, List.map_map, Function.comp_def, text_hex, List.flatten_singleton]
    rfl
  rw [Draft.id, Sha256.Packed.hash_eq, htext, message, join_message,
    Sha256.Packed.Message.hash_ofBytes]

lemma exists_sign {d : Spelled} {k : KeyPair} {random : Block 32} (hauthor : d.author = k.publicKey)
    (h : Signature.signs k random d.message.hash = true) :
    ∃ sig, d.draft.sign k random = .ok ⟨d.draft, d.draft.id, sig⟩ := by
  rw [← d.id_draft] at h
  obtain ⟨sig, hsig⟩ := Signature.exists_sign_iff.mpr h
  have hk : k.publicKey = d.draft.author := hauthor.symm
  exact ⟨sig, by rw [Draft.sign, if_pos hk, hsig]⟩

end Draft.Spelled

end KeyQuorum
