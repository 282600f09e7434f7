import KeyQuorum.Proofs.Key.Agreement
import KeyQuorum.Proofs.Message.Encrypting
import KeyQuorum.Proofs.Message.Padding

/-!
What is encrypted to a peer is decrypted by the peer.

Both parties derive the same conversation key. The sealed bytes come apart where they were put
together, since version, nonce and code have fixed lengths, and the lengths that padding gives
are those that opening lets through. A payload is as long as its padding says, whoever writes to
whom under whatever nonce.
-/

namespace KeyQuorum

/-! ### The length of the text -/

namespace Base64

lemma utf8Size_symbol : ∀ n < 64, (symbol n).utf8Size = 1 := by decide

lemma utf8Size_of_mem_encodeChars (bs : Bytes) : ∀ c ∈ encodeChars bs, c.utf8Size = 1 := by
  have hpad : '='.utf8Size = 1 := rfl
  induction bs using encodeChars.induct with
  | case1 => simp [encodeChars]
  | case2 a =>
    have ha := a.toNat_lt
    have hx := utf8Size_symbol (a.toNat / 4) (by omega)
    have hy := utf8Size_symbol (a.toNat % 4 * 16) (by omega)
    simp [encodeChars, hx, hy, hpad]
  | case3 a b =>
    have ha := a.toNat_lt
    have hb := b.toNat_lt
    have hx := utf8Size_symbol (a.toNat / 4) (by omega)
    have hy := utf8Size_symbol (a.toNat % 4 * 16 + b.toNat / 16) (by omega)
    have hz := utf8Size_symbol (b.toNat % 16 * 4) (by omega)
    simp [encodeChars, hx, hy, hz, hpad]
  | case4 a b c rest ih =>
    have ha := a.toNat_lt
    have hb := b.toNat_lt
    have hc := c.toNat_lt
    have hx := utf8Size_symbol (a.toNat / 4) (by omega)
    have hy := utf8Size_symbol (a.toNat % 4 * 16 + b.toNat / 16) (by omega)
    have hz := utf8Size_symbol (b.toNat % 16 * 4 + c.toNat / 64) (by omega)
    have hw := utf8Size_symbol (c.toNat % 64) (by omega)
    simpa [encodeChars, hx, hy, hz, hw] using ih

lemma utf8ByteSize_encode (bs : Bytes) : (encode bs).utf8ByteSize = 4 * ((bs.length + 2) / 3) := by
  have hbytes : (encode bs).utf8ByteSize = ((encodeChars bs).map Char.utf8Size).sum := by
    rw [encode, ← String.size_toByteArray, String.toByteArray_ofList, List.utf8Encode,
      ← ByteArray.size_data, List.data_toByteArray]
    simp only [List.size_toArray, List.length_flatMap, String.length_utf8EncodeChar]
  calc (encode bs).utf8ByteSize
      = ((encodeChars bs).map fun _ => 1).sum := by
        rw [hbytes, List.map_congr_left (utf8Size_of_mem_encodeChars bs)]
    _ = 4 * ((bs.length + 2) / 3) := by simp [length_encodeChars]

end Base64

/-! ### Opening what was sealed -/

namespace Payload

variable {conversation nonce : Block 32} {plaintext sealed ciphertext code : Bytes}

/-- The parts of a frame are taken apart again. -/
lemma openBytes?_frame (hcode : code.length = 32) (hmin : 34 ≤ ciphertext.length)
    (hmax : ciphertext.length ≤ 65538) :
    openBytes? conversation (version :: nonce.bytes ++ ciphertext ++ code) =
      if (messageKeys conversation nonce.bytes).code nonce.bytes ciphertext = code then
        Padding.unpad? ((messageKeys conversation nonce.bytes).apply ciphertext)
      else none := by
  have hnonce := nonce.length_bytes
  have hlen : (nonce.bytes ++ ciphertext ++ code).length = ciphertext.length + 64 := by
    simp only [List.length_append, hnonce, hcode]
    omega
  have htake : (nonce.bytes ++ ciphertext ++ code).take 32 = nonce.bytes := by
    rw [List.append_assoc, List.take_left' hnonce]
  have hmid : ((nonce.bytes ++ ciphertext ++ code).drop 32).take ciphertext.length =
      ciphertext := by
    rw [List.append_assoc, List.drop_left' hnonce, List.take_left' rfl]
  have hlast : (nonce.bytes ++ ciphertext ++ code).drop (ciphertext.length + 32) = code := by
    refine List.drop_left' ?_
    rw [List.length_append, hnonce, Nat.add_comm]
  have hwindow : version = version ∧ 98 ≤ (nonce.bytes ++ ciphertext ++ code).length ∧
      (nonce.bytes ++ ciphertext ++ code).length ≤ 65602 := ⟨rfl, by omega, by omega⟩
  rw [List.cons_append, List.cons_append, openBytes?, if_pos hwindow, hlen, htake,
    show ciphertext.length + 64 - 64 = ciphertext.length from Nat.add_sub_cancel _ _,
    show ciphertext.length + 64 - 32 = ciphertext.length + 32 by omega, hmid, hlast]

/-- **What is sealed opens**, and its length is known from the padding. -/
theorem openBytes?_of_sealBytes? (h : sealBytes? conversation nonce plaintext = some sealed) :
    sealed.length = 67 + Padding.paddedLength plaintext.length ∧
      openBytes? conversation sealed = some plaintext := by
  obtain ⟨padded, hpadded, rfl⟩ := Option.map_eq_some_iff.mp h
  have hbounds : 0 < plaintext.length ∧ plaintext.length < 65536 := by
    by_contra hnot
    rw [Padding.pad?, if_neg hnot] at hpadded
    cases hpadded
  have hmin := Padding.min_paddedLength plaintext.length
  have hmax := Padding.paddedLength_le hbounds.2
  let keys := messageKeys conversation nonce.bytes
  have hcode : (keys.code nonce.bytes (keys.apply padded)).length = 32 := Block.length_bytes _
  have hcipher : (keys.apply padded).length = 2 + Padding.paddedLength plaintext.length := by
    rw [MessageKeys.apply, ChaCha20.length_apply, Padding.length_pad? hpadded]
  -- The keystream is the same both ways, and so it is taken off again.
  have hback : keys.apply (keys.apply padded) = padded := ChaCha20.apply_apply _ _ padded
  constructor
  · show (version :: nonce.bytes ++ keys.apply padded ++
      keys.code nonce.bytes (keys.apply padded)).length = _
    simp only [List.length_append, List.length_cons, nonce.length_bytes, hcipher, hcode]
    omega
  · have hlow : 34 ≤ (keys.apply padded).length := by omega
    have hhigh : (keys.apply padded).length ≤ 65538 := by omega
    refine (openBytes?_frame hcode hlow hhigh).trans ?_
    rw [if_pos rfl]
    exact (congrArg Padding.unpad? hback).trans (Padding.unpad?_of_pad? hpadded)

lemma conversationKey_comm (a b : KeyPair) :
    conversationKey a b.publicKey = conversationKey b a.publicKey := by
  rw [conversationKey, conversationKey, KeyPair.sharedX_comm]

/-- **The receiver reads what the sender wrote.** A plaintext of one byte up to 65535 is
encrypted, the peer decrypts the payload to just this plaintext, and the length of the payload
tells no more than the padded length. A plaintext of any other length is refused. -/
theorem peer_reads_plaintext (a b : KeyPair) (nonce : Block 32) (plaintext : Bytes) :
    (0 < plaintext.length ∧ plaintext.length < 65536 → ∃ payload,
      encrypt a b.publicKey nonce plaintext = .ok payload ∧
      decrypt b a.publicKey payload = .ok plaintext ∧
      payload.utf8ByteSize = 4 * ((Padding.paddedLength plaintext.length + 69) / 3)) ∧
    (¬ (0 < plaintext.length ∧ plaintext.length < 65536) →
      encrypt a b.publicKey nonce plaintext = .error .encryption) := by
  refine ⟨fun hlen => ?_, encrypt_eq_error⟩
  obtain ⟨key, hkey⟩ := exists_conversationKey a b.publicKey
  have hpeer : conversationKey b a.publicKey = .ok key := by rw [← conversationKey_comm, hkey]
  obtain ⟨sealed, hsealed⟩ : ∃ sealed, sealBytes? key nonce plaintext = some sealed := by
    rw [sealBytes?, Padding.pad?, if_pos hlen]
    exact ⟨_, rfl⟩
  obtain ⟨hsize, hopen⟩ := openBytes?_of_sealBytes? hsealed
  refine ⟨Base64.encode sealed, ?_, ?_, ?_⟩
  · rw [encrypt, hkey]
    show encryptWith key nonce plaintext = _
    rw [encryptWith, hsealed]
  · rw [decrypt, hpeer]
    show decryptWith key (Base64.encode sealed) = _
    rw [decryptWith, Base64.decode_encode, Option.bind_some, hopen]
  · rw [Base64.utf8ByteSize_encode, hsize]
    congr 2
    omega

/-- The longest plaintext there may be, sent by one party to itself. -/
theorem longest_plaintext_read : ∃ payload,
    encrypt .one KeyPair.one.publicKey (Block.ofNat 32 1) (List.replicate 65535 7) = .ok payload ∧
    decrypt .one KeyPair.one.publicKey payload = .ok (List.replicate 65535 7) ∧
    payload.utf8ByteSize = 87472 := by
  have hlen : (List.replicate 65535 (7 : UInt8)).length = 65535 := List.length_replicate
  obtain ⟨payload, hencrypt, hdecrypt, hsize⟩ :=
    (peer_reads_plaintext .one .one (Block.ofNat 32 1) (List.replicate 65535 7)).1
      (by rw [hlen]; decide)
  have hpadded : Padding.paddedLength 65535 = 65536 := by decide
  rw [hlen, hpadded] at hsize
  exact ⟨payload, hencrypt, hdecrypt, hsize⟩

end Payload

end KeyQuorum
