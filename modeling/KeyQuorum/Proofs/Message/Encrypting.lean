import KeyQuorum.Message.Payload
import KeyQuorum.Proofs.Cipher.Columns
import KeyQuorum.Proofs.Key.Agreement

/-!
When encryption succeeds, and what it gives.

Two parties always have a point in common, so only the length of the plaintext can stand in the
way.
-/

namespace KeyQuorum

namespace Payload

open Sha256

variable {k : KeyPair} {peer : PublicKey} {nonce : Block 32} {plaintext : Bytes}

lemma exists_conversationKey (k : KeyPair) (peer : PublicKey) :
    ∃ key, conversationKey k peer = .ok key := by
  obtain ⟨x, hx⟩ := k.exists_shared peer
  exact ⟨_, by rw [conversationKey, KeyPair.sharedX, hx]⟩

lemma encrypt_eq_error (h : ¬ (0 < plaintext.length ∧ plaintext.length < 65536)) :
    encrypt k peer nonce plaintext = .error .encryption := by
  obtain ⟨key, hkey⟩ := exists_conversationKey k peer
  rw [encrypt, hkey]
  simp [encryptWith, sealBytes?, Padding.pad?, h, bind, Except.bind]

/-- **Encryption succeeds** just for a plaintext of one byte up to 65535. -/
theorem exists_encrypt_iff : (∃ payload, encrypt k peer nonce plaintext = .ok payload) ↔
    0 < plaintext.length ∧ plaintext.length < 65536 := by
  obtain ⟨key, hkey⟩ := exists_conversationKey k peer
  constructor
  · rintro ⟨payload, hpayload⟩
    by_contra h
    rw [encrypt_eq_error h] at hpayload
    cases hpayload
  · intro h
    rw [encrypt, hkey]
    simp [encryptWith, sealBytes?, Padding.pad?, h, bind, Except.bind]

/-! ### The payload, worked out -/

def packedKeys (conversation : Block 32) (nonce : Bytes) : MessageKeys :=
  let stretched := Packed.expand conversation.bytes nonce 76
  ⟨⟨stretched.take 32, by simp [stretched, Packed.length_expand]⟩,
    ⟨(stretched.drop 32).take 12, by simp [stretched, Packed.length_expand]⟩, stretched.drop 44⟩

lemma messageKeys_eq : messageKeys = packedKeys := by
  funext conversation nonce
  simp only [messageKeys, packedKeys, Packed.expand_eq]

/-- The bytes of a padded plaintext sealed. -/
def sealedBytes (conversation nonce : Block 32) (padded : Bytes) : Bytes :=
  let keys := packedKeys conversation nonce.bytes
  let ciphertext := ChaCha20.Columns.apply keys.cipherKey keys.cipherNonce padded
  version :: nonce.bytes ++ ciphertext ++
    (Packed.code keys.codeKey (nonce.bytes ++ ciphertext)).bytes

theorem encrypt_of_shared {x : Fe} {padded : Bytes} (hx : (k.secret * peer.point).x? = some x)
    (hpadded : Padding.pad? plaintext = some padded) :
    encrypt k peer nonce plaintext = .ok (Base64.encode (sealedBytes
      (Packed.code "nip44-v2".toUTF8.data.toList (Residue.toBlock x).bytes) nonce padded)) := by
  have hconversation : conversationKey k peer =
      .ok (Packed.code "nip44-v2".toUTF8.data.toList (Residue.toBlock x).bytes) := by
    rw [conversationKey, KeyPair.sharedX, hx, ← Packed.code_eq]
    rfl
  rw [encrypt, hconversation]
  simp only [bind, Except.bind, encryptWith, sealBytes?, hpadded, Option.map_some, messageKeys_eq,
    MessageKeys.apply, ChaCha20.Columns.apply_eq, MessageKeys.code, Packed.code_eq, sealedBytes]

end Payload

end KeyQuorum
