import KeyQuorum.Proofs.Event.Spelled
import KeyQuorum.Proofs.Message.Encrypting
import KeyQuorum.Proofs.Sharing.Canonical
import KeyQuorum.Proofs.Sharing.Verification

/-!
Which dealings can be sent encrypted.

A key share names a point for each coefficient, so its text grows with the threshold: by sixty-six
letters for each one, on top of two hundred and eight. A plaintext has at most 65535 bytes. So the
shares of a dealing can be encrypted, by whomever and to whomever, just if the threshold is at most
989, though thresholds up to 65535 are dealt.
-/

namespace KeyQuorum

lemma KeyShare.length_plaintext (s : KeyShare) :
    s.toHex.toUTF8.data.toList.length = 208 + 66 * s.publicShare.commitments.length := by
  rw [toHex, Hex.toUTF8_encode, Hex.length_ascii, length_encode, PublicShare.encodedLength,
    Wire.publicLength]
  omega

namespace Dealing

variable {secret : Scalar} {threshold maxSigners : UInt32} {e e' : Entropy} {d : Dealing}
  {s : KeyShare}

lemma length_plaintext_of_mem (h : deal secret threshold maxSigners e = .ok (d, e'))
    (hs : s ∈ d.shares) :
    s.toHex.toUTF8.data.toList.length = 208 + 66 * threshold.toNat := by
  obtain ⟨-, ⟨hthreshold, -, -⟩, -⟩ := deal_eq_ok h
  obtain ⟨-, -, hpublic⟩ := eq_of_mem_shares h hs
  rw [KeyShare.length_plaintext, hpublic, Polynomial.commitments, List.length_map,
    length_polynomial secret hthreshold]

lemma encrypt_eq_error_of_mem (h : deal secret threshold maxSigners e = .ok (d, e'))
    (hs : s ∈ d.shares) (hlt : 989 < threshold.toNat) (k : KeyPair) (peer : PublicKey)
    (nonce : Block 32) :
    Payload.encrypt k peer nonce s.toHex.toUTF8.data.toList = .error .encryption := by
  refine Payload.encrypt_eq_error ?_
  rw [length_plaintext_of_mem h hs]
  omega

/-- **A dealing can be sent encrypted just if its threshold is at most 989**: up to there every
share can be encrypted, and beyond none can. -/
theorem encrypts_up_to_threshold (secret : Scalar) (hsecret : secret ≠ 0)
    {threshold maxSigners : UInt32} (h : Admissible threshold maxSigners) (e : Entropy) :
    ∃ d e', deal secret threshold maxSigners e = .ok (d, e') ∧
      d.shares.length = maxSigners.toNat ∧
      ∀ s ∈ d.shares, ∀ (k : KeyPair) (peer : PublicKey) (nonce : Block 32),
        (threshold.toNat ≤ 989 → ∃ payload,
          Payload.encrypt k peer nonce s.toHex.toUTF8.data.toList = .ok payload) ∧
        (989 < threshold.toNat →
          Payload.encrypt k peer nonce s.toHex.toUTF8.data.toList = .error .encryption) := by
  obtain ⟨e', hdeal⟩ := deal_of_admissible hsecret h e
  refine ⟨_, e', hdeal, length_shares hdeal,
    fun s hs k peer nonce => ⟨fun hle => ?_, fun hlt => ?_⟩⟩
  · rw [Payload.exists_encrypt_iff, length_plaintext_of_mem hdeal hs]
    omega
  · exact encrypt_eq_error_of_mem hdeal hs hlt k peer nonce

/-- The least threshold whose shares cannot be encrypted. -/
theorem share_of_990_too_long : (1 : Scalar) ≠ 0 ∧ Admissible 990 990 ∧
    ∃ d e', deal 1 990 990 (.ofBlocks [] .counting) = .ok (d, e') ∧ ∃ s ∈ d.shares,
      Payload.encrypt .one KeyPair.one.publicKey (Block.ofNat 32 1) s.toHex.toUTF8.data.toList =
        .error .encryption := by
  have hsecret : (1 : Scalar) ≠ 0 := by decide
  have hadmissible : Admissible 990 990 := by decide
  obtain ⟨e', hdeal⟩ := deal_of_admissible hsecret hadmissible (.ofBlocks [] .counting)
  have hpos : 0 < (990 : UInt32).toNat := by decide
  rw [← length_shares hdeal] at hpos
  obtain ⟨s, hs⟩ := List.exists_mem_of_length_pos hpos
  exact ⟨hsecret, hadmissible, _, e', hdeal, s, hs,
    encrypt_eq_error_of_mem hdeal hs (by decide) _ _ _⟩

theorem shares_of_989_encrypted : (1 : Scalar) ≠ 0 ∧ Admissible 989 65535 ∧
    ∃ d e', deal 1 989 65535 (.ofBlocks [] .counting) = .ok (d, e') ∧ ∀ s ∈ d.shares,
      ∃ payload, Payload.encrypt .one KeyPair.one.publicKey (Block.ofNat 32 1)
        s.toHex.toUTF8.data.toList = .ok payload := by
  have hsecret : (1 : Scalar) ≠ 0 := by decide
  have hadmissible : Admissible 989 65535 := by decide
  obtain ⟨d, e', hdeal, -, hall⟩ :=
    encrypts_up_to_threshold 1 hsecret hadmissible (.ofBlocks [] .counting)
  exact ⟨hsecret, hadmissible, d, e', hdeal, fun s hs => (hall s hs _ _ _).1 (by decide)⟩

end Dealing

end KeyQuorum
