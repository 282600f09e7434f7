import Mathlib.Tactic.Lemma
import KeyQuorum.Key.Pair

/-!
Keys read back from their text, and the texts that halt the reading of a public key.
-/

namespace KeyQuorum

namespace PublicKey

variable {s : String}

lemma ofX?_x (k : PublicKey) : ofX? k.x = some k := dif_pos k.lifts

lemma bytes_of_ofBlock? {b : Block 32} {k : PublicKey} (h : ofBlock? b = some k) :
    k.bytes = b.bytes := by
  obtain ⟨x, hx, hlift⟩ := Option.bind_eq_some_iff.mp h
  have hread : Residue.ofBytes? fieldPrime b.bytes = some x := by
    rw [Residue.ofBytes?, Block.ofBytes?_bytes, Option.bind_some, hx]
  obtain rfl : x = k.x := by
    unfold ofX? at hlift
    split at hlift
    · rw [← Option.some.inj hlift]
    · cases hlift
  exact Residue.toBytes_of_ofBytes? hread

/-- **A key is read off the text of its bytes**, and off no other. -/
theorem ofHex_eq_ok {k : PublicKey} : ofHex s = .ok k ↔ Hex.decode s = some k.bytes := by
  constructor
  · intro h
    unfold ofHex at h
    split at h
    · cases h
    · next bs hbs =>
      split at h
      · cases h
      · next b hb =>
        split at h
        · cases h
        · next k' hk =>
          obtain rfl := Except.ok.inj h
          obtain ⟨hlen, hblock⟩ := Option.dite_none_right_eq_some.mp hb
          obtain rfl := Option.some.inj hblock
          rw [hbs, bytes_of_ofBlock? hk]
  · intro h
    have hlt : k.x.val < Nat.pow 256 32 := Nat.lt_trans k.x.isLt (by decide)
    have hx : Residue.ofBlock? fieldPrime (Residue.toBlock k.x) = some k.x := by
      simp [Residue.ofBlock?, Residue.toBlock, Block.toNat_ofNat hlt, Residue.ofNat?]
    have hblock : ofBlock? (Residue.toBlock k.x) = some k := by
      rw [ofBlock?, hx, Option.bind_some, ofX?_x]
    rw [ofHex, h, bytes, Residue.toBytes]
    simp only [Block.ofBytes?_bytes, hblock]

theorem ofHex_hex (k : PublicKey) : ofHex k.hex = .ok k := ofHex_eq_ok.mpr (Hex.decode_encode _)

/-- Hexadecimal text of some other length than a key's. -/
def Misfit (s : String) : Prop := ∃ bs, Hex.decode s = some bs ∧ bs.length ≠ 32

/-- Text of a key's length that names no point, or no hexadecimal text at all. -/
def Unusable (s : String) : Prop :=
  Hex.decode s = none ∨ ∃ b : Block 32, Hex.decode s = some b.bytes ∧ ofBlock? b = none

/-- **Reading halts on well-formed text of the wrong length**, and on no other. -/
theorem ofHex_eq_halted : ofHex s = .error .halted ↔ Misfit s := by
  unfold ofHex Misfit
  cases hd : Hex.decode s with
  | none => simp
  | some bs =>
    by_cases hlen : bs.length = 32
    · have hb : Block.ofBytes? 32 bs = some ⟨bs, hlen⟩ := dif_pos hlen
      simp only [hb]
      cases ofBlock? ⟨bs, hlen⟩ <;> simp [hlen]
    · have hb : Block.ofBytes? 32 bs = none := dif_neg hlen
      simp [hb, hlen]

/-- Text that names no key is refused, and what is refused names none. -/
theorem ofHex_eq_refused : (∃ e, ofHex s = .error (.refused e)) ↔ Unusable s := by
  unfold ofHex Unusable
  cases hd : Hex.decode s with
  | none => simp
  | some bs =>
    by_cases hlen : bs.length = 32
    · have hb : Block.ofBytes? 32 bs = some ⟨bs, hlen⟩ := dif_pos hlen
      have hsome : (∃ b : Block 32, some bs = some b.bytes ∧ ofBlock? b = none) ↔
          ofBlock? ⟨bs, hlen⟩ = none := by
        refine ⟨fun ⟨b, hbytes, hnone⟩ => ?_, fun h => ⟨_, rfl, h⟩⟩
        obtain rfl : (⟨bs, hlen⟩ : Block 32) = b := Block.ext_bytes (Option.some.inj hbytes)
        exact hnone
      simp only [hb, hsome]
      cases ofBlock? ⟨bs, hlen⟩ <;> simp
    · have hb : Block.ofBytes? 32 bs = none := dif_neg hlen
      have hnone : ¬ ∃ b : Block 32, some bs = some b.bytes ∧ ofBlock? b = none := by
        rintro ⟨b, hbytes, -⟩
        exact hlen (Option.some.inj hbytes ▸ b.length_bytes)
      have hnot : ¬ (some bs = none ∨ ∃ b : Block 32, some bs = some b.bytes ∧ ofBlock? b = none) :=
        not_or.mpr ⟨Option.some_ne_none bs, hnone⟩
      simp only [hb]
      exact iff_of_false (by simp) hnot

end PublicKey

namespace KeyPair

lemma ofScalar?_secret (k : KeyPair) : ofScalar? k.secret = some k := by
  have hk := k.publicKey_eq
  unfold ofScalar?
  split
  · next k' h =>
    obtain rfl : k' = k.publicKey := Option.some.inj (h.symm.trans hk)
    rfl
  · next h => rw [hk] at h; cases h

lemma secret_of_ofScalar? {x : Scalar} {k : KeyPair} (h : ofScalar? x = some k) :
    k.secret = x := by
  unfold ofScalar? at h
  split at h
  · rw [← Option.some.inj h]
  · cases h

/-- **A pair is read off the text of its secret**, and off no other. -/
theorem ofHex_eq_ok {s : String} {k : KeyPair} :
    ofHex s = .ok k ↔ Hex.decode s = some (Residue.toBytes k.secret) := by
  constructor
  · intro h
    unfold ofHex at h
    split at h
    · cases h
    · next bs hbs =>
      split at h
      · cases h
      · next k' hk =>
        obtain rfl := Except.ok.inj h
        obtain ⟨x, hx, hpair⟩ := Option.bind_eq_some_iff.mp hk
        rw [hbs, secret_of_ofScalar? hpair, Residue.toBytes_of_ofBytes? hx]
  · intro h
    have hread : Residue.ofBytes? groupOrder (Residue.toBytes k.secret) = some k.secret :=
      Residue.ofBytes?_toBytes (by decide) k.secret
    rw [ofHex, h]
    simp only [hread, Option.bind_some, ofScalar?_secret]

theorem ofHex_secretHex (k : KeyPair) : ofHex k.secretHex = .ok k :=
  ofHex_eq_ok.mpr (Hex.decode_encode _)

end KeyPair

end KeyQuorum
