import KeyQuorum.Proofs.Bytes.Cuts
import KeyQuorum.Proofs.Message.RoundTrip
import KeyQuorum.Proofs.Text.Base64

/-!
Which texts are opened, and to what.

A text is opened just if it is a frame: the version, a nonce, a ciphertext and a code that
authenticates both, with a plaintext in the ciphertext that is counted and filled up as it should
be. What fills it up is not looked at; every other text is refused. Lengths are checked before
anything is cut, so no cut is out of range, whatever the count of the plaintext claims.
-/

namespace KeyQuorum

/-! ### What is filled up -/

namespace Padding

variable {padded plaintext tail : Bytes}

/-- A plaintext that is counted in two bytes and filled up by a tail. -/
structure Fills (padded plaintext tail : Bytes) : Prop where
  eq : padded = Bytes.bigEndian 2 plaintext.length ++ plaintext ++ tail
  nonempty : 1 ≤ plaintext.length
  countable : plaintext.length < 65536
  length : plaintext.length + tail.length = paddedLength plaintext.length

lemma bigEndian_two (n : Nat) : Bytes.bigEndian 2 n = [UInt8.ofNat (n / 256), UInt8.ofNat n] := rfl

/-- The tail that a plaintext is filled up by may be any of the right length. -/
lemma unpad?_eq_some_iff :
    unpad? padded = some plaintext ↔ ∃ tail, Fills padded plaintext tail := by
  constructor
  case mp =>
    intro h
    match padded, h with
    | hi :: lo :: rest, h =>
      simp only [unpad?, Option.ite_none_right_eq_some, Option.some.injEq] at h
      obtain ⟨⟨hne, hlen⟩, rfl⟩ := h
      have hlt : Bytes.ofBigEndian [hi, lo] < Nat.pow 256 2 := Bytes.ofBigEndian_lt [hi, lo]
      have hpow : Nat.pow 256 2 = 65536 := rfl
      have hle := le_paddedLength (Bytes.ofBigEndian [hi, lo])
      -- The count fits in what follows, as the padded length is no less.
      have htake :
          (rest.take (Bytes.ofBigEndian [hi, lo])).length = Bytes.ofBigEndian [hi, lo] := by
        rw [List.length_take]
        omega
      refine ⟨rest.drop (Bytes.ofBigEndian [hi, lo]), ?_, ?_, ?_, ?_⟩
      · have hcount : Bytes.bigEndian 2 (Bytes.ofBigEndian [hi, lo]) = [hi, lo] :=
          Bytes.bigEndian_ofBigEndian [hi, lo]
        rw [htake, hcount, List.append_assoc, List.take_append_drop]
        rfl
      · omega
      · omega
      · rw [htake, List.length_drop]
        omega
  case mpr =>
    rintro ⟨tail, rfl, hne, hlt, hlen⟩
    have hcount : Bytes.ofBigEndian (Bytes.bigEndian 2 plaintext.length) = plaintext.length :=
      Bytes.ofBigEndian_bigEndian hlt
    rw [bigEndian_two] at hcount ⊢
    simp only [List.cons_append, List.nil_append, unpad?, hcount, List.length_append]
    rw [if_pos ⟨by omega, hlen⟩, List.take_left' rfl]

end Padding

/-! ### Frames -/

namespace Payload

structure Frame where
  nonce : Block 32
  ciphertext : Bytes
  code : Block 32

namespace Frame

def bytes (f : Frame) : Bytes := version :: f.nonce.bytes ++ f.ciphertext ++ f.code.bytes

def keys (f : Frame) (conversation : Block 32) : MessageKeys :=
  messageKeys conversation f.nonce.bytes

/-- The code of a frame is that of its nonce and its ciphertext. -/
def Authentic (f : Frame) (conversation : Block 32) : Prop :=
  (Hmac.code (f.keys conversation).codeKey (f.nonce.bytes ++ f.ciphertext)).bytes = f.code.bytes

variable {f : Frame}

lemma length_bytes (f : Frame) : f.bytes.length = 65 + f.ciphertext.length := by
  simp only [bytes, List.length_append, List.length_cons, f.nonce.length_bytes, f.code.length_bytes]
  omega

/-- A frame of a permitted length that is authentic and has a plaintext in it. -/
structure Holds (f : Frame) (conversation : Block 32) (plaintext tail : Bytes) : Prop where
  least : 99 ≤ f.bytes.length
  most : f.bytes.length ≤ 65603
  authentic : f.Authentic conversation
  fills : Padding.Fills ((f.keys conversation).apply f.ciphertext) plaintext tail

end Frame

variable {conversation : Block 32} {bs plaintext : Bytes}

/-- Bytes of a permitted length are a frame when they begin with the version. -/
lemma exists_frame {body : Bytes} (h : 64 ≤ body.length) : ∃ f : Frame,
    f.bytes = version :: body ∧ f.nonce.bytes = body.take 32 ∧
      f.ciphertext = (body.drop 32).take (body.length - 64) ∧
      f.code.bytes = body.drop (body.length - 32) := by
  have hnonce : (body.take 32).length = 32 := by
    rw [List.length_take]
    omega
  have hcode : (body.drop (body.length - 32)).length = 32 := by
    rw [List.length_drop]
    omega
  refine ⟨⟨⟨_, hnonce⟩, (body.drop 32).take (body.length - 64), ⟨_, hcode⟩⟩, ?_, rfl, rfl, rfl⟩
  have hrest : (body.drop 32).drop (body.length - 64) = body.drop (body.length - 32) := by
    rw [List.drop_drop]
    congr 1
    omega
  show version :: (body.take 32 ++ (body.drop 32).take (body.length - 64) ++
    body.drop (body.length - 32)) = version :: body
  rw [List.append_assoc, ← hrest, List.take_append_drop, List.take_append_drop]

lemma openBytes?_eq_some_iff : openBytes? conversation bs = some plaintext ↔
    ∃ f : Frame, ∃ tail, bs = f.bytes ∧ f.Holds conversation plaintext tail := by
  constructor
  case mp =>
    intro h
    match bs, h with
    | v :: body, h =>
      simp only [openBytes?, Option.ite_none_right_eq_some] at h
      obtain ⟨⟨rfl, hleast, hmost⟩, hcode, hopen⟩ := h
      obtain ⟨f, hbytes, hnonce, hcipher, hlast⟩ := exists_frame (by omega : 64 ≤ body.length)
      rw [← hnonce, ← hcipher] at hopen
      rw [← hnonce, ← hcipher, ← hlast] at hcode
      obtain ⟨tail, hfills⟩ := Padding.unpad?_eq_some_iff.mp hopen
      refine ⟨f, tail, hbytes.symm, ?_, ?_, hcode, hfills⟩
      · rw [hbytes, List.length_cons]
        omega
      · rw [hbytes, List.length_cons]
        omega
  case mpr =>
    rintro ⟨f, tail, rfl, hleast, hmost, hcode, hfills⟩
    rw [f.length_bytes] at hleast hmost
    have hframe : openBytes? conversation f.bytes = _ :=
      openBytes?_frame f.code.length_bytes (by omega) (by omega)
    exact hframe.trans ((if_pos hcode).trans (Padding.unpad?_eq_some_iff.mpr ⟨tail, hfills⟩))

lemma decryptWith_eq_ok_iff {payload : String} :
    decryptWith conversation payload = .ok plaintext ↔
      ∃ f : Frame, ∃ tail, payload = Base64.encode f.bytes ∧
        f.Holds conversation plaintext tail := by
  have hopen : decryptWith conversation payload = .ok plaintext ↔
      (Base64.decode payload).bind (openBytes? conversation) = some plaintext := by
    unfold decryptWith
    split
    · next p hp => rw [hp, Except.ok.injEq, Option.some.injEq]
    · next hp => rw [hp]; exact iff_of_false nofun nofun
  rw [hopen, Option.bind_eq_some_iff]
  constructor
  · rintro ⟨bs, hbs, hsome⟩
    obtain ⟨f, tail, rfl, hholds⟩ := openBytes?_eq_some_iff.mp hsome
    exact ⟨f, tail, (Base64.decode_eq_some_iff _ _).mp hbs, hholds⟩
  · rintro ⟨f, tail, rfl, hholds⟩
    exact ⟨f.bytes, Base64.decode_encode _, openBytes?_eq_some_iff.mpr ⟨f, tail, rfl, hholds⟩⟩

end Payload

/-! ### No cut is out of range -/

open Cut

/-- The plaintext is cut off where its count says, once the count has been checked. -/
def Padding.unpadCut : Bytes → Cutting MessageError Bytes
  | hi :: lo :: rest =>
    let n := Bytes.ofBigEndian [hi, lo]
    if n = 0 ∨ rest.length ≠ paddedLength n then .error (.refused .decryption) else before rest n
  | _ => .error (.refused .decryption)

namespace Payload

def cutKeys (stretched : Bytes) : Cutting MessageError MessageKeys := do
  let cipherKey ← before stretched 32
  let cipherKey ← block 32 cipherKey
  let front ← before stretched 44
  let cipherNonce ← after front 32
  let cipherNonce ← block 12 cipherNonce
  let codeKey ← after stretched 44
  let codeKey ← block 32 codeKey
  return ⟨cipherKey, cipherNonce, codeKey.bytes⟩

def openBodyCut (conversation : Block 32) (body : Bytes) : Cutting MessageError Bytes := do
  let (nonce, rest) ← split body 32
  let front ← less rest.length 32
  let (ciphertext, code) ← split rest front
  let keys ← cutKeys (Hmac.expand conversation.bytes nonce 76)
  if keys.code nonce ciphertext ≠ code then .error (.refused .decryption)
  else Padding.unpadCut (keys.apply ciphertext)

def openBytesCut (conversation : Block 32) (bs : Bytes) : Cutting MessageError Bytes :=
  if bs.length < 99 ∨ 65603 < bs.length then .error (.refused .decryption)
  else do
    let v ← byte bs 0
    if v ≠ version then .error (.refused .decryption)
    else
      let body ← after bs 1
      openBodyCut conversation body

def decryptCut (conversation : Block 32) (payload : String) : Cutting MessageError Bytes :=
  if payload.toList.head? = some '#' then .error (.refused .decryption)
  else
    match Base64.decode payload with
    | some bs => openBytesCut conversation bs
    | none => .error (.refused .decryption)

end Payload

def Cutting.ofOption {α : Type} : Option α → Cutting MessageError α
  | some a => .ok a
  | none => .error (.refused .decryption)

lemma Padding.unpadCut_eq (padded : Bytes) :
    unpadCut padded = Cutting.ofOption (unpad? padded) := by
  match padded with
  | [] => rfl
  | [_] => rfl
  | hi :: lo :: rest =>
    have hle := le_paddedLength (Bytes.ofBigEndian [hi, lo])
    simp only [unpadCut, unpad?]
    split
    · next hbad => rw [if_neg (by omega)]; rfl
    · next hgood => rw [if_pos (by omega), before_of_le (by omega)]; rfl

namespace Payload

variable {conversation : Block 32} {body : Bytes}

lemma cutKeys_eq (conversation : Block 32) (nonce : Bytes) :
    cutKeys (Hmac.expand conversation.bytes nonce 76) = .ok (messageKeys conversation nonce) := by
  have hlen := Hmac.length_expand conversation.bytes nonce 76
  -- Only the length of the stretched bytes matters for the cuts.
  generalize hstretched : Hmac.expand conversation.bytes nonce 76 = stretched at hlen ⊢
  have hkey : (stretched.take 32).length = 32 := by rw [List.length_take, hlen]; rfl
  have hfront : 32 ≤ (stretched.take 44).length := by rw [List.length_take, hlen]; decide
  have hnonce : ((stretched.take 44).drop 32).length = 12 := by
    rw [List.length_drop, List.length_take, hlen]
    rfl
  have hcode : (stretched.drop 44).length = 32 := by rw [List.length_drop, hlen]
  have hnext : (⟨(stretched.take 44).drop 32, hnonce⟩ : Block 12) =
      (messageKeys conversation nonce).cipherNonce := by
    subst hstretched
    exact Block.ext_bytes List.drop_take
  rw [cutKeys, before_of_le (by omega), ok_bind, block_of_length hkey, ok_bind,
    before_of_le (by omega), ok_bind, after_of_le hfront, ok_bind, block_of_length hnonce, ok_bind,
    after_of_le (by omega), ok_bind, block_of_length hcode, ok_bind, hnext]
  subst hstretched
  rfl

lemma openBodyCut_eq (hleast : 98 ≤ body.length) (hmost : body.length ≤ 65602) :
    openBodyCut conversation body =
      Cutting.ofOption (openBytes? conversation (version :: body)) := by
  have hrest : (body.drop 32).length = body.length - 32 := List.length_drop
  -- A permitted length leaves room for the nonce in front and the code at the end.
  have hcode : (body.drop 32).drop (body.length - 64) = body.drop (body.length - 32) := by
    rw [List.drop_drop]
    congr 1
    omega
  rw [openBodyCut, split_of_le (by omega), ok_bind]
  simp only [hrest, less_of_le (by omega : 32 ≤ body.length - 32), ok_bind,
    show body.length - 32 - 32 = body.length - 64 by omega,
    split_of_le (by omega : body.length - 64 ≤ (body.drop 32).length), cutKeys_eq, hcode,
    Padding.unpadCut_eq]
  simp only [openBytes?, true_and, if_pos (And.intro hleast hmost), ite_not]
  rw [apply_ite Cutting.ofOption]
  rfl

lemma openBytesCut_eq (conversation : Block 32) (bs : Bytes) :
    openBytesCut conversation bs = Cutting.ofOption (openBytes? conversation bs) := by
  match bs with
  | [] => rfl
  | v :: body =>
    have hfirst : (byte (v :: body) 0 : Cutting MessageError UInt8) = .ok v := rfl
    have hafter : (after (v :: body) 1 : Cutting MessageError Bytes) = .ok body :=
      after_of_le (by simp)
    rw [openBytesCut, List.length_cons]
    split
    · next hbad => rw [openBytes?, if_neg (by omega)]; rfl
    · next hgood =>
      rw [hfirst, ok_bind]
      split
      · next hne => rw [openBytes?, if_neg fun h => hne h.1]; rfl
      · next heq =>
        obtain rfl := not_not.mp heq
        rw [hafter, ok_bind]
        exact openBodyCut_eq (by omega) (by omega)

lemma decryptCut_eq (conversation : Block 32) (payload : String) :
    decryptCut conversation payload = Cutting.lift (decryptWith conversation payload) := by
  have hlift : Cutting.lift (decryptWith conversation payload) =
      Cutting.ofOption ((Base64.decode payload).bind (openBytes? conversation)) := by
    rw [decryptWith]
    cases (Base64.decode payload).bind (openBytes? conversation) <;> rfl
  rw [hlift, decryptCut]
  split
  · next hhash =>
    -- A text that begins with the sign of a later version is no Base64 either.
    obtain ⟨cs, hcs⟩ := List.head?_eq_some_iff.mp hhash
    rw [Base64.decode, hcs, Base64.decodeChars_cons_eq_none (by decide)]
    rfl
  · cases Base64.decode payload with
    | none => rfl
    | some bs => exact openBytesCut_eq conversation bs

/-- **What is opened is what is well formed and authentic**, and the plaintext is the one that the
frame holds. Every other text is refused, in one way. No cut is out of range on the way. -/
theorem opens_iff_holds (conversation : Block 32) (payload : String) :
    (∀ plaintext, decryptWith conversation payload = .ok plaintext ↔
      ∃ f : Frame, ∃ tail, payload = Base64.encode f.bytes ∧
        f.Holds conversation plaintext tail) ∧
    ((∀ plaintext tail, ∀ f : Frame, f.Holds conversation plaintext tail →
      payload ≠ Base64.encode f.bytes) → decryptWith conversation payload = .error .decryption) ∧
    decryptCut conversation payload = Cutting.lift (decryptWith conversation payload) := by
  refine ⟨fun plaintext => decryptWith_eq_ok_iff, fun hnone => ?_, decryptCut_eq _ _⟩
  have hnot : ∀ plaintext, decryptWith conversation payload ≠ .ok plaintext := by
    intro plaintext h
    obtain ⟨f, tail, hpayload, hholds⟩ := decryptWith_eq_ok_iff.mp h
    exact hnone plaintext tail f hholds hpayload
  unfold decryptWith at hnot ⊢
  split
  · next p hp => exact absurd rfl (hp ▸ hnot p)
  · rfl

/-- A single byte that is filled up with ones is opened, though nothing that is sealed is filled up
so; a text of another form is refused. -/
theorem ones_opened : ∃ payload,
    decryptWith (Block.ofNat 32 1) payload = .ok [7] ∧
    decryptCut (Block.ofNat 32 1) payload = .ok [7] ∧
    decryptWith (Block.ofNat 32 1) "#later" = .error .decryption := by
  let keys := messageKeys (Block.ofNat 32 1) (Block.ofNat 32 2).bytes
  let padded := Bytes.bigEndian 2 1 ++ [7] ++ List.replicate 31 1
  let f : Frame := ⟨Block.ofNat 32 2, keys.apply padded,
    Hmac.code keys.codeKey ((Block.ofNat 32 2).bytes ++ keys.apply padded)⟩
  have hlen : f.bytes.length = 99 := by
    rw [f.length_bytes]
    show 65 + (ChaCha20.apply _ _ padded).length = 99
    rw [ChaCha20.length_apply]
    rfl
  have hfills : Padding.Fills (keys.apply (keys.apply padded)) [7] (List.replicate 31 1) :=
    ⟨ChaCha20.apply_apply _ _ padded, by decide, by decide, by decide⟩
  have hholds : f.Holds (Block.ofNat 32 1) [7] (List.replicate 31 1) :=
    ⟨hlen.ge, by omega, rfl, hfills⟩
  obtain ⟨hopens, -, hcut⟩ := opens_iff_holds (Block.ofNat 32 1) (Base64.encode f.bytes)
  have hopen := (hopens [7]).mpr ⟨f, _, rfl, hholds⟩
  refine ⟨_, hopen, by rw [hcut, hopen]; rfl, (opens_iff_holds (Block.ofNat 32 1) "#later").2.1 ?_⟩
  intro _ _ f _ hlater
  have hread := (Base64.decode_eq_some_iff _ _).mpr hlater
  have hnone : Base64.decode "#later" = none := by decide
  exact Option.some_ne_none _ (hread.symm.trans hnone)

end Payload

end KeyQuorum
