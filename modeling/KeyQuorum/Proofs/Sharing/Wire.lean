import Mathlib.Tactic.Lemma
import KeyQuorum.Proofs.Curve.Compressed
import KeyQuorum.Sharing.Wire

/-!
Shares read back from their bytes and from their text.

A share can be read back when none of its points is infinity and its commitments can be counted
in the header. The length is then the one the header asks for, and each field stands where
reading looks for it. A share whose own point is infinity is written as well, and refused.
-/

namespace KeyQuorum

/-- Nothing keeps the share from being read back. -/
structure PublicShare.Legible (p : PublicShare) : Prop where
  point : p.point ≠ .infinity
  commitments : ∀ c ∈ p.commitments, c ≠ .infinity
  count : p.commitments.length < Nat.pow 256 4

/-- Nothing keeps the key share from being read back. -/
structure KeyShare.Legible (s : KeyShare) : Prop where
  publicShare : s.publicShare.Legible
  group : s.group ≠ .infinity

namespace Wire

variable {p : PublicShare}

lemma length_flatMap_compress (ps : List Point) :
    (ps.flatMap Point.compress).length = 33 * ps.length := by
  induction ps with
  | nil => rfl
  | cons p ps ih =>
    rw [List.flatMap_cons, List.length_append, Point.length_compress, ih, List.length_cons]
    omega

lemma point_compress {q : Point} (h : q ≠ .infinity) : point q.compress = .ok q := by
  rw [point, Point.decompress?_compress h]

lemma point_compress_infinity : point Point.infinity.compress = .error .invalidPoint := by
  rw [point, Point.decompress?_compress_infinity]

/-- Points written one after the other are read back, whatever follows. -/
lemma points_flatMap_compress {ps : List Point} (h : ∀ q ∈ ps, q ≠ .infinity) (rest : Bytes) :
    points ps.length (ps.flatMap Point.compress ++ rest) = .ok ps := by
  induction ps with
  | nil => rfl
  | cons q ps ih =>
    have hq : q ≠ .infinity := h q List.mem_cons_self
    have hps := ih fun r hr => h r (List.mem_cons_of_mem q hr)
    have hlen := Point.length_compress q
    rw [List.flatMap_cons, List.append_assoc, List.length_cons, points,
      List.take_left' hlen, List.drop_left' hlen, point_compress hq, hps]
    rfl

end Wire

namespace PublicShare

variable {p : PublicShare}

lemma length_encode (p : PublicShare) : p.encode.length = p.encodedLength := by
  simp only [encode, encodedLength, Wire.publicLength, List.length_append,
    Bytes.length_littleEndian, Point.length_compress, Wire.length_flatMap_compress]
  omega

lemma header_encode (h : p.commitments.length < Nat.pow 256 4) (rest : Bytes) :
    Wire.header (p.encode ++ rest) = (p.id, p.commitments.length) := by
  have hid : Bytes.ofLittleEndian (Bytes.littleEndian 2 p.id.toNat) = p.id.toNat :=
    Bytes.ofLittleEndian_littleEndian p.id.toNat_lt
  have hcount : Bytes.ofLittleEndian (Bytes.littleEndian 4 p.commitments.length) =
      p.commitments.length := Bytes.ofLittleEndian_littleEndian h
  simp only [Wire.header, encode, List.append_assoc]
  rw [List.take_left' (Bytes.length_littleEndian 2 _),
    List.drop_left' (Bytes.length_littleEndian 2 _),
    List.take_left' (Bytes.length_littleEndian 4 _), hid, hcount, UInt16.ofNat_toNat]

lemma drop_encode (p : PublicShare) (rest : Bytes) :
    ((p.encode ++ rest).drop 6).take 33 = p.point.compress ∧
      (p.encode ++ rest).drop 39 = p.commitments.flatMap Point.compress ++ rest := by
  have hhead : (Bytes.littleEndian 2 p.id.toNat ++
      Bytes.littleEndian 4 p.commitments.length).length = 6 := by simp
  have hpoint := Point.length_compress p.point
  have hdrop : (p.encode ++ rest).drop 6 =
      p.point.compress ++ (p.commitments.flatMap Point.compress ++ rest) := by
    rw [encode, List.append_assoc, List.append_assoc, List.drop_left' hhead]
  refine ⟨by rw [hdrop, List.take_left' hpoint], ?_⟩
  rw [show 39 = 6 + 33 from rfl, ← List.drop_drop, hdrop, List.drop_left' hpoint]

lemma publicPart_encode (h : p.Legible) (rest : Bytes) :
    Wire.publicPart (p.encode ++ rest) = .ok p := by
  obtain ⟨hpoint, hcommitments⟩ := drop_encode p rest
  simp only [Wire.publicPart, header_encode h.count, hpoint, hcommitments,
    Wire.point_compress h.point, Wire.points_flatMap_compress h.commitments]
  rfl

lemma publicPart_encode_infinity (h : p.point = .infinity) (rest : Bytes) :
    Wire.publicPart (p.encode ++ rest) = .error .invalidPoint := by
  obtain ⟨hpoint, -⟩ := drop_encode p rest
  rw [Wire.publicPart, hpoint, h, Wire.point_compress_infinity]
  rfl

/-- The length is the one that the header asks for. -/
lemma checkLength_encode (hcount : p.commitments.length < Nat.pow 256 4) {length : Nat → Nat}
    {rest : Bytes} (h : length p.commitments.length = p.encodedLength + rest.length) :
    Wire.checkLength length (p.encode ++ rest) = .ok () := by
  have hlen : (p.encode ++ rest).length = p.encodedLength + rest.length := by
    rw [List.length_append, length_encode]
  have hleast : ¬ p.encodedLength + rest.length < Wire.publicLength 0 := by
    simp only [encodedLength, Wire.publicLength]
    omega
  rw [Wire.checkLength, hlen, header_encode hcount, if_neg hleast, if_neg (not_not_intro h.symm)]

/-- What is written has the right length, so reading it is reading its fields. -/
lemma decode_eq_publicPart (hcount : p.commitments.length < Nat.pow 256 4) :
    decode p.encode = Wire.publicPart (p.encode ++ []) := by
  have hcheck : Wire.checkLength Wire.publicLength (p.encode ++ []) = .ok () :=
    checkLength_encode hcount rfl
  rw [List.append_nil] at hcheck ⊢
  rw [decode, hcheck]
  rfl

/-- **A legible public share is read back** from its bytes. -/
theorem decode_encode (h : p.Legible) : decode p.encode = .ok p := by
  rw [decode_eq_publicPart h.count, publicPart_encode h]

lemma decode_encode_infinity (hcount : p.commitments.length < Nat.pow 256 4)
    (h : p.point = .infinity) : decode p.encode = .error .invalidPoint := by
  rw [decode_eq_publicPart hcount, publicPart_encode_infinity h]

lemma ofHex_toHex (p : PublicShare) : ofHex p.toHex = decode p.encode := by
  rw [ofHex, toHex, Hex.decode_encode]

end PublicShare

namespace KeyShare

variable {s : KeyShare}

lemma length_encode (s : KeyShare) :
    s.encode.length = s.publicShare.encodedLength + 65 := by
  rw [encode, List.length_append, List.length_append, PublicShare.length_encode,
    Point.length_compress, Residue.toBytes, Block.length_bytes]

lemma checkLength_encode (hcount : s.publicShare.commitments.length < Nat.pow 256 4) :
    Wire.checkLength Wire.keyLength s.encode = .ok () := by
  rw [encode, List.append_assoc]
  refine PublicShare.checkLength_encode hcount ?_
  simp [Wire.keyLength, PublicShare.encodedLength, Residue.toBytes, Block.length_bytes]

/-- **A legible key share is read back** from its bytes. -/
theorem decode_encode (h : s.Legible) : decode s.encode = .ok s := by
  have hcheck := checkLength_encode h.publicShare.count
  have hscalar : (Residue.toBytes s.secret).length = 32 := Block.length_bytes _
  have hread : Residue.ofBytes? groupOrder (Residue.toBytes s.secret) = some s.secret :=
    Residue.ofBytes?_toBytes (by decide) s.secret
  have hsuffix : (s.publicShare.encode ++ (Residue.toBytes s.secret ++ s.group.compress)).drop
      (Wire.publicLength s.publicShare.commitments.length) =
        Residue.toBytes s.secret ++ s.group.compress :=
    List.drop_left' (PublicShare.length_encode s.publicShare)
  rw [decode, hcheck, encode, List.append_assoc, PublicShare.publicPart_encode h.publicShare,
    PublicShare.header_encode h.publicShare.count]
  simp only [hsuffix, List.take_left' hscalar, List.drop_left' hscalar, Wire.scalar, hread,
    Wire.point_compress h.group]
  rfl

lemma decode_encode_infinity (hcount : s.publicShare.commitments.length < Nat.pow 256 4)
    (h : s.publicShare.point = .infinity) : decode s.encode = .error .invalidPoint := by
  rw [decode, checkLength_encode hcount, encode, List.append_assoc,
    PublicShare.publicPart_encode_infinity h]
  rfl

lemma ofHex_toHex (s : KeyShare) : ofHex s.toHex = decode s.encode := by
  rw [ofHex, toHex, Hex.decode_encode]

end KeyShare

end KeyQuorum
