import KeyQuorum.Proofs.Sharing.Wire

/-!
Only the written form of a share is read.

A number, a point and a scalar have one form in bytes each, and the length that is checked leaves
no byte over. So the bytes that are read are those that are written of what was read, and what is
read is legible: between the legible shares and the bytes that are accepted, writing and reading
are inverse to each other. Text that is read has digits only, of either case, and in lower case it
is what is written.
-/

namespace KeyQuorum

namespace Wire

variable {bs : Bytes} {p : PublicShare}

lemma bind_eq_ok {ε α β : Type} {x : Except ε α} {f : α → Except ε β} {b : β}
    (h : x >>= f = .ok b) : ∃ a, x = .ok a ∧ f a = .ok b := by
  cases x with
  | error e => cases h
  | ok a => exact ⟨a, rfl, h⟩

/-! ### What the parts were read from -/

lemma point_eq_ok {q : Point} (h : point bs = .ok q) : q ≠ .infinity ∧ q.compress = bs := by
  unfold point at h
  split at h
  · next hq =>
    obtain rfl := Except.ok.inj h
    exact Point.compress_of_decompress? hq
  · cases h

lemma scalar_eq_ok {s : Scalar} (h : scalar bs = .ok s) : Residue.toBytes s = bs := by
  unfold scalar at h
  split at h
  · next hs =>
    obtain rfl := Except.ok.inj h
    exact Residue.toBytes_of_ofBytes? hs
  · cases h

lemma points_eq_ok {n : Nat} {ps : List Point} (h : points n bs = .ok ps) :
    ps.length = n ∧ (∀ q ∈ ps, q ≠ .infinity) ∧
      ps.flatMap Point.compress = bs.take (33 * n) := by
  induction n generalizing bs ps with
  | zero =>
    obtain rfl := Except.ok.inj h
    exact ⟨rfl, fun _ hq => absurd hq List.not_mem_nil, rfl⟩
  | succ n ih =>
    obtain ⟨q, hq, h⟩ := bind_eq_ok h
    obtain ⟨qs, hqs, h⟩ := bind_eq_ok h
    obtain rfl := Except.ok.inj h
    obtain ⟨hne, hfirst⟩ := point_eq_ok hq
    obtain ⟨hlen, hall, hrest⟩ := ih hqs
    refine ⟨by rw [List.length_cons, hlen], List.forall_mem_cons.mpr ⟨hne, hall⟩, ?_⟩
    rw [List.flatMap_cons, hfirst, hrest, ← List.take_add, Nat.mul_succ, Nat.add_comm]

lemma littleEndian_header (h : 6 ≤ bs.length) :
    Bytes.littleEndian 2 (header bs).1.toNat ++ Bytes.littleEndian 4 (header bs).2 =
      bs.take 6 := by
  have hid : (bs.take 2).length = 2 := by
    rw [List.length_take]
    omega
  have hcount : ((bs.drop 2).take 4).length = 4 := by
    rw [List.length_take, List.length_drop]
    omega
  have hlt := Bytes.ofLittleEndian_lt (bs.take 2)
  have hfirst := Bytes.littleEndian_ofLittleEndian (bs.take 2)
  have hsecond := Bytes.littleEndian_ofLittleEndian ((bs.drop 2).take 4)
  rw [hid] at hlt hfirst
  rw [hcount] at hsecond
  rw [header, UInt16.toNat_ofNat', Nat.mod_eq_of_lt hlt, hfirst, hsecond, ← List.take_add]

lemma count_lt (bs : Bytes) : (header bs).2 < Nat.pow 256 4 :=
  (Bytes.ofLittleEndian_lt _).trans_le
    (Nat.pow_le_pow_right (by decide) (List.length_take_le 4 (bs.drop 2)))

lemma publicPart_eq_ok (hlen : 6 ≤ bs.length) (h : publicPart bs = .ok p) :
    p.Legible ∧ p.commitments.length = (header bs).2 ∧
      p.encode = bs.take (publicLength (header bs).2) := by
  obtain ⟨q, hq, h⟩ := bind_eq_ok h
  obtain ⟨qs, hqs, h⟩ := bind_eq_ok h
  obtain rfl := Except.ok.inj h
  obtain ⟨hne, hpoint⟩ := point_eq_ok hq
  obtain ⟨hcount, hall, hpoints⟩ := points_eq_ok hqs
  refine ⟨⟨hne, hall, hcount ▸ count_lt bs⟩, hcount, ?_⟩
  have hsum : publicLength (header bs).2 = 6 + 33 + 33 * (header bs).2 := by
    rw [publicLength]
    omega
  calc PublicShare.encode ⟨(header bs).1, q, qs⟩
      = bs.take 6 ++ q.compress ++ qs.flatMap Point.compress := by
        rw [PublicShare.encode, hcount, ← littleEndian_header hlen]
        rfl
    _ = bs.take (publicLength (header bs).2) := by
        rw [hpoint, hpoints, hsum, List.take_add, List.take_add]
        rfl

lemma checkLength_eq_ok {length : Nat → Nat} {u : Unit} (h : checkLength length bs = .ok u) :
    6 ≤ bs.length ∧ bs.length = length (header bs).2 := by
  unfold checkLength at h
  split at h
  · cases h
  · next hleast =>
    split at h
    · cases h
    · next hlen =>
      simp only [publicLength] at hleast
      exact ⟨by omega, not_not.mp hlen⟩

end Wire

/-! ### Bytes -/

lemma PublicShare.encode_of_decode {bs : Bytes} {p : PublicShare} (h : decode bs = .ok p) :
    p.Legible ∧ p.encode = bs := by
  obtain ⟨_, hcheck, h⟩ := Wire.bind_eq_ok h
  obtain ⟨hleast, hlen⟩ := Wire.checkLength_eq_ok hcheck
  obtain ⟨hl, -, hencode⟩ := Wire.publicPart_eq_ok hleast h
  rw [← hlen, List.take_length] at hencode
  exact ⟨hl, hencode⟩

lemma KeyShare.encode_of_decode {bs : Bytes} {s : KeyShare} (h : decode bs = .ok s) :
    s.Legible ∧ s.encode = bs := by
  obtain ⟨_, hcheck, h⟩ := Wire.bind_eq_ok h
  obtain ⟨hleast, -⟩ := Wire.checkLength_eq_ok hcheck
  obtain ⟨p, hp, h⟩ := Wire.bind_eq_ok h
  obtain ⟨secret, hsecret, h⟩ := Wire.bind_eq_ok h
  obtain ⟨group, hgroup, h⟩ := Wire.bind_eq_ok h
  obtain rfl := Except.ok.inj h
  obtain ⟨hl, -, hpublic⟩ := Wire.publicPart_eq_ok hleast hp
  obtain ⟨hne, hpoint⟩ := Wire.point_eq_ok hgroup
  refine ⟨⟨hl, hne⟩, ?_⟩
  rw [encode, hpublic, Wire.scalar_eq_ok hsecret, hpoint, List.append_assoc,
    List.take_append_drop, List.take_append_drop]

/-! ### Text -/

lemma PublicShare.toHex_of_ofHex {t : String} {p : PublicShare} (h : ofHex t = .ok p) :
    p.Legible ∧ p.toHex = t.toLower := by
  unfold ofHex at h
  split at h
  · next bs hbs =>
    obtain ⟨hl, rfl⟩ := encode_of_decode h
    exact ⟨hl, Hex.encode_of_decode hbs⟩
  · cases h

lemma KeyShare.toHex_of_ofHex {t : String} {s : KeyShare} (h : ofHex t = .ok s) :
    s.Legible ∧ s.toHex = t.toLower := by
  unfold ofHex at h
  split at h
  · next bs hbs =>
    obtain ⟨hl, rfl⟩ := encode_of_decode h
    exact ⟨hl, Hex.encode_of_decode hbs⟩
  · cases h

/-! ### Both directions -/

/-- Writing and reading are inverse to each other, between what is legible and what is accepted,
in bytes and, up to the case of letters, in text. -/
structure Wire.Exact {α : Type} (Legible : α → Prop) (encode : α → Bytes)
    (decode : Bytes → Except WireError α) (toHex : α → String)
    (ofHex : String → Except WireError α) : Prop where
  decode_encode : ∀ {s}, Legible s → decode (encode s) = .ok s
  encode_of_decode : ∀ {bs s}, decode bs = .ok s → Legible s ∧ encode s = bs
  ofHex_toHex : ∀ {s}, Legible s → ofHex (toHex s) = .ok s
  toHex_of_ofHex : ∀ {t s}, ofHex t = .ok s → Legible s ∧ toHex s = t.toLower

/-- **Shares are written in one way only**: what is read was written just so, and what is legible
is read back, with the length that the number of commitments gives. -/
theorem Wire.shares_exact :
    (Exact PublicShare.Legible PublicShare.encode PublicShare.decode PublicShare.toHex
      PublicShare.ofHex ∧
      ∀ p : PublicShare, p.encode.length = p.encodedLength ∧
        p.encodedLength = 6 + 33 * (1 + p.commitments.length)) ∧
    Exact KeyShare.Legible KeyShare.encode KeyShare.decode KeyShare.toHex KeyShare.ofHex ∧
      ∀ s : KeyShare, s.encode.length = 6 + 33 * (1 + s.publicShare.commitments.length) + 65 := by
  refine ⟨⟨?publicShare, fun p => ⟨p.length_encode, rfl⟩⟩, ?keyShare, KeyShare.length_encode⟩
  case publicShare =>
    exact {
      decode_encode := PublicShare.decode_encode
      encode_of_decode := PublicShare.encode_of_decode
      ofHex_toHex := fun {p} hl => p.ofHex_toHex.trans (PublicShare.decode_encode hl)
      toHex_of_ofHex := PublicShare.toHex_of_ofHex }
  case keyShare =>
    exact {
      decode_encode := KeyShare.decode_encode
      encode_of_decode := KeyShare.encode_of_decode
      ofHex_toHex := fun {s} hl => s.ofHex_toHex.trans (KeyShare.decode_encode hl)
      toHex_of_ofHex := KeyShare.toHex_of_ofHex }

/-- The zero secret with the generator for all points, which is read back from its text. -/
theorem Wire.generator_share_exact :
    let s : KeyShare := ⟨0, .generator, ⟨1, .generator, [.generator]⟩⟩
    s.Legible ∧ KeyShare.ofHex s.toHex = .ok s ∧ s.encode.length = 137 := by
  intro s
  have hgenerator : Point.generator ≠ .infinity := Point.noConfusion
  have hl : s.Legible :=
    ⟨⟨hgenerator, List.forall_mem_singleton.mpr hgenerator, by decide⟩, hgenerator⟩
  obtain ⟨-, hexact, hlen⟩ := shares_exact
  exact ⟨hl, hexact.ofHex_toHex hl, hlen s⟩

end KeyQuorum
