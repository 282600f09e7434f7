import KeyQuorum.Proofs.Bytes.Cuts
import KeyQuorum.Proofs.Sharing.Canonical
import KeyQuorum.Proofs.Sharing.Survival

/-!
The length of a share is checked before anything else.

The header counts the commitments, and the count says how long the share is. Bytes of another
length are malformed whatever they hold, and bytes of that length never are. A key share is longer
than a public share of the same count, so no bytes are read as both. Since the length has been
checked, every cut that a reader makes lies within the bytes, whatever the header claims.
-/

namespace KeyQuorum

/-! ### Readers that cut -/

namespace Wire

open Cut

def addressable (bs : Bytes) (n : Nat) : Except WireError Nat :=
  if n < UInt64.size then .ok n else .error (.malformed (UInt64.size - 1) bs.length)

def countedLength (bs : Bytes) (count : Nat) : Except WireError Nat := do
  let places ← addressable bs (count + 1)
  let length ← addressable bs (places * 33)
  addressable bs (length + 6)

def cutHeader (bs : Bytes) : Cutting WireError (UInt16 × Nat × Nat) :=
  if bs.length < 39 then .error (.refused (.malformed 39 bs.length))
  else do
    let id ← bytes bs 0 2
    let count ← bytes bs 2 4
    let length ← Cutting.lift (countedLength bs (Bytes.ofLittleEndian count))
    return (UInt16.ofNat (Bytes.ofLittleEndian id), Bytes.ofLittleEndian count, length)

def exactly (length : Nat) (bs : Bytes) : Except WireError Unit :=
  if bs.length ≠ length then .error (.malformed length bs.length) else .ok ()

def ofPieces (id : UInt16) (count : Nat) : List Bytes → Except WireError PublicShare
  | [] => .error .invalidPoint
  | first :: rest => do
    let p ← point first
    let ps ← (rest.take count).mapM point
    return ⟨id, p, ps⟩

def cutPublicPart (bs : Bytes) (id : UInt16) (count : Nat) : Cutting WireError PublicShare := do
  let body ← after bs 6
  Cutting.lift (ofPieces id count (pieces 33 body))

def cutScalar (bs : Bytes) : Cutting WireError Scalar := do
  let b ← block 32 bs
  Cutting.lift (scalar b.bytes)

end Wire

open Cut Wire

def PublicShare.cut (bs : Bytes) : Cutting WireError PublicShare := do
  let (id, count, length) ← cutHeader bs
  Cutting.lift (exactly length bs)
  cutPublicPart bs id count

def KeyShare.cutParts (bs : Bytes) (id : UInt16) (count length : Nat) :
    Cutting WireError KeyShare := do
  let front ← before bs length
  let p ← cutPublicPart front id count
  let suffix ← after bs length
  let (secretBytes, groupBytes) ← split suffix 32
  let secret ← cutScalar secretBytes
  let group ← Cutting.lift (point groupBytes)
  return ⟨secret, group, p⟩

def KeyShare.cut (bs : Bytes) : Cutting WireError KeyShare := do
  let (id, count, length) ← cutHeader bs
  let total ← Cutting.lift (addressable bs (length + 65))
  Cutting.lift (exactly total bs)
  cutParts bs id count length

/-! ### No cut is out of range -/

namespace Wire

variable {bs : Bytes} {count : Nat}

lemma addressable_eq_ok {n : Nat} (h : n < 2 ^ 38) : addressable bs n = .ok n := by
  have hsize : UInt64.size = 18446744073709551616 := rfl
  rw [addressable, if_pos (by omega)]

lemma publicLength_eq (count : Nat) : publicLength count = 39 + 33 * count := by
  rw [publicLength]
  omega

lemma countedLength_eq (h : count < Nat.pow 256 4) :
    countedLength bs count = .ok (publicLength count) := by
  have hpow : Nat.pow 256 4 = 4294967296 := rfl
  have hlength : (count + 1) * 33 + 6 = publicLength count := by
    rw [publicLength_eq]
    omega
  rw [countedLength, addressable_eq_ok (by omega), ← hlength]
  show (addressable bs ((count + 1) * 33) >>= fun length => addressable bs (length + 6)) = _
  rw [addressable_eq_ok (by omega)]
  exact addressable_eq_ok (by omega)

lemma cutHeader_eq (bs : Bytes) :
    cutHeader bs = if bs.length < 39 then .error (.refused (.malformed 39 bs.length))
      else .ok ((header bs).1, (header bs).2, publicLength (header bs).2) := by
  unfold cutHeader
  split
  · rfl
  · next hleast =>
    have hid : (bytes bs 0 2 : Cutting WireError Bytes) = .ok (bs.take 2) := bytes_of_le (by omega)
    have hcount : (bytes bs 2 4 : Cutting WireError Bytes) = .ok ((bs.drop 2).take 4) :=
      bytes_of_le (by omega)
    have hlength : countedLength bs (Bytes.ofLittleEndian ((bs.drop 2).take 4)) =
      .ok (publicLength (header bs).2) := countedLength_eq (count_lt bs)
    simp only [hid, hcount, hlength, lift_ok, ok_bind]
    rfl

lemma points_eq_mapM (h : 33 * count ≤ bs.length) :
    points count bs = ((pieces 33 bs).take count).mapM point := by
  induction count generalizing bs with
  | zero => rfl
  | succ count ih =>
    have hrest : 33 * count ≤ (bs.drop 33).length := by
      rw [List.length_drop]
      omega
    rw [points, pieces_of_le (by decide) (by omega), List.take_succ_cons, List.mapM_cons, ih hrest]

lemma points_take {n m : Nat} (h : 33 * n ≤ m) (bs : Bytes) :
    points n (bs.take m) = points n bs := by
  induction n generalizing m bs with
  | zero => rfl
  | succ n ih =>
    have hfirst : (bs.take m).take 33 = bs.take 33 := by
      rw [List.take_take, Nat.min_eq_left (by omega)]
    have hrest : (bs.take m).drop 33 = (bs.drop 33).take (m - 33) := List.drop_take
    rw [points, points, hfirst, hrest, ih (by omega)]

/-- Cut off behind its last commitment, a public share is read as before. -/
lemma cutPublicPart_eq (h : publicLength (header bs).2 ≤ bs.length) :
    cutPublicPart (bs.take (publicLength (header bs).2)) (header bs).1 (header bs).2 =
      Cutting.lift (publicPart bs) := by
  rw [publicLength_eq] at h ⊢
  -- Behind the header stand the share's own point and then the commitments, piece by piece.
  have hbody : (bs.take (39 + 33 * (header bs).2)).drop 6 =
      (bs.drop 6).take (33 + 33 * (header bs).2) := by
    rw [List.drop_take]
    congr 1
    omega
  have hfirst : ((bs.drop 6).take (33 + 33 * (header bs).2)).take 33 = (bs.drop 6).take 33 := by
    rw [List.take_take, Nat.min_eq_left (by omega)]
  have hrest : ((bs.drop 6).take (33 + 33 * (header bs).2)).drop 33 =
      (bs.drop 39).take (33 * (header bs).2) := by
    rw [List.drop_take, List.drop_drop, Nat.add_sub_cancel_left]
  have hlong : 33 * (header bs).2 ≤ ((bs.drop 39).take (33 * (header bs).2)).length := by
    simp only [List.length_take, List.length_drop]
    omega
  have hpieces : pieces 33 ((bs.drop 6).take (33 + 33 * (header bs).2)) =
      (bs.drop 6).take 33 :: pieces 33 ((bs.drop 39).take (33 * (header bs).2)) := by
    have hlen : 33 ≤ ((bs.drop 6).take (33 + 33 * (header bs).2)).length := by
      simp only [List.length_take, List.length_drop]
      omega
    rw [pieces_of_le (by decide) hlen, hfirst, hrest]
  have hafter : (after (bs.take (39 + 33 * (header bs).2)) 6 : Cutting WireError Bytes) =
      .ok ((bs.drop 6).take (33 + 33 * (header bs).2)) := by
    rw [after_of_le (by rw [List.length_take]; omega), hbody]
  rw [cutPublicPart, hafter]
  refine congrArg Cutting.lift ?_
  rw [hpieces, ofPieces, ← points_eq_mapM hlong, points_take (Nat.le_refl _)]
  rfl

lemma cutScalar_eq (h : bs.length = 32) : cutScalar bs = Cutting.lift (scalar bs) := by
  rw [cutScalar, block_of_length h]
  rfl

lemma checkLength_eq (length : Nat → Nat) (bs : Bytes) :
    checkLength length bs = if bs.length < 39 then .error (.malformed 39 bs.length)
      else exactly (length (header bs).2) bs :=
  rfl

/-- A reader that checks the length first makes no cut out of range when none is made after the
check. -/
lemma lift_exactly {α : Type} {length : Nat} {r : Cutting WireError α} {d : Except WireError α}
    (h : bs.length = length → r = Cutting.lift d) :
    (Cutting.lift (exactly length bs) >>= fun _ => r) =
      Cutting.lift (exactly length bs >>= fun _ => d) := by
  unfold exactly
  split
  · rfl
  · next hlen => exact h (not_not.mp hlen)

end Wire

lemma PublicShare.cut_eq (bs : Bytes) :
    PublicShare.cut bs = Cutting.lift (PublicShare.decode bs) := by
  rw [cut, decode, checkLength_eq, cutHeader_eq]
  split
  · rfl
  · refine lift_exactly fun hlen => ?_
    have hpart := cutPublicPart_eq hlen.ge
    rw [← hlen, List.take_length] at hpart
    exact hpart

namespace KeyShare

def parts (bs : Bytes) : Except WireError KeyShare := do
  let p ← publicPart bs
  let suffix := bs.drop (publicLength (header bs).2)
  let secret ← scalar (suffix.take 32)
  let group ← point (suffix.drop 32)
  return ⟨secret, group, p⟩

lemma cutParts_eq {bs : Bytes} (h : bs.length = keyLength (header bs).2) :
    cutParts bs (header bs).1 (header bs).2 (publicLength (header bs).2) =
      Cutting.lift (parts bs) := by
  have hle : publicLength (header bs).2 ≤ bs.length := by
    rw [h, keyLength]
    omega
  -- What is left behind the public share is the secret and the group's point, 65 bytes.
  have hsuffix : 32 ≤ (bs.drop (publicLength (header bs).2)).length := by
    rw [List.length_drop, h, keyLength]
    omega
  have hsecret : ((bs.drop (publicLength (header bs).2)).take 32).length = 32 := by
    rw [List.length_take, Nat.min_eq_left hsuffix]
  rw [cutParts, parts, lift_bind, before_of_le hle, ok_bind, cutPublicPart_eq hle]
  refine bind_congr fun p => ?_
  rw [after_of_le hle, ok_bind, split_of_le hsuffix, ok_bind]
  simp only [cutScalar_eq hsecret, lift_bind]
  rfl

lemma cut_eq (bs : Bytes) : KeyShare.cut bs = Cutting.lift (KeyShare.decode bs) := by
  rw [cut, decode, checkLength_eq, cutHeader_eq]
  split
  · rfl
  · have hcount := count_lt bs
    have hpow : Nat.pow 256 4 = 4294967296 := rfl
    have hlength := publicLength_eq (header bs).2
    have htotal :
        addressable bs (publicLength (header bs).2 + 65) = .ok (keyLength (header bs).2) :=
      addressable_eq_ok (by omega)
    rw [ok_bind]
    simp only [htotal, lift_ok, ok_bind]
    exact lift_exactly cutParts_eq

end KeyShare

/-! ### Bytes of another length -/

namespace Wire

variable {α : Type} {length : Nat → Nat} {part : Bytes → Except WireError α} {bs : Bytes}

/-- Nothing that is read after the check is malformed. -/
def Formed (r : Except WireError α) : Prop := ∀ expected got, r ≠ .error (.malformed expected got)

lemma formed_ok (a : α) : Formed (.ok a : Except WireError α) := fun _ _ => nofun

lemma Formed.bind {β : Type} {r : Except WireError α} {f : α → Except WireError β} (h : Formed r)
    (hf : ∀ a, Formed (f a)) : Formed (r >>= f) := by
  cases r with
  | ok a => exact hf a
  | error e =>
    rintro expected got heq
    obtain rfl := Except.error.inj heq
    exact h expected got rfl

lemma formed_point (bs : Bytes) : Formed (point bs) := by
  unfold point
  split <;> exact fun _ _ => nofun

lemma formed_scalar (bs : Bytes) : Formed (scalar bs) := by
  unfold scalar
  split <;> exact fun _ _ => nofun

lemma formed_points (n : Nat) (bs : Bytes) : Formed (points n bs) := by
  induction n generalizing bs with
  | zero => exact formed_ok _
  | succ n ih => exact (formed_point _).bind fun _ => (ih _).bind fun _ => formed_ok _

lemma formed_publicPart (bs : Bytes) : Formed (publicPart bs) :=
  (formed_point _).bind fun _ => (formed_points _ _).bind fun _ => formed_ok _

lemma formed_parts (bs : Bytes) : Formed (KeyShare.parts bs) :=
  (formed_publicPart _).bind fun _ => (formed_scalar _).bind fun _ =>
    (formed_point _).bind fun _ => formed_ok _

/-- **What is malformed** is what is too short for a header, or not as long as the header says. -/
lemma malformed_iff_of_formed (hpart : Formed (part bs)) (expected : Nat) :
    (checkLength length bs >>= fun _ => part bs) = .error (.malformed expected bs.length) ↔
      if bs.length < 39 then expected = 39
      else bs.length ≠ length (header bs).2 ∧ expected = length (header bs).2 := by
  rw [checkLength_eq]
  split
  · constructor
    · rintro h
      injection h with h
      injection h with h
      exact h.symm
    · rintro rfl
      rfl
  · unfold exactly
    split
    · next hne =>
      constructor
      · rintro h
        injection h with h
        injection h with h
        exact ⟨hne, h.symm⟩
      · rintro ⟨-, rfl⟩
        rfl
    · next heq => exact iff_of_false (hpart _ _) fun h => heq h.1

end Wire

/-! ### Encodings cut off or gone on with -/

lemma Bytes.ofLittleEndian_littleEndian_mod (width v : Nat) :
    ofLittleEndian (littleEndian width v) = v % 256 ^ width := by
  induction width generalizing v with
  | zero => simp [littleEndian, ofLittleEndian, Nat.mod_one]
  | succ w ih =>
    have hmod : v % 256 ^ (w + 1) = v % 256 + 256 * (v / 256 % 256 ^ w) := by
      rw [Nat.pow_succ', Nat.mod_mul]
    rw [littleEndian, ofLittleEndian, ih, UInt8.toNat_ofNat', hmod]

namespace Wire

variable {α : Type} {length : Nat → Nat} {part : Bytes → Except WireError α} {bs e : Bytes}

/-- One is what the other begins with. -/
def Comparable (bs e : Bytes) : Prop := bs <+: e ∨ e <+: bs

lemma header_append (h : 6 ≤ bs.length) (rest : Bytes) : header (bs ++ rest) = header bs := by
  have hcount : 4 ≤ (bs.drop 2).length := by
    rw [List.length_drop]
    omega
  rw [header, header, List.take_append_of_le_length (by omega),
    List.drop_append_of_le_length (by omega), List.take_append_of_le_length hcount]

/-- Both have one header, when they are long enough for it. -/
lemma Comparable.header_eq (h : Comparable bs e) (hbs : 6 ≤ bs.length) (he : 6 ≤ e.length) :
    header bs = header e := by
  rcases h with ⟨rest, rfl⟩ | ⟨rest, rfl⟩
  · rw [header_append hbs]
  · rw [header_append he]

lemma Comparable.eq_of_length (h : Comparable bs e) (hlen : bs.length = e.length) : bs = e := by
  rcases h with h | h
  · exact h.eq_of_length hlen
  · exact (h.eq_of_length hlen.symm).symm

lemma count_encode (p : PublicShare) :
    (header p.encode).2 = p.commitments.length % 256 ^ 4 := by
  simp only [header, PublicShare.encode, List.append_assoc]
  rw [List.drop_left' (Bytes.length_littleEndian 2 _),
    List.take_left' (Bytes.length_littleEndian 4 _), Bytes.ofLittleEndian_littleEndian_mod]

/-- A reader of shares looks at their length before their content, and makes no cut out of
range. -/
structure LengthFirst (length : Nat → Nat) (count : α → Nat) (encode : α → Bytes)
    (decode : Bytes → Except WireError α) (cut : Bytes → Cutting WireError α) : Prop where
  short : ∀ bs : Bytes, bs.length < 39 → decode bs = .error (.malformed 39 bs.length)
  malformed_iff : ∀ bs : Bytes, 39 ≤ bs.length →
    (decode bs = .error (.malformed (length (header bs).2) bs.length) ↔
      bs.length ≠ length (header bs).2)
  /-- The header has room for counts up to `2 ^ 32 - 1`, and keeps the rest of others. -/
  comparable_iff : ∀ s bs, Comparable bs (encode s) →
    ((∃ expected, decode bs = .error (.malformed expected bs.length)) ↔
      bs.length ≠ length (count s % 256 ^ 4))
  proper : ∀ s bs, count s < 2 ^ 32 → Comparable bs (encode s) → bs ≠ encode s →
    ∃ expected, decode bs = .error (.malformed expected bs.length)
  /-- No share that is read has a count without room. -/
  fits : ∀ bs s, decode bs = .ok s → count s < 2 ^ 32
  cut_eq : ∀ bs, cut bs = Cutting.lift (decode bs)

lemma LengthFirst.of_formed {count : α → Nat} {encode : α → Bytes}
    {cut : Bytes → Cutting WireError α}
    (hleast : ∀ c, 39 ≤ length c) (hpart : ∀ bs, Formed (part bs))
    (hlength : ∀ s, (encode s).length = length (count s))
    (hcount : ∀ s, (header (encode s)).2 = count s % 256 ^ 4)
    (hfits : ∀ bs s, (checkLength length bs >>= fun _ => part bs) = .ok s → count s < 2 ^ 32)
    (hcut : ∀ bs, cut bs = Cutting.lift (checkLength length bs >>= fun _ => part bs)) :
    LengthFirst length count encode (fun bs => checkLength length bs >>= fun _ => part bs) cut := by
  have hcomparable : ∀ s bs, Comparable bs (encode s) →
      ((∃ expected, (checkLength length bs >>= fun _ => part bs) =
        .error (.malformed expected bs.length)) ↔ bs.length ≠ length (count s % 256 ^ 4)) := by
    intro s bs h
    simp only [malformed_iff_of_formed (hpart bs)]
    split
    · next hshort => exact iff_of_true ⟨39, rfl⟩ (by have := hleast (count s % 256 ^ 4); omega)
    · -- Both are long enough for the header, and so it is the same for both.
      have hencode := hleast (count s)
      rw [← hlength] at hencode
      rw [h.header_eq (by omega) (by omega), hcount]
      simp
  refine ⟨fun bs h => ?short, fun bs h => ?malformed, hcomparable, fun s bs hroom h hne => ?proper,
    hfits, hcut⟩
  case short => exact (malformed_iff_of_formed (hpart bs) 39).mpr (by rw [if_pos h])
  case malformed =>
    rw [malformed_iff_of_formed (hpart bs), if_neg (Nat.not_lt.mpr h)]
    exact and_iff_left rfl
  case proper =>
    refine (hcomparable s bs h).mpr fun hlen => hne (h.eq_of_length ?_)
    rw [hlen, hlength, Nat.mod_eq_of_lt (by omega)]

lemma publicShare_lengthFirst : LengthFirst (fun c => 39 + 33 * c) (·.commitments.length)
    PublicShare.encode PublicShare.decode PublicShare.cut := by
  have hlength : (fun c => 39 + 33 * c) = publicLength := funext fun c => (publicLength_eq c).symm
  rw [hlength]
  refine .of_formed (fun c => ?_) formed_publicPart PublicShare.length_encode count_encode
    (fun bs p hp => (PublicShare.encode_of_decode hp).1.count) PublicShare.cut_eq
  rw [publicLength_eq]
  omega

lemma keyShare_lengthFirst : LengthFirst (fun c => 104 + 33 * c)
    (·.publicShare.commitments.length) KeyShare.encode KeyShare.decode KeyShare.cut := by
  have hlength : (fun c => 104 + 33 * c) = keyLength := by
    funext c
    rw [keyLength, publicLength_eq]
    omega
  rw [hlength]
  refine .of_formed (fun c => ?_) formed_parts KeyShare.length_encode (fun s => ?_)
    (fun bs s hs => (KeyShare.encode_of_decode hs).1.publicShare.count) KeyShare.cut_eq
  · rw [keyLength, publicLength_eq]
    omega
  · have hpublic : 6 ≤ s.publicShare.encode.length := by
      rw [PublicShare.length_encode, PublicShare.encodedLength, publicLength_eq]
      omega
    rw [KeyShare.encode, List.append_assoc, header_append hpublic, count_encode]

lemma fits_of_deal {secret : Scalar} {threshold maxSigners : UInt32} {e e' : Entropy} {d : Dealing}
    {s : KeyShare} (h : Dealing.deal secret threshold maxSigners e = .ok (d, e'))
    (hs : s ∈ d.shares) : s.publicShare.commitments.length < 2 ^ 32 := by
  obtain ⟨-, ⟨hthreshold, -, -⟩, rfl⟩ := Dealing.deal_eq_ok h
  obtain ⟨i, -, rfl⟩ := List.mem_map.mp hs
  have hcount : (Dealing.polynomial secret threshold e).commitments.length = threshold.toNat := by
    rw [Polynomial.commitments, List.length_map, Dealing.length_polynomial secret hthreshold]
  exact hcount ▸ threshold.toNat_lt

/-- **Length comes before content.** Bytes are malformed just if they are too short for a header
or not as long as the header says, as a public share or as a key share; so an encoding that is cut
off or gone on with is malformed, whichever share it is of that is dealt or read, and no bytes are
read as both. No cut that either reader makes is out of range. -/
theorem length_before_content :
    LengthFirst (fun c => 39 + 33 * c) (·.commitments.length) PublicShare.encode
      PublicShare.decode PublicShare.cut ∧
    LengthFirst (fun c => 104 + 33 * c) (·.publicShare.commitments.length) KeyShare.encode
      KeyShare.decode KeyShare.cut ∧
    (∀ secret threshold maxSigners e d e',
      Dealing.deal secret threshold maxSigners e = .ok (d, e') →
      ∀ s ∈ d.shares, s.publicShare.commitments.length < 2 ^ 32) ∧
    ∀ bs p s, PublicShare.decode bs = .ok p → KeyShare.decode bs ≠ .ok s := by
  refine ⟨publicShare_lengthFirst, keyShare_lengthFirst, fun _ _ _ _ _ _ h _ => fits_of_deal h,
    fun bs p s hp hs => ?_⟩
  -- The two lengths differ for every count, so no length is right for both.
  obtain ⟨_, hpublic, -⟩ := bind_eq_ok hp
  obtain ⟨_, hkey, -⟩ := bind_eq_ok hs
  have hpublicLength := (checkLength_eq_ok hpublic).2
  have hkeyLength := (checkLength_eq_ok hkey).2
  rw [keyLength] at hkeyLength
  omega

/-- A header that claims the greatest count there is, with one point behind it. -/
theorem greatest_count_malformed :
    let bs : Bytes := [1, 0, 255, 255, 255, 255] ++ Point.generator.compress
    PublicShare.decode bs = .error (.malformed 141733920774 39) ∧
    KeyShare.decode bs = .error (.malformed 141733920839 39) := by
  intro bs
  obtain ⟨hpublic, hkey, -⟩ := length_before_content
  have hlen : bs.length = 39 := by simp [bs]
  have hcount : (header bs).2 = 4294967295 := rfl
  have hp := (hpublic.malformed_iff bs (by omega)).mpr (by rw [hlen, hcount]; decide)
  have hk := (hkey.malformed_iff bs (by omega)).mpr (by rw [hlen, hcount]; decide)
  rw [hlen, hcount] at hp hk
  exact ⟨hp, hk⟩

end Wire

end KeyQuorum
