import Mathlib.Tactic.Lemma
import KeyQuorum.Distribution.Record
import KeyQuorum.Proofs.Event.Spelled
import KeyQuorum.Proofs.Key.Reading

/-!
How a coordination record is read, check by check.

The kind, the signature, the handler and the threshold come first; an event that passes them
opens, and what is left are its signers. These are read in order, and the first that cannot be
read decides how the reading ends. Only a signer's text can halt it: well-formed hexadecimal of
another length than a key's. Every other event is read or refused.

What is built as a record opens whenever its threshold is one that readers take, and is then
read back as it was built.
-/

namespace KeyQuorum.Record

variable {event : Event} {kind : UInt16} {handler : KeyPair} {threshold : UInt32} {tags : List Tag}

/-! ### Reading signers -/

/-- A list of signers fails by its first tag that cannot be read. -/
theorem readSigners_eq_error {ts : List Tag} {e : Halt DistributionError} :
    readSigners ts = .error e ↔ ∃ before t after, ts = before ++ t :: after ∧
      (∃ signers, readSigners before = .ok signers) ∧ readSigner t = .error e := by
  induction ts with
  | nil => simp [readSigners]
  | cons t ts ih =>
    rw [readSigners]
    cases ht : readSigner t with
    | error f =>
      constructor
      · rintro h
        cases h
        exact ⟨[], t, ts, rfl, ⟨[], rfl⟩, ht⟩
      · rintro ⟨before, u, after, hts, ⟨signers, hb⟩, hu⟩
        cases before with
        | nil =>
          obtain ⟨rfl, rfl⟩ := List.cons.inj hts
          rw [ht] at hu
          cases hu
          rfl
        | cons x before =>
          obtain ⟨rfl, -⟩ := List.cons.inj hts
          rw [readSigners, ht] at hb
          cases hb
    | ok s =>
      constructor
      · intro h
        obtain ⟨before, u, after, rfl, ⟨signers, hb⟩, hu⟩ := ih.mp (by
          cases hr : readSigners ts with
          | error f => rw [hr] at h; exact h
          | ok ss => rw [hr] at h; cases h)
        refine ⟨t :: before, u, after, rfl, ⟨s :: signers, ?_⟩, hu⟩
        rw [readSigners, ht, hb]
        rfl
      · rintro ⟨before, u, after, hts, ⟨signers, hb⟩, hu⟩
        cases before with
        | nil =>
          obtain ⟨rfl, rfl⟩ := List.cons.inj hts
          rw [ht] at hu
          cases hu
        | cons x before =>
          obtain ⟨rfl, rfl⟩ := List.cons.inj hts
          have hrest : ∃ ss, readSigners before = .ok ss := by
            cases hr : readSigners before with
            | error f => rw [readSigners, ht, hr] at hb; cases hb
            | ok ss => exact ⟨ss, rfl⟩
          rw [ih.mpr ⟨before, u, after, rfl, hrest, hu⟩]
          rfl

lemma readSigners_tags {signers : List (PublicKey × String)}
    (h : ∀ s ∈ signers, ∃ p, PublicShare.ofHex s.2 = .ok p) :
    readSigners (signers.map fun s => ["p", s.1.hex, s.2]) = .ok signers := by
  induction signers with
  | nil => rfl
  | cons s signers ih =>
    obtain ⟨p, hp⟩ := h s List.mem_cons_self
    have hs : readSigner ["p", s.1.hex, s.2] = .ok s := by
      simp only [readSigner, PublicKey.ofHex_hex, hp]
    rw [List.map_cons, readSigners, hs, ih fun t ht => h t (List.mem_cons_of_mem s ht)]
    rfl

lemma readSigner_eq_halted {t : Tag} :
    readSigner t = .error .halted ↔
      ∃ name signer share, t = [name, signer, share] ∧ PublicKey.Misfit signer := by
  constructor
  · intro h
    unfold readSigner at h
    split at h
    · next name signer share =>
      split at h
      · cases h
      · next hs => exact ⟨_, _, _, rfl, PublicKey.ofHex_eq_halted.mp hs⟩
      · split at h <;> cases h
    · cases h
  · rintro ⟨name, signer, share, rfl, hs⟩
    simp only [readSigner, PublicKey.ofHex_eq_halted.mpr hs]

lemma readSigner_of_unusable {name signer share : String} (h : PublicKey.Unusable signer) :
    readSigner [name, signer, share] = invalid .badSignerKey := by
  obtain ⟨e, he⟩ := PublicKey.ofHex_eq_refused.mpr h
  simp only [readSigner, he]

/-! ### The tags of a record -/

lemma all_tags (signers : List (PublicKey × String)) (threshold : UInt32) (handler : KeyPair) :
    Tag.all "p" (Record.tags signers threshold handler) =
      signers.map fun s => ["p", s.1.hex, s.2] := by
  have hsigners : (signers.map fun s => ["p", s.1.hex, s.2]).filter (Tag.named "p") =
      signers.map fun s => ["p", s.1.hex, s.2] := by
    refine List.filter_eq_self.mpr fun t ht => ?_
    obtain ⟨s, -, rfl⟩ := List.mem_map.mp ht
    rfl
  rw [Tag.all, Record.tags, List.filter_append, hsigners]
  simp [Tag.named]

lemma value?_tags (signers : List (PublicKey × String)) (threshold : UInt32) (handler : KeyPair)
    {name : String} (h : name ≠ "p") :
    Tag.value? name (Record.tags signers threshold handler) =
      Tag.value? name [["threshold", toString threshold.toNat],
        ["handlersecret", handler.secretHex], ["h", handler.publicKey.hex]] := by
  have hsigners : (signers.map fun s => ["p", s.1.hex, s.2]).find? (Tag.named name) = none := by
    refine List.find?_eq_none.mpr fun t ht => ?_
    obtain ⟨s, -, rfl⟩ := List.mem_map.mp ht
    simpa [Tag.named] using Ne.symm h
  rw [Tag.value?, Tag.value?, Tag.first?, Record.tags, List.find?_append, hsigners]
  rfl

lemma readHandler_tags (signers : List (PublicKey × String)) (threshold : UInt32)
    (handler : KeyPair) : readHandler (Record.tags signers threshold handler) = .ok handler := by
  have hsecret : Tag.value? "handlersecret" (Record.tags signers threshold handler) =
      some handler.secretHex := by
    rw [value?_tags _ _ _ (by decide)]
    simp [Tag.value?, Tag.first?, Tag.named]
  have hkey : Tag.value? "h" (Record.tags signers threshold handler) =
      some handler.publicKey.hex := by
    rw [value?_tags _ _ _ (by decide)]
    simp [Tag.value?, Tag.first?, Tag.named]
  simp only [readHandler, hsecret, KeyPair.ofHex_secretHex, hkey, if_true]

lemma readThreshold_tags (signers : List (PublicKey × String)) (threshold : UInt32)
    (handler : KeyPair) :
    readThreshold (Record.tags signers threshold handler) =
      if threshold = 0 ∨ maxThreshold < threshold then invalid .thresholdOutOfRange
      else .ok threshold := by
  have hvalue : Tag.value? "threshold" (Record.tags signers threshold handler) =
      some (toString threshold.toNat) := by
    rw [value?_tags _ _ _ (by decide)]
    simp [Tag.value?, Tag.first?, Tag.named]
  have htext : (toString threshold.toNat).toList = Decimal.encode threshold.toNat := by
    exact String.toList_ofList
  have hread :
      Decimal.decode UInt32.size (toString threshold.toNat).toList = some threshold.toNat := by
    rw [htext]
    exact Decimal.decode_encode threshold.toNat_lt
  simp only [readThreshold, hvalue, Option.bind_some, hread, UInt32.ofNat_toNat]

lemma read_cons_signer (t : Tag) (tags : List Tag) :
    readHandler (("p" :: t) :: tags) = readHandler tags ∧
      readThreshold (("p" :: t) :: tags) = readThreshold tags := by
  have hvalue : ∀ name ≠ "p", Tag.value? name (("p" :: t) :: tags) = Tag.value? name tags := by
    intro name hname
    have hnamed : Tag.named name ("p" :: t) = false := by
      simpa [Tag.named] using Ne.symm hname
    rw [Tag.value?, Tag.first?, List.find?_cons_of_neg (by rw [hnamed]; exact Bool.false_ne_true)]
    rfl
  constructor
  · rw [readHandler, hvalue _ (by decide), hvalue _ (by decide)]
    rfl
  · rw [readThreshold, hvalue _ (by decide)]
    rfl

/-! ### What is checked before the signers -/

lemma ofEvent_eq (event : Event) (kind : UInt16) :
    ofEvent event kind =
      if event.draft.kind ≠ kind then invalid .unexpectedKind
      else if ¬ event.verify = true then invalid .badSignature
      else (readHandler event.draft.tags).bind fun handler =>
        (readThreshold event.draft.tags).bind fun threshold =>
          (readSigners (Tag.all "p" event.draft.tags)).bind fun signers =>
            if signers.length < threshold.toNat then invalid .tooFewSigners
            else .ok ⟨signers, threshold, handler, event⟩ := by
  unfold ofEvent
  by_cases hkind : event.draft.kind = kind
  · cases hsigned : event.verify with
    | false =>
      simp only [hkind, ne_eq, not_true_eq_false, if_false]
      rfl
    | true =>
      simp only [hkind, ne_eq, not_true_eq_false, if_false]
      refine bind_congr fun handler => bind_congr fun threshold => bind_congr fun signers => ?_
      split <;> rfl
  · simp only [if_pos hkind]
    rfl

/-- The reading comes as far as the signers, with a handler and a threshold. -/
structure Opens (event : Event) (kind : UInt16) (handler : KeyPair) (threshold : UInt32) :
    Prop where
  kind : event.draft.kind = kind
  signed : event.verify = true
  handler : readHandler event.draft.tags = .ok handler
  threshold : readThreshold event.draft.tags = .ok threshold

lemma readHandler_cases (tags : List Tag) :
    (∃ handler, readHandler tags = .ok handler) ∨ ∃ f, readHandler tags = invalid f := by
  unfold readHandler
  split
  · exact .inr ⟨_, rfl⟩
  · split
    · exact .inr ⟨_, rfl⟩
    · split
      · exact .inr ⟨_, rfl⟩
      · split
        · exact .inl ⟨_, rfl⟩
        · exact .inr ⟨_, rfl⟩

lemma readThreshold_cases (tags : List Tag) :
    (∃ threshold, readThreshold tags = .ok threshold) ∨ ∃ f, readThreshold tags = invalid f := by
  unfold readThreshold
  split
  · exact .inr ⟨_, rfl⟩
  · simp only
    split
    · exact .inr ⟨_, rfl⟩
    · exact .inl ⟨_, rfl⟩

/-- Of an event that opens only the signers are left to be read. -/
lemma Opens.ofEvent_eq (h : Opens event kind handler threshold) :
    ofEvent event kind = (readSigners (Tag.all "p" event.draft.tags)).bind fun signers =>
      if signers.length < threshold.toNat then invalid .tooFewSigners
      else .ok ⟨signers, threshold, handler, event⟩ := by
  rw [Record.ofEvent_eq, if_neg (not_not_intro h.kind), if_neg (not_not_intro h.signed), h.handler,
    h.threshold]
  rfl

lemma opens_or_invalid (event : Event) (kind : UInt16) :
    (∃ handler threshold, Opens event kind handler threshold) ∨
      ∃ f, ofEvent event kind = invalid f := by
  rw [ofEvent_eq]
  -- The parts in the order in which the reader goes through them.
  by_cases hkind : event.draft.kind ≠ kind
  · exact .inr ⟨_, if_pos hkind⟩
  rw [if_neg hkind]
  by_cases hsigned : ¬ event.verify = true
  · exact .inr ⟨_, if_pos hsigned⟩
  rw [if_neg hsigned]
  rcases readHandler_cases event.draft.tags with ⟨handler, hh⟩ | ⟨f, hh⟩
  · rcases readThreshold_cases event.draft.tags with ⟨threshold, ht⟩ | ⟨f, ht⟩
    · exact .inl ⟨handler, threshold, not_not.mp hkind, not_not.mp hsigned, hh, ht⟩
    · exact .inr ⟨f, by rw [hh, ht]; rfl⟩
  · exact .inr ⟨f, by rw [hh]; rfl⟩

lemma Opens.ofEvent_of_error (h : Opens event kind handler threshold) {e : Halt DistributionError}
    (he : readSigners (Tag.all "p" event.draft.tags) = .error e) :
    ofEvent event kind = .error e := by
  rw [h.ofEvent_eq, he]
  rfl

/-- **The reading of a record halts** just on an event that opens and whose signers read up to
one with the text of a misfit. In its place a text that is no hexadecimal or names no point is
refused as a bad key, and an event that does not open is refused as well. -/
theorem halts_iff_misfit (event : Event) (kind : UInt16) :
    (ofEvent event kind = .error .halted ↔
      (∃ handler threshold, Opens event kind handler threshold) ∧
        ∃ before name signer share after,
          Tag.all "p" event.draft.tags = before ++ [name, signer, share] :: after ∧
            (∃ signers, readSigners before = .ok signers) ∧ PublicKey.Misfit signer) ∧
    (∀ handler threshold before name signer share after, Opens event kind handler threshold →
      Tag.all "p" event.draft.tags = before ++ [name, signer, share] :: after →
      (∃ signers, readSigners before = .ok signers) → PublicKey.Unusable signer →
      ofEvent event kind = invalid .badSignerKey) ∧
    ((¬ ∃ handler threshold, Opens event kind handler threshold) →
      ∃ f, ofEvent event kind = invalid f) := by
  refine ⟨⟨fun h => ?_, ?_⟩, ?_, (opens_or_invalid event kind).resolve_left⟩
  · rcases opens_or_invalid event kind with ⟨handler, threshold, ho⟩ | ⟨f, hf⟩
    · refine ⟨⟨handler, threshold, ho⟩, ?_⟩
      -- Only the signers are left to halt the reading, by the first tag that stops them.
      rw [ho.ofEvent_eq] at h
      cases hr : readSigners (Tag.all "p" event.draft.tags) with
      | error e =>
        rw [hr] at h
        obtain rfl : e = .halted := Except.error.inj h
        obtain ⟨before, t, after, hall, hbefore, ht⟩ := readSigners_eq_error.mp hr
        obtain ⟨name, signer, share, rfl, hs⟩ := readSigner_eq_halted.mp ht
        exact ⟨before, name, signer, share, after, hall, hbefore, hs⟩
      | ok signers =>
        rw [hr] at h
        simp only [Except.bind] at h
        split at h <;> cases h
    · rw [hf] at h
      cases h
  · rintro ⟨⟨handler, threshold, ho⟩, before, name, signer, share, after, hall, hbefore, hs⟩
    exact ho.ofEvent_of_error (readSigners_eq_error.mpr
      ⟨before, _, after, hall, hbefore, readSigner_eq_halted.mpr ⟨name, signer, share, rfl, hs⟩⟩)
  · intro handler threshold before name signer share after ho hall hbefore hs
    exact ho.ofEvent_of_error (readSigners_eq_error.mpr
      ⟨before, _, after, hall, hbefore, readSigner_of_unusable hs⟩)

def misfit : Draft.Spelled where
  author := KeyPair.one.publicKey
  createdAt := 0
  kind := 16430
  tags := [[.letters "p".toList, .hex [[2]], .hex [[0]]],
    [.letters "threshold".toList, .letters "1".toList],
    [.letters "handlersecret".toList, .hex [Residue.toBytes KeyPair.one.secret]],
    [.letters "h".toList, .hex [KeyPair.one.publicKey.bytes]]]
  content := .letters []

/-- The record is signed, and reading it halts. -/
theorem exists_halting : ∃ event : Event, event.verify = true ∧ event.draft = misfit.draft ∧
    ofEvent event 16430 = .error .halted := by
  -- The draft is spelled out byte by byte, so that its hash and signature can be checked here.
  have hsigns : Signature.signs .one (Residue.toBlock (1 : Scalar))
      misfit.message.hash = true := by decide +kernel
  obtain ⟨sig, hsign⟩ := Draft.Spelled.exists_sign rfl hsigns
  have htags : misfit.draft.tags = ["p", "02", "00"] :: Record.tags [] 1 .one := by
    have hsigner : Hex.encode [2] = "02" := rfl
    have hshare : Hex.encode [0] = "00" := rfl
    simp only [misfit, Draft.Spelled.draft, List.map_cons, List.map_nil, Spelling.text_letters,
      Spelling.text_hex, List.flatten_singleton, String.ofList_toList, hsigner, hshare]
    rfl
  obtain ⟨hhandler, hthreshold⟩ := read_cons_signer ["02", "00"] (Record.tags [] 1 .one)
  have hopens : Opens ⟨misfit.draft, misfit.draft.id, sig⟩ 16430 .one 1 := by
    refine ⟨rfl, (Draft.verify_of_sign hsign).1, ?_, ?_⟩
    · rw [htags, hhandler, readHandler_tags]
    · rw [htags, hthreshold, readThreshold_tags]
      rfl
  have hmisfit : PublicKey.Misfit "02" := ⟨[2], by decide, by decide⟩
  have hsigners : readSigners (Tag.all "p" misfit.draft.tags) = .error .halted := by
    have hall : Tag.all "p" misfit.draft.tags = [["p", "02", "00"]] := by
      rw [htags]
      exact congrArg (["p", "02", "00"] :: ·) (all_tags [] 1 .one)
    rw [hall]
    exact readSigners_eq_error.mpr ⟨[], _, [], rfl, ⟨[], rfl⟩,
      readSigner_eq_halted.mpr ⟨_, _, _, rfl, hmisfit⟩⟩
  exact ⟨_, (Draft.verify_of_sign hsign).1, rfl, hopens.ofEvent_of_error hsigners⟩

/-! ### What is built is read -/

variable {dealer : KeyPair} {now : Timestamp} {signers : List (PublicKey × String)}
  {random : Block 32} {record : Record}

lemma build_eq_ok (h : build dealer now kind signers threshold handler random = .ok record) :
    record.signers = signers ∧ record.threshold = threshold ∧ record.handler = handler ∧
      record.event.verify = true ∧ record.event.draft =
        ⟨dealer.publicKey, now, kind, Record.tags signers threshold handler, ""⟩ := by
  unfold build at h
  simp only at h
  split at h
  · next event hsign =>
    obtain ⟨hverify, hdraft⟩ := Draft.verify_of_sign hsign
    obtain rfl := Except.ok.inj h
    exact ⟨rfl, rfl, rfl, hverify, hdraft⟩
  · cases h

lemma build_eq_error {e : DistributionError}
    (h : build dealer now kind signers threshold handler random = .error e) :
    e = .crypto (.messaging (.key .signingFailed)) := by
  unfold build Draft.sign at h
  simp only [if_true] at h
  split at h
  · cases h
  · next fault hsign =>
    split at hsign
    · cases hsign
    · next hfault =>
      rw [← Except.error.inj h, ← Except.error.inj hsign, Signature.sign_eq_error hfault]
      rfl

lemma ofEvent_build_eq (h : build dealer now kind signers threshold handler random = .ok record) :
    ofEvent record.event kind =
      if threshold = 0 ∨ maxThreshold < threshold then invalid .thresholdOutOfRange
      else (readSigners (signers.map fun s => ["p", s.1.hex, s.2])).bind fun read =>
        if read.length < threshold.toNat then invalid .tooFewSigners
        else .ok ⟨read, threshold, handler, record.event⟩ := by
  obtain ⟨-, -, -, hverify, hdraft⟩ := build_eq_ok h
  have hkind : record.event.draft.kind = kind := by rw [hdraft]
  have htags : record.event.draft.tags = Record.tags signers threshold handler := by rw [hdraft]
  rw [ofEvent_eq, if_neg (not_not_intro hkind), if_neg (not_not_intro hverify), htags,
    readHandler_tags, readThreshold_tags, all_tags]
  split <;> rfl

/-- A record with a threshold that readers do not take is refused for it. -/
theorem ofEvent_build_of_lt
    (h : build dealer now kind signers threshold handler random = .ok record)
    (hlt : maxThreshold < threshold) :
    ofEvent record.event kind = invalid .thresholdOutOfRange := by
  rw [ofEvent_build_eq h, if_pos (.inr hlt)]

/-- **A record is read back as it was built**, when its threshold is in range and each signer has
the text of a public share. -/
theorem ofEvent_build (h : build dealer now kind signers threshold handler random = .ok record)
    (hpos : threshold ≠ 0) (hle : threshold ≤ maxThreshold)
    (hcount : threshold.toNat ≤ signers.length)
    (hshares : ∀ s ∈ signers, ∃ p, PublicShare.ofHex s.2 = .ok p) :
    ofEvent record.event kind = .ok record := by
  obtain ⟨hsigners, hthreshold, hhandler, -⟩ := build_eq_ok h
  have hrange : ¬ (threshold = 0 ∨ maxThreshold < threshold) :=
    not_or.mpr ⟨hpos, UInt32.not_lt.mpr hle⟩
  rw [ofEvent_build_eq h, if_neg hrange, readSigners_tags hshares]
  simp only [Except.bind, if_neg (Nat.not_lt.mpr hcount)]
  rw [← hsigners, ← hthreshold, ← hhandler]

end KeyQuorum.Record
