import Mathlib.Algebra.BigOperators.Group.Finset.Basic
import Mathlib.Algebra.Order.BigOperators.Group.Finset
import KeyQuorum.Proofs.Distribution.Grammar

/-!
How many signers a coordination record names.

The threshold of a record is compared with the number of its signers' tags. The tags are read one
by one, and a tag is read the same whichever others there are. So a signer that is named in several
tags is counted each time, in whatever case its key is written, and a share likewise. How many
different ones an accepted record names is known only together with a bound on how often each of
them is named; with no repeats at all they are as many as the threshold asks for.
-/

namespace KeyQuorum.Record

variable {event : Event} {kind : UInt16} {handler : KeyPair} {threshold : UInt32} {record : Record}
  {t : Tag} {s : PublicKey × String}

/-! ### Tags are read one by one -/

lemma readSigner_eq_ok : readSigner t = .ok s ↔ Lists t s := by
  constructor
  · intro h
    unfold readSigner at h
    split at h
    · next name signer text =>
      split at h
      · cases h
      · cases h
      · next key hkey =>
        split at h
        · cases h
        · next share hshare =>
          obtain rfl := Except.ok.inj h
          exact ⟨name, signer, share, rfl, PublicKey.ofHex_eq_ok.mp hkey, hshare⟩
    · cases h
  · rintro ⟨name, signer, share, rfl, hkey, hshare⟩
    simp only [readSigner, PublicKey.ofHex_eq_ok.mpr hkey, hshare]

lemma readSigners_eq_ok {ts : List Tag} {signers : List (PublicKey × String)} :
    readSigners ts = .ok signers ↔ List.Forall₂ Lists ts signers := by
  -- A tag is read the same wherever it stands.
  induction ts generalizing signers with
  | nil =>
    rw [List.forall₂_nil_left_iff, readSigners, Except.ok.injEq, eq_comm]
  | cons t ts ih =>
    rw [List.forall₂_cons_left_iff, readSigners]
    constructor
    · intro h
      obtain ⟨s, hs, h⟩ := Wire.bind_eq_ok h
      obtain ⟨rest, hrest, h⟩ := Wire.bind_eq_ok h
      exact ⟨s, rest, readSigner_eq_ok.mp hs, ih.mp hrest, (Except.ok.inj h).symm⟩
    · rintro ⟨s, rest, hs, hrest, rfl⟩
      rw [readSigner_eq_ok.mpr hs, ih.mpr hrest]
      rfl

/-- An accepted record opens, its signers are those listed, and there are enough tags of them. -/
lemma ofEvent_eq_ok_iff : ofEvent event kind = .ok record ↔
    record.event = event ∧ Opens event kind record.handler record.threshold ∧
      List.Forall₂ Lists (Tag.all "p" event.draft.tags) record.signers ∧
      record.threshold.toNat ≤ (Tag.all "p" event.draft.tags).length := by
  constructor
  · intro h
    -- Behind what opens the reader looks at the signers, and then only at how many tags there are.
    rcases opens_or_invalid event kind with ⟨handler, threshold, hopens⟩ | ⟨fault, hfault⟩
    · rw [hopens.ofEvent_eq] at h
      obtain ⟨signers, hread, h⟩ := Wire.bind_eq_ok h
      have hlists := readSigners_eq_ok.mp hread
      split at h
      · cases h
      · next henough =>
        obtain rfl := Except.ok.inj h
        exact ⟨rfl, hopens, hlists, hlists.length_eq ▸ Nat.not_lt.mp henough⟩
    · rw [hfault] at h
      cases h
  · rintro ⟨rfl, hopens, hlists, henough⟩
    rw [hlists.length_eq] at henough
    rw [hopens.ofEvent_eq, readSigners_eq_ok.mpr hlists]
    exact if_neg (Nat.not_lt.mpr henough)

/-! ### Different ones among many -/

lemma length_le_mul_card {α : Type} [DecidableEq α] {xs : List α} {m : Nat}
    (h : ∀ x, xs.count x ≤ m) : xs.length ≤ m * xs.toFinset.card := by
  calc xs.length = ∑ x ∈ xs.toFinset, xs.count x := (List.sum_toFinset_count_eq_length xs).symm
    _ ≤ xs.toFinset.card • m := Finset.sum_le_card_nsmul _ _ _ fun x _ => h x
    _ = m * xs.toFinset.card := by rw [smul_eq_mul, Nat.mul_comm]

/-- What an accepted record names, given the numbers of its shares. With no signer repeated, which
is a bound of one, there are as many different signers as the threshold; so it is for the shares. -/
structure Names (event : Event) (record : Record) (numbers : List UInt16) : Prop where
  tags : record.threshold.toNat ≤ (Tag.all "p" event.draft.tags).length
  signers : record.signers.map (·.1.hex) =
    (Tag.all "p" event.draft.tags).map fun t => (t.getD 1 "").toLower
  different_signers : ∀ m, (∀ k, (record.signers.map (·.1)).count k ≤ m) →
    record.threshold.toNat ≤ m * (record.signers.map (·.1)).toFinset.card
  different_numbers : ∀ m, (∀ i, numbers.count i ≤ m) →
    record.threshold.toNat ≤ m * numbers.toFinset.card

lemma Lists.hex_eq (h : Lists t s) : s.1.hex = (t.getD 1 "").toLower := by
  obtain ⟨name, signer, share, rfl, hkey, -⟩ := h
  exact Hex.encode_of_decode hkey

lemma names_of_lists {shares : List (PublicKey × PublicShare)}
    (hlists : List.Forall₂ Lists (Tag.all "p" event.draft.tags) record.signers)
    (henough : record.threshold.toNat ≤ (Tag.all "p" event.draft.tags).length)
    (hshares : shares.length = record.signers.length) :
    Names event record (shares.map (·.2.id)) := by
  have hlength := hlists.length_eq
  refine ⟨henough, ?_, fun m hm => ?_, fun m hm => ?_⟩
  · -- A key reads the same in either case, and is written in the lower one.
    have htexts : List.Forall₂ (· = ·)
        ((Tag.all "p" event.draft.tags).map fun t => (t.getD 1 "").toLower)
        (record.signers.map (·.1.hex)) := by
      rw [List.forall₂_map_left_iff, List.forall₂_map_right_iff]
      exact hlists.imp fun t s hs => hs.hex_eq.symm
    rw [List.forall₂_eq_eq_eq] at htexts
    exact htexts.symm
  · have hdifferent := length_le_mul_card hm
    rw [List.length_map] at hdifferent
    omega
  · have hdifferent := length_le_mul_card hm
    rw [List.length_map] at hdifferent
    omega

lemma exists_lists {ts : List Tag} (h : ∀ t ∈ ts, ∃ s, Lists t s) :
    ∃ signers, List.Forall₂ Lists ts signers := by
  induction ts with
  | nil => exact ⟨[], .nil⟩
  | cons t ts ih =>
    obtain ⟨⟨s, hs⟩, hts⟩ := List.forall_mem_cons.mp h
    obtain ⟨signers, hsigners⟩ := ih hts
    exact ⟨s :: signers, .cons hs hsigners⟩

/-- **The threshold is compared with the number of tags.** Where no signer is named more than some
number of times, an accepted record names that part of the threshold in different signers, and it
is the same with the numbers of their shares. But of the events that open and list signers, those
with enough tags are accepted, whatever the tags repeat. -/
theorem counts_tags (event : Event) (kind : UInt16) :
    (∀ record, ofEvent event kind = .ok record → ∃ shares, record.publicShares = .ok shares ∧
      Names event record (shares.map (·.2.id))) ∧
    ∀ handler threshold, Opens event kind handler threshold →
      (∀ t ∈ Tag.all "p" event.draft.tags, ∃ s, Lists t s) →
      ((∃ record, ofEvent event kind = .ok record) ↔
        threshold.toNat ≤ (Tag.all "p" event.draft.tags).length) := by
  refine ⟨fun record hrecord => ?_, fun handler threshold hopens hlisted => ⟨?_, fun henough => ?_⟩⟩
  · obtain ⟨-, -, hlists, henough⟩ := ofEvent_eq_ok_iff.mp hrecord
    obtain ⟨shares, hshares, hdecoded⟩ := publicShares_of_lists hlists
    exact ⟨shares, hshares, names_of_lists hlists henough hdecoded.length_eq.symm⟩
  · rintro ⟨record, hrecord⟩
    -- What opens does so with one threshold.
    obtain ⟨-, hopens', -, henough⟩ := ofEvent_eq_ok_iff.mp hrecord
    obtain rfl := Except.ok.inj (hopens.threshold.symm.trans hopens'.threshold)
    exact henough
  · obtain ⟨signers, hsigners⟩ := exists_lists hlisted
    exact ⟨⟨signers, threshold, handler, event⟩,
      ofEvent_eq_ok_iff.mpr ⟨rfl, hopens, hsigners, henough⟩⟩

/-! ### One signer in two tags -/

lemma publicShares_replicate {n : Nat} {share : PublicShare}
    (hsigners : record.signers = List.replicate n s) (hshare : PublicShare.ofHex s.2 = .ok share) :
    record.publicShares = .ok (List.replicate n (s.1, share)) := by
  rw [publicShares, hsigners]
  clear hsigners
  induction n with
  | zero => rfl
  | succ n ih =>
    rw [List.replicate_succ, List.mapM_cons, ih]
    simp only [hshare]
    rfl

def firstShare : PublicShare := ⟨1, .generator, [.generator]⟩

def capitals (k : PublicKey) : List Char := (Hex.encodeChars k.bytes).map Char.toUpper

def doubled : Draft.Spelled where
  author := KeyPair.one.publicKey
  createdAt := 0
  kind := 16430
  tags := [[.letters "p".toList, .hex [KeyPair.one.publicKey.bytes], .hex [firstShare.encode]],
    [.letters "p".toList, .letters (capitals KeyPair.one.publicKey), .hex [firstShare.encode]],
    [.letters "threshold".toList, .letters "2".toList],
    [.letters "handlersecret".toList, .hex [Residue.toBytes KeyPair.one.secret]],
    [.letters "h".toList, .hex [KeyPair.one.publicKey.bytes]]]
  content := .letters []

lemma ofHex_firstShare : PublicShare.ofHex firstShare.toHex = .ok firstShare := by
  have hlegible : firstShare.Legible :=
    ⟨by decide, List.forall_mem_singleton.mpr (by decide), by decide⟩
  rw [PublicShare.ofHex_toHex, PublicShare.decode_encode hlegible]

lemma lists_capitals : Lists ["p", String.ofList (capitals KeyPair.one.publicKey), firstShare.toHex]
    (KeyPair.one.publicKey, firstShare.toHex) := by
  have hcapitals : Hex.decodeChars (capitals KeyPair.one.publicKey) =
    some KeyPair.one.publicKey.bytes := by decide +kernel
  refine ⟨_, _, firstShare, rfl, ?_, ofHex_firstShare⟩
  rw [Hex.decode, String.toList_ofList, hcapitals]

lemma exists_doubled : ∃ event : Event, event.verify = true ∧ event.draft = doubled.draft ∧
    ofEvent event 16430 =
      .ok ⟨List.replicate 2 (KeyPair.one.publicKey, firstShare.toHex), 2, .one, event⟩ := by
  have hsigns : Signature.signs .one (Residue.toBlock (1 : Scalar))
      doubled.message.hash = true := by decide +kernel
  obtain ⟨sig, hsign⟩ := Draft.Spelled.exists_sign rfl hsigns
  obtain ⟨hverify, -⟩ := Draft.verify_of_sign hsign
  have htags : doubled.draft.tags =
      ["p", KeyPair.one.publicKey.hex, firstShare.toHex] ::
        ["p", String.ofList (capitals KeyPair.one.publicKey), firstShare.toHex] ::
          Record.tags [] 2 .one := by
    simp only [doubled, Draft.Spelled.draft, List.map_cons, List.map_nil, Spelling.text_letters,
      Spelling.text_hex, List.flatten_singleton, String.ofList_toList]
    rfl
  have hall : Tag.all "p" doubled.draft.tags =
      [["p", KeyPair.one.publicKey.hex, firstShare.toHex],
        ["p", String.ofList (capitals KeyPair.one.publicKey), firstShare.toHex]] := by
    rw [htags]
    exact congrArg (_ :: _ :: ·) (all_tags [] 2 .one)
  have hopens : Opens ⟨doubled.draft, doubled.draft.id, sig⟩ 16430 .one 2 := by
    refine ⟨rfl, hverify, ?_, ?_⟩
    · rw [htags, (read_cons_signer _ _).1, (read_cons_signer _ _).1, readHandler_tags]
    · rw [htags, (read_cons_signer _ _).2, (read_cons_signer _ _).2, readThreshold_tags]
      rfl
  have hlists : List.Forall₂ Lists (Tag.all "p" doubled.draft.tags)
      (List.replicate 2 (KeyPair.one.publicKey, firstShare.toHex)) := by
    rw [hall]
    exact .cons ⟨_, _, firstShare, rfl, Hex.decode_encode _, ofHex_firstShare⟩
      (.cons lists_capitals .nil)
  refine ⟨_, hverify, rfl, ofEvent_eq_ok_iff.mpr ⟨rfl, hopens, hlists, ?_⟩⟩
  rw [hall]
  exact Nat.le_refl 2

/-- What a bound of two on the repeats leaves of the threshold is one signer. -/
theorem doubled_names_one : ∃ event record shares, event.draft = doubled.draft ∧
    ofEvent event 16430 = .ok record ∧ record.publicShares = .ok shares ∧
    record.threshold.toNat ≤ 2 * (record.signers.map (·.1)).toFinset.card := by
  obtain ⟨event, -, hdraft, hread⟩ := exists_doubled
  obtain ⟨hnamed, -⟩ := counts_tags event 16430
  obtain ⟨shares, hshares, hnames⟩ := hnamed _ hread
  exact ⟨event, _, shares, hdraft, hread, hshares,
    hnames.different_signers 2 fun k => List.count_le_length⟩

/-- The signer counts once for each case that its key is written in. -/
theorem one_signer_counted_twice : ∃ event record shares, event.verify = true ∧
    event.draft = doubled.draft ∧ ofEvent event 16430 = .ok record ∧ record.threshold = 2 ∧
    record.publicShares = .ok shares ∧ (record.signers.map (·.1)).toFinset.card = 1 ∧
    (shares.map (·.2.id)).toFinset.card = 1 := by
  obtain ⟨event, hverify, hdraft, hread⟩ := exists_doubled
  refine ⟨event, _, _, hverify, hdraft, hread, rfl, publicShares_replicate rfl ofHex_firstShare,
    ?_, ?_⟩
  · rw [List.map_replicate, List.toFinset_replicate_of_ne_zero (by decide), Finset.card_singleton]
  · rw [List.map_replicate, List.toFinset_replicate_of_ne_zero (by decide), Finset.card_singleton]

end KeyQuorum.Record
