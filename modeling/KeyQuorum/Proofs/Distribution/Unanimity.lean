import KeyQuorum.Proofs.Distribution.Completion
import KeyQuorum.Proofs.Message.Capacity

/-!
Runs that all signers see through.

The dealer's secret is one and the signers' secrets are the scalars from two on, one signer for
each share, and every block of randomness spells the scalar one. What the miner gives back is
left open. Such a run succeeds as soon as its events can be signed, which its signers do with
the one-time scalar one; and that can be worked out.
-/

namespace KeyQuorum

lemma List.eraseDups_of_nodup {α : Type} [BEq α] [LawfulBEq α] {l : List α} (h : l.Nodup) :
    l.eraseDups = l := by
  induction l with
  | nil => rfl
  | cons a l ih =>
    obtain ⟨ha, hl⟩ := List.nodup_cons.mp h
    have hkept : l.filter (fun b => !b == a) = l := List.filter_eq_self.mpr fun b hb => by
      have hne : b ≠ a := fun hba => ha (hba ▸ hb)
      simpa using hne
    rw [List.eraseDups_cons, hkept, ih hl]

namespace Unanimity

def ones : Entropy := .ofBlocks [] (.constant (Entropy.count 0))

def block : Block 32 := Residue.toBlock (Entropy.count 0).1

def dealer : KeyPair := .one

def signer (i : Nat) : KeyPair := .ofUnit (Entropy.count (i + 1))

def settings : Settings := { fallbackRelays := ["r"] }

def request (n : Nat) : Request where
  threshold := UInt32.ofNat n
  maxSigners := UInt32.ofNat n
  candidates := (List.range n).map fun i => (signer i).publicKey
  coordinator := "c"
  difficulty := 0
  inboxes := (List.range n).map fun i => ((signer i).publicKey, ["r"])
  ownInbox := []

def share (n i : Nat) : KeyShare :=
  Dealing.share (List.replicate n 1) (Point.ofScalar 1)
    (Polynomial.commitments (List.replicate n 1)) (UInt16.ofNat (i + 1))

/-- The bytes of a public share with a given point, in parts; the last of them is the same for all
shares of a dealing. -/
def parts (n i : Nat) (point : Bytes) : List Bytes :=
  [Bytes.littleEndian 2 (share n i).id.toNat ++ Bytes.littleEndian 4 n, point,
    (Polynomial.commitments (List.replicate n 1)).flatMap Point.compress]

/-- What a signer replies to an event, by the event's time and id. -/
def reply (i : Nat) (createdAt : Timestamp) (id : Block 32) : Draft.Spelled where
  author := (signer i).publicKey
  createdAt := createdAt
  kind := settings.kinds.acknowledgement
  tags := [[.letters "p".toList, .hex [dealer.publicKey.bytes]],
    [.letters "e".toList, .hex [id.bytes]]]
  content := .letters []

/-- The draft of a record, by the bytes of the signers' keys and of their shares' points. -/
def rollOf (n : Nat) (key point : Nat → Bytes) : Draft.Spelled where
  author := dealer.publicKey
  createdAt := 0
  kind := settings.kinds.registration
  tags := (List.range n).map (fun i =>
      [.letters "p".toList, .hex [key i], .hex (parts n i (point i))]) ++
    [[.letters "threshold".toList, .letters (Nat.toDigits 10 n)],
      [.letters "handlersecret".toList, .hex [Residue.toBytes dealer.secret]],
      [.letters "h".toList, .hex [dealer.publicKey.bytes]]]
  content := .letters []

def roll (n : Nat) : Draft.Spelled :=
  rollOf n (fun i => (signer i).publicKey.bytes) fun i => (share n i).publicShare.point.compress

/-- What the miner gives back, such that all events of the run can be signed. -/
structure Mined (n : Nat) where
  draft : Nat → Draft.Spelled
  author : ∀ i < n, (draft i).author = dealer.publicKey
  events : ∀ i < n, Signature.signs dealer block (draft i).message.hash = true ∧
    Signature.answers (signer i)
      (reply i (draft i).createdAt (draft i).message.hash).message.hash = true
  roll : Signature.signs dealer block (roll n).message.hash = true

variable {n i : Nat}

/-! ### Keys and shares -/

lemma secret_signer (hi : i < 65536) : (signer i).secret.val = i + 2 := by
  have hlt : i + 1 < groupOrder - 1 := Nat.lt_trans (by omega : i + 1 < 65537) (by decide)
  rw [signer, KeyPair.secret_ofUnit]
  change (i + 1) % (groupOrder - 1) + 1 = i + 2
  rw [Nat.mod_eq_of_lt hlt]

lemma signer_injective {j : Nat} (hi : i < 65536) (hj : j < 65536)
    (h : (signer i).publicKey = (signer j).publicKey) : i = j := by
  have hsi := secret_signer hi
  have hsj := secret_signer hj
  -- Only opposite secrets share a key, and these are too small to be opposite.
  rcases KeyPair.secret_of_publicKey_eq h with heq | hneg
  · rw [heq, hsj] at hsi
    omega
  · have hsum : ((signer i).secret + (signer j).secret).val = 0 := by
      rw [hneg, neg_add_cancel]
      rfl
    have hlt : i + 2 + (j + 2) < groupOrder := Nat.lt_trans (by omega : _ < 131076) (by decide)
    rw [Fin.val_add, hsi, hsj, Nat.mod_eq_of_lt hlt] at hsum
    omega

lemma nodup_candidates (hn : n < 65536) : (request n).candidates.Nodup := by
  refine List.Nodup.map_on (fun i hi j hj hij => ?_) List.nodup_range
  rw [List.mem_range] at hi hj
  exact signer_injective (by omega) (by omega) hij

lemma usable_ones (u i : Nat) :
    UnitScalar.ofBlock? (({ ones with used := u } : Entropy).block i) = some (Entropy.count 0) :=
  UnitScalar.ofBlock?_toBlock (Entropy.count 0)

lemma draw_ones (u : Nat) :
    ({ ones with used := u } : Entropy).draw = (block, { ones with used := u + 1 }) := rfl

lemma toNat_ofNat (hn : n < 65536) : (UInt32.ofNat n).toNat = n :=
  UInt32.toNat_ofNat_of_lt' (by rw [UInt32.size]; omega)

lemma secret_dealer : dealer.secret = 1 := by
  rw [dealer, KeyPair.one, KeyPair.secret_ofUnit]
  decide

lemma admissible_request (hpos : 0 < n) (hn : n < 65536) :
    Dealing.Admissible (request n).threshold (request n).maxSigners := by
  have hcount : (request n).threshold.toNat = n := toNat_ofNat hn
  refine ⟨fun h => ?_, UInt32.le_refl _, UInt32.le_iff_toNat_le.mpr ?_⟩
  · rw [h] at hcount
    exact absurd hcount (Nat.ne_of_lt hpos)
  · exact hcount.symm ▸ Nat.le_of_lt_succ hn

lemma random_ones (hpos : 0 < n) :
    Polynomial.random 1 n ones = (List.replicate n 1, { ones with used := n - 1 }) := by
  obtain ⟨m, rfl⟩ : ∃ m, n = m + 1 := ⟨n - 1, by omega⟩
  have hone : (Entropy.count 0).1 = 1 := by decide
  have husable : ∀ i (hi : i < (List.replicate m (Entropy.count 0)).length),
      UnitScalar.ofBlock? (ones.block (ones.used + i)) =
        some (List.replicate m (Entropy.count 0))[i] := by
    intro i hi
    rw [List.getElem_replicate]
    exact usable_ones 0 _
  have hdraws := Entropy.drawScalars_of_usable husable
  rw [List.length_replicate] at hdraws
  simp only [Polynomial.random, Nat.add_sub_cancel]
  rw [hdraws, List.map_replicate, hone, List.replicate_succ]
  exact congrArg (fun u => (_, { ones with used := u })) (Nat.zero_add m)

lemma deal_ones (hpos : 0 < n) (hn : n < 65536) :
    Dealing.deal dealer.secret (request n).threshold (request n).maxSigners ones =
      .ok (Dealing.ofPolynomial (List.replicate n 1) (Point.ofScalar 1) n,
        { ones with used := n - 1 }) := by
  have hthreshold : (request n).threshold.toNat = n := toNat_ofNat hn
  have hmax : (request n).maxSigners.toNat = n := toNat_ofNat hn
  rw [secret_dealer, Dealing.deal, if_neg (not_not_intro (admissible_request hpos hn)),
    if_neg (by decide), Dealing.canonical_one, hthreshold, hmax]
  simp only [random_ones hpos]

lemma exists_start (hpos : 0 < n) (hn : n < 65536) :
    ∃ r, Run.startDealing dealer settings (request n) 0 ones = .ok r ∧
      Run.start dealer settings (request n) 0 ((List.range n).map (share n))
        { ones with used := n - 1 } = .ok r := by
  obtain ⟨hthreshold, hle, -⟩ := admissible_request hpos hn
  have hmax : (request n).maxSigners.toNat = n := toNat_ofNat hn
  have hcandidates : (request n).candidates.eraseDups.length = n := by
    rw [List.eraseDups_of_nodup (nodup_candidates hn), request, List.length_map, List.length_range]
  have hgroup : PublicKey.ofPoint? (Point.ofScalar 1) = some dealer.publicKey :=
    secret_dealer ▸ dealer.publicKey_eq
  have hshares : ((List.range n).map (share n)).length = (request n).maxSigners.toNat := by
    rw [List.length_map, List.length_range, hmax]
  have hr : Run.start dealer settings (request n) 0 ((List.range n).map (share n))
      { ones with used := n - 1 } = .ok _ := Run.start_eq_ok_iff.mpr
    ⟨hthreshold, hle, hshares, Nat.le_of_eq (hmax.trans hcandidates.symm), rfl⟩
  refine ⟨_, ?_, hr⟩
  -- the shares dealt are known, and so dealing them is starting with them
  rw [Run.startDealing, deal_ones hpos hn]
  exact (if_pos hgroup).trans hr

lemma zip_shares (hn : n < 65536) :
    (request n).candidates.eraseDups.zip ((List.range n).map (share n)) =
      (List.range n).map fun i => ((signer i).publicKey, share n i) := by
  rw [List.eraseDups_of_nodup (nodup_candidates hn), request, List.zip_map']

/-! ### Visits -/

lemma throughout_of_forall {good : Entropy → PublicKey → KeyShare → Run.Visit → Prop}
    {p : Nat → PublicKey × KeyShare} {v : Nat → Run.Visit} {l : List Nat}
    (h : ∀ i ∈ l, ∀ u, good { ones with used := u } (p i).1 (p i).2 (v i)) (u : Nat) :
    Run.Throughout good { ones with used := u } (l.map p) (l.map v) := by
  induction l generalizing u with
  | nil => trivial
  | cons i l ih =>
    exact ⟨h i List.mem_cons_self u, ih (fun j hj => h j (List.mem_cons_of_mem i hj)) (u + 2)⟩

lemma inbox_signer (hi : i < n) :
    (request n).inboxes.lookup (signer i).publicKey = some ["r"] := by
  have hmem : ((signer i).publicKey, ["r"]) ∈ (request n).inboxes :=
    List.mem_map.mpr ⟨i, List.mem_range.mpr hi, rfl⟩
  cases h : (request n).inboxes.lookup (signer i).publicKey with
  | none =>
    have hne := List.lookup_eq_none_iff.mp h _ hmem
    simp at hne
  | some relays =>
    obtain ⟨before, after, hsplit, -⟩ := List.lookup_eq_some_iff.mp h
    have hrelays : ((signer i).publicKey, relays) ∈ (request n).inboxes := by
      rw [hsplit]
      exact List.mem_append_right _ List.mem_cons_self
    obtain ⟨j, -, hj⟩ := List.mem_map.mp hrelays
    rw [← (Prod.mk.inj hj).2]

lemma length_toHex (n i : Nat) :
    (share n i).toHex.toUTF8.data.toList.length = 208 + 66 * n := by
  rw [KeyShare.length_plaintext]
  simp [share, Dealing.share, Polynomial.commitments]

/-- The visit of an attempt whose signer replies under the one-time scalar one. -/
def visit (drafts : Nat → Draft.Spelled) (i : Nat) : Run.Visit where
  mined := (drafts i).draft
  relay := "r"
  reply :=
    let draft := (reply i (drafts i).createdAt (drafts i).draft.id).draft
    ⟨draft, draft.id, Signature.plain (signer i) draft.id⟩

/-- A reply to an event is what its sender listens for. -/
lemma accepts_reply (i : Nat) {e : Event} {d : Event}
    (hd : d.draft = (reply i e.draft.createdAt e.id).draft) :
    (Delivery.ackFilter settings.kinds.acknowledgement dealer.publicKey (signer i).publicKey
      e).accepts d = true := by
  have htime : (if e.draft.createdAt < clockSkew then 0 else e.draft.createdAt - clockSkew) ≤
      e.draft.createdAt := by
    split
    · exact UInt64.zero_le
    · next h => exact UInt64.sub_le (UInt64.not_lt.mp h)
  simp [Filter.accepts, Delivery.ackFilter, hd, reply, Draft.Spelled.draft, Filter.tagMatches,
    Filter.sinceMatches, Tag.all, Tag.named, htime, PublicKey.hex, Event.idHex]

/-- An attempt's visit ends well. -/
lemma welcome_visit (m : Mined n) (hn : n < 990) (hi : i < n) (u : Nat) :
    Run.Welcome ⟨dealer, settings, request n, 0⟩ { ones with used := u } (signer i).publicKey
      (share n i) (visit m.draft i) := by
  obtain ⟨sig, hsign⟩ := Draft.Spelled.exists_sign (m.author i hi) (m.events i hi).1
  have hlen := length_toHex n i
  refine ⟨?_, Payload.exists_encrypt_iff.mpr (by rw [hlen]; omega), ⟨_, hsign, ?_⟩, ?_⟩
  · rw [inbox_signer hi]
    rfl
  · exact accepts_reply i rfl
  · let d := reply i (m.draft i).createdAt (m.draft i).draft.id
    have hanswers : Signature.answers (signer i) d.draft.id = true := by
      have hreplies := (m.events i hi).2
      rwa [← (m.draft i).id_draft, ← Draft.Spelled.id_draft] at hreplies
    have hverify : Signature.verify d.draft.author d.draft.id
        (Signature.plain (signer i) d.draft.id) = true :=
      Signature.verify_plain_of_answers hanswers
    have hid : decide (d.draft.id = d.draft.id) = true := decide_eq_true rfl
    exact Bool.and_eq_true_iff.mpr ⟨hid, hverify⟩

/-! ### The record -/

lemma generate_ones (u : Nat) :
    KeyPair.generate { ones with used := u } = (some dealer, { ones with used := u + 1 }) := by
  have hscalar : ({ ones with used := u } : Entropy).drawScalar =
      (Entropy.count 0, { ones with used := u + 1 }) := by
    rw [Entropy.drawScalar, Entropy.find_of_usable (usable_ones u u)]
  rw [KeyPair.generate_eq, hscalar]
  rfl

lemma flatten_parts (n i : Nat) : (parts n i (share n i).publicShare.point.compress).flatten =
    (share n i).publicShare.encode := by
  have hcount : (share n i).publicShare.commitments.length = n := by
    simp [share, Dealing.share, Polynomial.commitments]
  simp only [parts, PublicShare.encode, hcount, List.flatten_cons, List.flatten_nil,
    List.append_nil, List.append_assoc]
  rfl

lemma exists_record (hn : n < 65536) (m : Mined n) :
    ∃ event, Record.build dealer 0 settings.kinds.registration
      ((List.range n).map fun i => Run.receipt ((signer i).publicKey, share n i))
      (request n).threshold dealer block =
        .ok ⟨(List.range n).map fun i => Run.receipt ((signer i).publicKey, share n i),
          (request n).threshold, dealer, event⟩ := by
  have hdraft : (roll n).draft = ⟨dealer.publicKey, 0, settings.kinds.registration,
      Record.tags ((List.range n).map fun i => Run.receipt ((signer i).publicKey, share n i))
        (request n).threshold dealer, ""⟩ := by
    have hthreshold : (request n).threshold.toNat = n := toNat_ofNat hn
    rw [Record.tags, hthreshold, List.map_map]
    simp only [roll, rollOf, Draft.Spelled.draft, List.map_append, List.map_map, Function.comp_def,
      List.map_cons, List.map_nil, Spelling.text_letters, Spelling.text_hex, flatten_parts,
      List.flatten_singleton, String.ofList_toList]
    rfl
  obtain ⟨sig, hsign⟩ := Draft.Spelled.exists_sign rfl m.roll
  rw [Record.build, ← hdraft, hsign]
  exact ⟨_, rfl⟩

lemma length_candidates (hn : n < 65536) :
    (request n).candidates.eraseDups.length = ((List.range n).map (share n)).length := by
  rw [List.eraseDups_of_nodup (nodup_candidates hn), request, List.length_map, List.length_map]

lemma welcome_visits (m : Mined n) (hn : n < 990) :
    Run.Throughout (Run.Welcome ⟨dealer, settings, request n, 0⟩)
      { ones with used := n - 1 }
      ((request n).candidates.eraseDups.zip ((List.range n).map (share n)))
      ((List.range n).map (visit m.draft)) := by
  rw [zip_shares (Nat.lt_trans hn (by decide))]
  exact throughout_of_forall
    (fun i hi u => welcome_visit m hn (List.mem_range.mp hi) u) (n - 1)

lemma exists_roll (m : Mined n) (hn : n < 65536) :
    ∃ record, Record.build dealer 0 settings.kinds.registration
      (((request n).candidates.eraseDups.zip ((List.range n).map (share n))).map Run.receipt)
      (request n).threshold dealer block = .ok record := by
  obtain ⟨event, hbuild⟩ := exists_record hn m
  rw [zip_shares hn, List.map_map]
  exact ⟨_, hbuild⟩

/-- **A run of any number of signers below 990 succeeds** when its events can be signed. -/
theorem succeeds (hpos : 0 < n) (hn : n < 990) (m : Mined n) :
    ∃ r xs record, Run.startDealing dealer settings (request n) 0 ones = .ok r ∧
      (r.steps xs).1.result? = some (.ok record) ∧
      ((∀ i < n, ∀ u, Run.Faithful ⟨dealer, settings, request n, 0⟩ { ones with used := u }
        (signer i).publicKey (share n i) (visit m.draft i)) → r.HonestMiner xs) := by
  have hn' : n < 65536 := Nat.lt_trans hn (by decide)
  obtain ⟨r, hdealing, hstart⟩ := exists_start hpos hn'
  obtain ⟨record, hbuild⟩ := exists_roll m hn'
  have hwelcome := welcome_visits m hn
  have hresult := Run.result_of_visits hstart (length_candidates hn') hwelcome (generate_ones _)
    hbuild "r"
  refine ⟨r, _, record, hdealing, hresult, fun hfaithful => ?_⟩
  refine Run.honestMiner_of_visits hstart (length_candidates hn') hwelcome ?_ "r"
  rw [zip_shares hn']
  exact throughout_of_forall (fun i hi u => hfaithful i (List.mem_range.mp hi) u) (n - 1)

/-! ### An honest miner -/

/-- The draft that carries a share, as the miner is given it. -/
def shard (n i : Nat) : Draft.Spelled where
  author := dealer.publicKey
  createdAt := 0
  kind := settings.kinds.shard
  tags := [[.letters "p".toList, .hex [(signer i).publicKey.bytes]],
    [.letters "coordinator".toList, .letters "c".toList],
    [.letters "reply".toList, .letters "r".toList]]
  content :=
    let common := (dealer.secret * (signer i).publicKey.point).x?.getD 0
    let padded := (Padding.pad? (Hex.ascii (share n i).encode)).getD []
    .letters (Base64.encodeChars (Payload.sealedBytes (Sha256.Packed.code
      "nip44-v2".toUTF8.data.toList (Residue.toBlock common).bytes) block padded))

lemma text_content_shard (hn : n < 990) (i u : Nat) {payload : String}
    (h : Payload.encrypt dealer (signer i).publicKey ({ ones with used := u } : Entropy).draw.1
      (share n i).toHex.toUTF8.data.toList = .ok payload) :
    (shard n i).content.text = payload := by
  obtain ⟨x, hx⟩ := dealer.exists_shared (signer i).publicKey
  have hlen := length_toHex n i
  rw [KeyShare.toHex, Hex.toUTF8_encode] at h hlen
  have hpadded : ∃ padded, Padding.pad? (Hex.ascii (share n i).encode) = some padded :=
    ⟨_, if_pos (by rw [hlen]; omega)⟩
  obtain ⟨padded, hpadded⟩ := hpadded
  rw [draw_ones, Payload.encrypt_of_shared hx hpadded] at h
  rw [shard, hx, hpadded]
  exact Except.ok.inj h

lemma faithful_shard (hn : n < 990) (i u : Nat) :
    Run.Faithful ⟨dealer, settings, request n, 0⟩ { ones with used := u } (signer i).publicKey
      (share n i) (visit (shard n) i) := by
  intro payload hpayload
  have hdraft : (shard n i).draft = ⟨dealer.publicKey, 0, settings.kinds.shard,
      [["p", (signer i).publicKey.hex], ["coordinator", "c"], ["reply", "r"]], payload⟩ := by
    rw [← text_content_shard hn i u hpayload]
    simp only [Draft.Spelled.draft, shard, List.map_cons, List.map_nil, Spelling.text_letters,
      Spelling.text_hex, List.flatten_singleton, String.ofList_toList, PublicKey.hex]
  have hmined : (visit (shard n) i).mined = (shard n i).draft := rfl
  rw [hmined, hdraft]
  exact ⟨rfl, rfl, rfl, rfl⟩

/-- With the shares' own drafts the run succeeds and its miner is honest. -/
theorem succeeds_honestly (hpos : 0 < n) (hn : n < 990) (m : Mined n) (h : m.draft = shard n) :
    ∃ r xs record, Run.startDealing dealer settings (request n) 0 ones = .ok r ∧
      r.HonestMiner xs ∧ (r.steps xs).1.result? = some (.ok record) := by
  obtain ⟨r, xs, record, hstart, hresult, hhonest⟩ := succeeds hpos hn m
  refine ⟨r, xs, record, hstart, hhonest fun i _ u => ?_, hresult⟩
  rw [h]
  exact faithful_shard hn i u

/-- The share of a single signer, as it is. -/
def single : Mined 1 where
  draft := shard 1
  author _ _ := rfl
  events i hi := by
    obtain rfl : i = 0 := Nat.lt_one_iff.mp hi
    decide +kernel
  roll := by decide +kernel

/-- The only signer of a run is sent its share, and confirms it. -/
lemma single_mines : ∃ r draft shard,
    Run.start dealer settings (request 1) 0 ((List.range 1).map (share 1)) ones = .ok r ∧
    (r.steps [.advance 0]).1.attempts[0]? =
      some ⟨(signer 0).publicKey, .mining (share 1 0) draft⟩ ∧
    (visit single.draft 0).mined.sign dealer (r.steps [.advance 0]).1.entropy.draw.1 = .ok shard ∧
    Delivery.Confirms settings.kinds.acknowledgement dealer.publicKey (signer 0).publicKey shard
      (visit single.draft 0).reply := by
  obtain ⟨r, -, hstart⟩ := exists_start (n := 1) (by decide) (by decide)
  have hcandidates := List.eraseDups_of_nodup (nodup_candidates (n := 1) (by decide))
  obtain ⟨hdue, -, hentropy, hterms⟩ := Run.due_start hstart (by rw [hcandidates]; rfl)
  have hwelcome := welcome_visit single (i := 0) (by decide) (by decide) 0
  obtain ⟨hreachable, ⟨payload, hpayload⟩, ⟨shard, hsign, haccepts⟩, hverifies⟩ := hwelcome
  obtain ⟨hdealer, -, hrequest, -⟩ := Run.Terms.mk.inj hterms
  rw [zip_shares (by decide)] at hdue
  have hinbox : (r.inbox (signer 0).publicKey).isEmpty = false := by
    rw [Run.inbox, hrequest]
    exact hreachable
  have hencrypt : Payload.encrypt r.dealer (signer 0).publicKey r.entropy.draw.1
      (share 1 0).toHex.toUTF8.data.toList = .ok payload := by
    rw [hdealer, hentropy]
    exact hpayload
  have hadvance := Run.visit_advance hdue.stage hdue.attempts (hdue.permits nofun) hdue.pool
    hdue.aborted hdue.turn hinbox hencrypt
  have hattempts := congrArg (fun r : Run => r.attempts[0]?) hadvance
  have hleft : (r.steps [.advance 0]).1.entropy = r.entropy.draw.2 := congrArg Run.entropy hadvance
  refine ⟨r, r.shardDraft (signer 0).publicKey payload, shard, hstart, hattempts, ?_, ?_⟩
  · rw [hleft, hentropy]
    exact hsign
  · refine (Delivery.genuine_iff (d := Delivery.start shard _ []) rfl).mp ?_
    exact Bool.and_eq_true_iff.mpr ⟨haccepts, hverifies⟩

/-! ### Twenty-one signers

The miner gives back drafts that say nothing, so the signers reply to one event. The record is
long: its text has the points of all shares and, with each, all commitments. What it is made of
and the states of its hash on the way are given here and checked part by part.
-/

open Sha256.Packed

/-- The signers' keys. -/
def keyTable : List Nat :=
  [ 0xc6047f9441ed7d6d3045406e95c07cd85c778e4b8cef3ca7abac09b95c709ee5,
    0xf9308a019258c31049344f85f89d5229b531c845836f99b08601f113bce036f9,
    0xe493dbf1c10d80f3581e4904930b1404cc6c13900ee0758474fa94abe8c4cd13,
    0x2f8bde4d1a07209355b4a7250a5c5128e88b84bddc619ab7cba8d569b240efe4,
    0xfff97bd5755eeea420453a14355235d382f6472f8568a18b2f057a1460297556,
    0x5cbdf0646e5db4eaa398f365f2ea7a0e3d419b7e0330e39ce92bddedcac4f9bc,
    0x2f01e5e15cca351daff3843fb70f3c2f0a1bdd05e5af888a67784ef3e10a2a01,
    0xacd484e2f0c7f65309ad178a9f559abde09796974c57e714c35f110dfc27ccbe,
    0xa0434d9e47f3c86235477c7b1ae6ae5d3442d49b1943c2b752a68e2a47e247c7,
    0x774ae7f858a9411e5ef4246b70c65aac5649980be5c17891bbec17895da008cb,
    0xd01115d548e7561b15c38f004d734633687cf4419620095bc5b0f47070afe85a,
    0xf28773c2d975288bc7d1d205c3748651b075fbc6610e58cddeeddf8f19405aa8,
    0x499fdf9e895e719cfd64e67f07d38e3226aa7b63678949e6e49b241a60e823e4,
    0xd7924d4f7d43ea965a465ae3095ff41131e5946f3c85f79e44adbcf8e27e080e,
    0xe60fce93b59e9ec53011aabc21c23e97b2a31369b87a5ae9c44ee89e2a6dec0a,
    0xdefdea4cdb677750a420fee807eacf21eb9898ae79b9768766e4faa04a2d4a34,
    0x5601570cb47f238d2b0286db4a990fa0f3ba28d1a319f5e7cf55c2a2444da7cc,
    0x2b4ea0a797a443d293ef5cff444f4979f06acfebd7e86d277475656138385b6c,
    0x4ce119c96e2fa357200b559b2f7dd5a5f02d5290aff74b03f3e471b273211c97,
    0x352bbf4a4cdd12564f93fa332ce333301d9ad40271f8107181340aef25be59d5,
    0x421f5fc9a21065445c96fdb91c0c1e2f2431741c72713b4b99ddcb316f31e9fc]

/-- The points of the shares, by their tags and first coordinates. -/
def pointTable : List (UInt8 × Nat) :=
  [ (2, 0x352bbf4a4cdd12564f93fa332ce333301d9ad40271f8107181340aef25be59d5),
    (2, 0xf0c6e83245bae397eb9498c3a4ab388e7331ade82e6761e4d5d4ba4e395c01dd),
    (2, 0x3bc1327869a67da073523b61fb51f622fde07664b5b07dc8d56a23910e21f55e),
    (2, 0x84c4c5551a7539a11da1c281645b4e5d09fe9126e33ef9421ee5be12b4fdb2ef),
    (2, 0x68cd8c262d59fcddb65b63e4e389e77bd09cea80e7611e0f1c94c230e0a5cdd1),
    (3, 0x8c63415026fe51989c165c31eae576bbc72d334e6bc4de76fb2307ab5e91b12c),
    (3, 0x337e3ce5f27107189b756b1aac1309c51051b24a770ff59ef487e3da5dd75a00),
    (3, 0x82512f5851e0e0e214f8136916de845488782fab9784d57c31e84b1f9db07b9c),
    (3, 0x033fe40c25ca8a388055d0d7e2132d7fd1ce1ae6328557893abb5ded2a9ba45f),
    (2, 0x632ebb3f3b4b91719fc8102133637d1a92ed5e507c8c01523cf01711b58243e9),
    (2, 0xea57c9b93f8b1790bc19b3ae7aafede8d1bcee0707d4e3e839f1cc481f9f2b4f),
    (3, 0xaf5398d51da2e6239c1e9bba349648e81550f0d3db7c40df926164107e2407c1),
    (2, 0x01025de291b371a9377481c1ea25b5ccf1644da7a5a191c963d4538f35ea04b8),
    (2, 0xf9a3646ddb980a95a011f8a79f23b8a33f749b6b3adfcf24575d0fbef76f85d4),
    (3, 0x5062758b594c4f34ebfd8e761caa049dcc0473464171fa42ff5316cba65cb491),
    (2, 0x8b1452ccc05595d1ec5aaf3a5d84975814876e5677f5a4d9ae2690f3e1176c06),
    (3, 0xb2b0cb1c965e0e01c0c1de76592baddfddc9457690d45ce4375f4cb033fde740),
    (3, 0x46bb099d866e02aeff8675072717fd63d045038b8e26468a941021c1d8af039c),
    (3, 0x9f5af4b24b2f37fad2f30f4ed0f160c1ced2992fa091879fdcae3179dd28eb72),
    (3, 0x598de25ae50fc4a65413639687fc357dd712015b84d94b6e67733bee187efd23),
    (3, 0xc09ad3c99dea6feb8fc2dc7365cdfa6a12909054c9386290cfe905c308e08101)]

def tableKey (i : Nat) : Bytes := (Block.ofNat 32 (keyTable.getD i 0)).bytes

def tablePoint (i : Nat) : Bytes :=
  let (tag, x) := pointTable.getD i (0, 0)
  tag :: (Block.ofNat 32 x).bytes

lemma bytes_signer (i : Nat) (hi : i < 21) : (signer i).publicKey.bytes = tableKey i := by
  -- In two stretches, for the depth of a single evaluation.
  have hlow : ∀ i < 10, (signer i).publicKey.x.val = keyTable.getD i 0 := by decide +kernel
  have hhigh : ∀ i < 11, (signer (10 + i)).publicKey.x.val = keyTable.getD (10 + i) 0 := by
    decide +kernel
  have hkey : (signer i).publicKey.x.val = keyTable.getD i 0 := by
    rcases Nat.lt_or_ge i 10 with h | h
    · exact hlow i h
    · obtain ⟨j, rfl⟩ := Nat.exists_eq_add_of_le h
      exact hhigh j (by omega)
  exact congrArg (fun x => (Block.ofNat 32 x).bytes) hkey

lemma compress_share (i : Nat) (hi : i < 21) :
    (share 21 i).publicShare.point.compress = tablePoint i := by
  have hlow : ∀ i < 10, (share 21 i).publicShare.point.compress = tablePoint i := by
    decide +kernel
  have hhigh : ∀ i < 11,
      (share 21 (10 + i)).publicShare.point.compress = tablePoint (10 + i) := by
    decide +kernel
  rcases Nat.lt_or_ge i 10 with h | h
  · exact hlow i h
  · obtain ⟨j, rfl⟩ := Nat.exists_eq_add_of_le h
    exact hhigh j (by omega)

def tableRoll : Draft.Spelled := rollOf 21 tableKey tablePoint

lemma roll_eq_tableRoll : roll 21 = tableRoll := by
  have htags : (List.range 21).map (fun i => [Spelling.letters "p".toList,
      .hex [(signer i).publicKey.bytes],
      .hex (parts 21 i (share 21 i).publicShare.point.compress)]) =
        (List.range 21).map fun i => [Spelling.letters "p".toList, .hex [tableKey i],
          .hex (parts 21 i (tablePoint i))] := by
    refine List.map_congr_left fun i hi => ?_
    rw [bytes_signer i (List.mem_range.mp hi), compress_share i (List.mem_range.mp hi)]
  rw [roll, tableRoll, rollOf, rollOf, htags]

/-- The states of the record's hash after each fifth of its blocks. -/
def stateTable : List Nat :=
  [ 0xc97927d6b14ff453d4173056fd0e009735ad462316fe23082fc48aa723255b5c,
    0xf571dcca460691f9c9944260177d4632fd05849a31eca5f680d4a155caa4b88a,
    0x65f15829cc0977781486b6051da2cd77600107818885f11784a9062dd835b4ac,
    0x14fc6a7ddb90ece5b23f668b93beb31a83846d2ccb12ca82eddd0bcfe751a992,
    0xc3bde732ab6d52533e80c3555e7d9bcfd866c194f15b2b4a0cf680b9b1f39f4c]

lemma blocks_tableRoll : tableRoll.message.blocks = 510 := by decide +kernel

lemma stateAfter_next {n s t : Nat} (hn : n + 102 ≤ 510) (hs : tableRoll.message.stateAfter n = s)
    (ht : absorb 102 s (Message.words tableRoll.message.padded (16 * (510 - n))) = t) :
    tableRoll.message.stateAfter (n + 102) = t := by
  rw [Message.stateAfter_add (blocks_tableRoll.symm ▸ hn), hs, blocks_tableRoll]
  exact ht

lemma stateAfter_tableRoll : tableRoll.message.stateAfter 510 = stateTable.getD 4 0 := by
  -- Each fifth of the blocks is hashed on its own, from the state that the table names.
  have h0 : tableRoll.message.stateAfter 0 = packState Sha256.initial := rfl
  have h1 : tableRoll.message.stateAfter 102 = stateTable.getD 0 0 :=
    stateAfter_next (by decide) h0 (by decide +kernel)
  have h2 : tableRoll.message.stateAfter 204 = stateTable.getD 1 0 :=
    stateAfter_next (by decide) h1 (by decide +kernel)
  have h3 : tableRoll.message.stateAfter 306 = stateTable.getD 2 0 :=
    stateAfter_next (by decide) h2 (by decide +kernel)
  have h4 : tableRoll.message.stateAfter 408 = stateTable.getD 3 0 :=
    stateAfter_next (by decide) h3 (by decide +kernel)
  exact stateAfter_next (by decide) h4 (by decide +kernel)

lemma signs_roll : Signature.signs dealer block (roll 21).message.hash = true := by
  have hsigns : Signature.signs dealer block (Message.closing (stateTable.getD 4 0)) = true := by
    decide +kernel
  rw [roll_eq_tableRoll, Message.hash_eq_closing, blocks_tableRoll, stateAfter_tableRoll]
  exact hsigns

/-- A draft that says nothing. -/
def silence : Draft.Spelled := ⟨dealer.publicKey, 0, 0, [], .letters []⟩

lemma signs_silence : Signature.signs dealer block silence.message.hash = true := by
  decide +kernel

/-- The signers from one on that reply to a draft that says nothing. -/
def Answer (first count : Nat) : Prop :=
  ∀ i < count, Signature.answers (signer (first + i))
    (reply (first + i) silence.createdAt silence.message.hash).message.hash = true

instance (first count : Nat) : Decidable (Answer first count) := by
  unfold Answer
  infer_instance

lemma answers_silence (i : Nat) (hi : i < 21) : Signature.answers (signer i)
    (reply i silence.createdAt silence.message.hash).message.hash = true := by
  have h0 : Answer 0 5 := by decide +kernel
  have h5 : Answer 5 5 := by decide +kernel
  have h10 : Answer 10 5 := by decide +kernel
  have h15 : Answer 15 6 := by decide +kernel
  rcases Nat.lt_or_ge i 5 with h | h
  · exact Nat.zero_add i ▸ h0 i h
  rcases Nat.lt_or_ge i 10 with h' | h'
  · exact Nat.add_sub_cancel' h ▸ h5 (i - 5) (by omega)
  rcases Nat.lt_or_ge i 15 with h'' | h''
  · exact Nat.add_sub_cancel' h' ▸ h10 (i - 10) (by omega)
  · exact Nat.add_sub_cancel' h'' ▸ h15 (i - 15) (by omega)

/-- Twenty-one signers that are all sent nothing. -/
def blank : Mined 21 where
  draft _ := silence
  author _ _ := rfl
  events i hi := ⟨signs_silence, answers_silence i hi⟩
  roll := signs_roll

end Unanimity

end KeyQuorum
