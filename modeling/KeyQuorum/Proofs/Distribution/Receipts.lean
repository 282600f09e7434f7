import Mathlib.Data.List.Induction
import Mathlib.Tactic.Lemma
import KeyQuorum.Proofs.Distribution.Ledger

/-!
What stands behind an entry of the ledger.

While an attempt has a share, its draft, or the event made of it, carries the encryption of just
this share to just this signer, as long as the miner leaves all but the time and the nonce alone.
The delivery listens for acknowledgements of that event, and counts one as received only when it
has heard one: signed by the signer, and naming the event. So every entry of the ledger has such
an acknowledgement in the history of the run.
-/

namespace KeyQuorum

/-! ### Honest mining -/

/-- The draft is another one but for its time and its nonce. -/
structure Draft.MinedFrom (mined d : Draft) : Prop where
  author : mined.author = d.author
  kind : mined.kind = d.kind
  tags : (Work.unworked mined).tags = (Work.unworked d).tags
  content : mined.content = d.content

namespace Work

lemma minedFrom_stamp (d : Draft) (aim nonce : Nat) : (stamp (unworked d) aim nonce).MinedFrom d :=
  ⟨rfl, rfl, by simp [unworked, stamp, List.filter_append, Tag.named], rfl⟩

lemma exists_stamp_of_search {d : Draft} {aim count nonce best : Nat} {reports : List Nat}
    {m : Mined} (h : search d aim count nonce best reports = some m) :
    ∃ n, m.draft = stamp d aim n := by
  -- Whatever the records on the way, the draft is the stamp of the nonce that the search ends at.
  induction count generalizing nonce best reports with
  | zero => cases h
  | succ count ih =>
    simp only [search] at h
    split at h
    · exact ⟨nonce, congrArg Mined.draft (Option.some.inj h).symm⟩
    · exact ih h

theorem minedFrom_of_mine {d : Draft} {aim : Nat} {m : Mined} (h : mine d aim = .ok m) :
    m.draft.MinedFrom d := by
  unfold mine at h
  split at h
  · cases h
  · split at h
    · next m' hsearch =>
      obtain rfl := Except.ok.inj h
      obtain ⟨n, hn⟩ := exists_stamp_of_search hsearch
      exact hn ▸ minedFrom_stamp d aim n
    · cases h

end Work

namespace Delivery

variable {d : Delivery} {ack : Event}

@[simp] lemma event_hear (d : Delivery) (x : Input) : (d.hear x).event = d.event := by
  cases x <;> simp only [hear] <;> try split <;> rfl

@[simp] lemma filter_hear (d : Delivery) (x : Input) : (d.hear x).filter = d.filter := by
  cases x <;> simp only [hear] <;> try split <;> rfl

lemma received_hear {x : Input} (h : (d.hear x).acknowledgement = .received) :
    d.acknowledgement = .received ∨
      ∃ ack, x = .reply ack ∧ d.acknowledgement = .awaited ∧ d.genuine ack = true := by
  cases x with
  | reply ack =>
    -- It had come before, or it is this reply, which was awaited and is genuine.
    simp only [hear] at h
    split at h
    · next hgenuine => exact .inr ⟨ack, rfl, hgenuine⟩
    · exact .inl h
  | repliesEnd =>
    simp only [hear] at h
    split at h
    · cases h
    · exact .inl h
  | deadline => cases h
  | _ => exact .inl h

lemma received_of_verdict (h : d.verdict? = some (.ok ())) : d.acknowledgement = .received := by
  unfold verdict? at h
  split at h
  · cases h
  · cases h
  · assumption
  · cases h

/-- The event acknowledges a shard: its signer has signed it, and it names the shard. -/
structure Acknowledges (kind : UInt16) (signer : PublicKey) (shard ack : Event) : Prop where
  signed : ack.verify = true
  author : ack.draft.author = signer
  kind : ack.draft.kind = kind
  names : ∃ t ∈ ack.draft.tags, Tag.named "e" t = true ∧ t[1]? = some shard.idHex

/-- The event acknowledges a shard to its dealer, and is not from long before it. -/
structure Confirms (kind : UInt16) (dealer signer : PublicKey) (shard ack : Event) : Prop
    extends Acknowledges kind signer shard ack where
  addressed : ∃ t ∈ ack.draft.tags, Tag.named "p" t = true ∧ t[1]? = some dealer.hex
  recent : shard.draft.createdAt.toNat - 300 ≤ ack.draft.createdAt.toNat

lemma tagMatches_singleton {name value : String} {tags : List Tag} :
    Filter.tagMatches name [value] tags = true ↔
      ∃ t ∈ tags, Tag.named name t = true ∧ t[1]? = some value := by
  simp only [Filter.tagMatches, Tag.all, List.isEmpty_cons, Bool.false_or, List.any_eq_true,
    List.mem_filterMap, List.mem_filter, List.contains_iff_mem, List.mem_singleton]
  constructor
  · rintro ⟨v, ⟨t, ⟨ht, hnamed⟩, hv⟩, rfl⟩
    exact ⟨t, ht, hnamed, hv⟩
  · rintro ⟨t, ht, hnamed, hv⟩
    exact ⟨value, ⟨t, ⟨ht, hnamed⟩, hv⟩, rfl⟩

lemma since_le_iff (shard t : Timestamp) :
    (if shard < clockSkew then 0 else shard - clockSkew) ≤ t ↔ shard.toNat - 300 ≤ t.toNat := by
  have hskew : clockSkew.toNat = 300 := rfl
  rw [UInt64.le_iff_toNat_le]
  split
  · -- a shard younger than the skew: any time will do
    next h =>
    rw [UInt64.lt_iff_toNat_lt, hskew] at h
    rw [show (0 : UInt64).toNat = 0 from rfl]
    omega
  · next h =>
    rw [UInt64.toNat_sub_of_le _ _ (UInt64.not_lt.mp h), hskew]

lemma genuine_iff {kind : UInt16} {dealer signer : PublicKey} {shard : Event}
    (hfilter : d.filter = ackFilter kind dealer signer shard) :
    d.genuine ack = true ↔ Confirms kind dealer signer shard ack := by
  have hone {α : Type} [BEq α] [LawfulBEq α] (a b : α) :
      ([a].isEmpty || [a].contains b) = true ↔ b = a := by simp
  rw [genuine, hfilter]
  simp only [Filter.accepts, ackFilter, Bool.and_eq_true, hone, tagMatches_singleton,
    Filter.sinceMatches, decide_eq_true_eq, since_le_iff]
  constructor
  · rintro ⟨⟨⟨⟨⟨hkind, hauthor⟩, hp⟩, he⟩, hsince⟩, hsigned⟩
    exact ⟨⟨hsigned, hauthor, hkind, he⟩, hp, hsince⟩
  · rintro ⟨⟨hsigned, hauthor, hkind, he⟩, hp, hsince⟩
    exact ⟨⟨⟨⟨⟨hkind, hauthor⟩, hp⟩, he⟩, hsince⟩, hsigned⟩

end Delivery

namespace Run

/-- If the stimulus brings a mined draft, it is one that an honest miner makes of the draft the
attempt had it mine. -/
def Honest (r : Run) : Stimulus → Prop
  | .mined i (.ok mined) =>
    ∀ k s draft, r.attempts[i]? = some ⟨k, .mining s draft⟩ → mined.MinedFrom draft
  | _ => True

def HonestMiner : Run → List Stimulus → Prop
  | _, [] => True
  | r, x :: xs => r.Honest x ∧ (r.step x).1.HonestMiner xs

/-- The event carries a share to a signer. -/
structure Carries (r : Run) (k : PublicKey) (s : KeyShare) (event : Event) : Prop where
  signed : event.verify = true
  author : event.draft.author = r.dealer.publicKey
  kind : event.draft.kind = r.settings.kinds.shard
  addressed : ["p", k.hex] ∈ event.draft.tags
  encrypted : ∃ nonce, Payload.encrypt r.dealer k nonce s.toHex.toUTF8.data.toList =
    .ok event.draft.content

/-- The delivery of an event heard its acknowledgement, which it had been waiting for. -/
def Heard (r : Run) (xs : List Stimulus) (k : PublicKey) (s : KeyShare) (event ack : Event) :
    Prop :=
  ∃ ys i zs d, xs = ys ++ .hear i (.reply ack) :: zs ∧
    (r.steps ys).1.attempts[i]? = some ⟨k, .delivering s d⟩ ∧ d.event = event ∧
    d.acknowledgement = .awaited

/-- What stands behind an entry: an event that carries the share, published where the signer
reads, and an acknowledgement of it that was heard. -/
structure Receipt (r : Run) (xs : List Stimulus) (k : PublicKey) (s : KeyShare)
    (event ack : Event) : Prop where
  reachable : (r.inbox k).isEmpty = false
  carries : r.Carries k s event
  published : ∃ i, .publish i (r.inbox k) event ∈ (r.steps xs).2
  heard : r.Heard xs k s event ack
  acknowledges : Delivery.Acknowledges r.settings.kinds.acknowledgement k event ack

/-- What is known of an attempt of the run after some stimuli, by its phase. -/
def Accounted (r : Run) (xs : List Stimulus) (i : Nat) (k : PublicKey) : Phase → Prop
  | .ready s draft | .mining s draft => r.Drafted k s draft
  | .delivering s d =>
    d.filter = Delivery.ackFilter r.settings.kinds.acknowledgement r.dealer.publicKey k d.event ∧
    (r.inbox k).isEmpty = false ∧ r.Carries k s d.event ∧
    .publish i (r.inbox k) d.event ∈ (r.steps xs).2 ∧
    (d.acknowledgement = .received → ∃ ack, r.Receipt xs k s d.event ack)
  | _ => True

variable {r r₀ : Run} {xs ys : List Stimulus} {x : Stimulus} {i : Nat} {k : PublicKey}
  {s : KeyShare} {event ack : Event} {draft : Draft} {p q : Phase}

/-! ### Histories that go on -/

lemma honestMiner_append :
    r.HonestMiner (xs ++ ys) ↔ r.HonestMiner xs ∧ (r.steps xs).1.HonestMiner ys := by
  induction xs generalizing r with
  | nil => simp [HonestMiner, steps]
  | cons x xs ih => simp only [List.cons_append, HonestMiner, ih, and_assoc, steps]

lemma Heard.append (h : r.Heard xs k s event ack) (ys : List Stimulus) :
    r.Heard (xs ++ ys) k s event ack := by
  obtain ⟨before, i, after, d, rfl, hd⟩ := h
  exact ⟨before, i, after ++ ys, d, by simp, hd⟩

lemma Receipt.append (h : r.Receipt xs k s event ack) (ys : List Stimulus) :
    r.Receipt (xs ++ ys) k s event ack := by
  obtain ⟨hreach, hcarries, ⟨i, hpublished⟩, hheard, hacknowledges⟩ := h
  refine ⟨hreach, hcarries, ⟨i, ?_⟩, hheard.append ys, hacknowledges⟩
  rw [said_append]
  exact List.mem_append_left _ hpublished

lemma Accounted.append (h : r.Accounted xs i k p) (ys : List Stimulus) :
    r.Accounted (xs ++ ys) i k p := by
  cases p with
  | delivering s d =>
    obtain ⟨hfilter, hreach, hcarries, hpublished, hreceived⟩ := h
    refine ⟨hfilter, hreach, hcarries, ?_, fun hr => ?_⟩
    · rw [said_append]
      exact List.mem_append_left _ hpublished
    · obtain ⟨ack, hreceipt⟩ := hreceived hr
      exact ⟨ack, hreceipt.append ys⟩
  | _ => exact h

/-! ### Accounts of every attempt -/

lemma Drafted.carries (h : r.Drafted k s draft) {mined : Draft} (hmined : mined.MinedFrom draft)
    {random : Block 32} (hsign : mined.sign r.dealer random = .ok event) : r.Carries k s event := by
  obtain ⟨-, nonce, payload, hencrypt, rfl⟩ := h
  obtain ⟨hverify, rfl⟩ := Draft.verify_of_sign hsign
  refine ⟨hverify, hmined.author, hmined.kind, ?_, nonce, hmined.content ▸ hencrypt⟩
  have hp : ["p", k.hex] ∈ (Work.unworked (r.shardDraft k payload)).tags := by
    simp [Work.unworked, shardDraft, Tag.named]
  rw [← hmined.tags] at hp
  exact (List.mem_filter.mp hp).1

lemma Next.accounted (hr : (r₀.steps xs).1 = r) (hhonest : r.Honest x)
    (ha : r.attempts[i]? = some ⟨k, p⟩) (h : r₀.Accounted xs i k p) (hnext : r.Next x i k p q) :
    r₀.Accounted (xs ++ [x]) i k q := by
  have hterms : r.terms = r₀.terms := hr ▸ terms_steps r₀ xs
  have hdealer : r.dealer = r₀.dealer := congrArg Terms.dealer hterms
  have hkinds : r.settings.kinds = r₀.settings.kinds := congrArg (fun t => t.settings.kinds) hterms
  cases hnext with
  | stay => exact h.append [x]
  | wait _ hwaits =>
    cases hwaits with
    | ready hd => exact hd.of_terms hterms
    | mining hd => exact hd.of_terms hterms
    | _ => trivial
  | mine => exact h
  | @send s draft mined random event hx hsign hpublish =>
    subst hx
    have hdrafted : r₀.Drafted k s draft := h
    have hmined : mined.MinedFrom draft := hhonest k s draft ha
    rw [hdealer] at hsign
    rw [inbox_eq hterms] at hpublish
    -- The delivery begins with the filter for this event, and has received nothing yet.
    refine ⟨?_, hdrafted.reachable, hdrafted.carries hmined hsign, ?_, nofun⟩
    · rw [← hkinds, ← hdealer]
      rfl
    · rw [said_append, hr]
      refine List.mem_append_right _ ?_
      simp only [steps, List.append_nil]
      exact hpublish
  | @hear s d input hx =>
    subst hx
    obtain ⟨hfilter, hreach, hcarries, hpublished, hreceived⟩ := h.append [.hear i input]
    refine ⟨by simpa using hfilter, hreach, by simpa using hcarries, by simpa using hpublished, ?_⟩
    intro hrec
    rw [Delivery.event_hear]
    -- The acknowledgement was there already, or this input is it.
    rcases Delivery.received_hear hrec with hold | ⟨ack, rfl, hawaited, hgenuine⟩
    · exact hreceived hold
    · exact ⟨ack, hreach, hcarries, ⟨i, hpublished⟩, ⟨xs, i, [], d, rfl, hr ▸ ha, rfl, hawaited⟩,
        ((Delivery.genuine_iff hfilter).mp hgenuine).toAcknowledges⟩
  | stop => trivial

/-- **Every attempt is accounted for**, at any time of a run that an honest miner works for. -/
theorem accounted_steps (h₀ : ∀ a ∈ r₀.attempts, a.phase = .idle) (hminer : r₀.HonestMiner xs)
    {a : Attempt} (ha : (r₀.steps xs).1.attempts[i]? = some a) :
    r₀.Accounted xs i a.signer a.phase := by
  -- The history grows at its end, where the attempt comes to its phase.
  induction xs using List.reverseRecOn generalizing i a with
  | nil =>
    rw [h₀ a (List.mem_of_getElem? ha)]
    trivial
  | append_singleton xs x ih =>
    obtain ⟨hbefore, hhonest, -⟩ := honestMiner_append.mp hminer
    rw [steps_append] at ha
    obtain ⟨p, hp, hnext | haccepted⟩ := next_or_accepted ha
    · exact hnext.accounted rfl hhonest hp (ih hbefore hp)
    · rw [haccepted]
      trivial

/-- Whatever the miner does, what waits for it or is mined is the draft of a share for a signer
that can be reached. -/
theorem drafted_steps (h₀ : ∀ a ∈ r₀.attempts, a.phase = .idle)
    (ha : (r₀.steps xs).1.attempts[i]? = some ⟨k, p⟩)
    (hp : p = .ready s draft ∨ p = .mining s draft) : r₀.Drafted k s draft := by
  -- No miner is trusted here: the draft is known up to the moment that it is mined.
  induction xs using List.reverseRecOn generalizing p with
  | nil =>
    have hidle : p = .idle := h₀ _ (List.mem_of_getElem? ha)
    rcases hp with rfl | rfl <;> cases hidle
  | append_singleton xs x ih =>
    have hterms : (r₀.steps xs).1.terms = r₀.terms := terms_steps r₀ xs
    rw [steps_append] at ha
    obtain ⟨q, hq, hnext | haccepted⟩ := next_or_accepted ha
    · rcases hp with rfl | rfl
      · cases hnext with
        | stay => exact ih hq (.inl rfl)
        | wait _ hwaits =>
          cases hwaits with
          | ready hd => exact hd.of_terms hterms
      · cases hnext with
        | stay => exact ih hq (.inr rfl)
        | mine => exact ih hq (.inl rfl)
        | wait _ hwaits =>
          cases hwaits with
          | mining hd => exact hd.of_terms hterms
    · subst haccepted
      rcases hp with hp | hp <;> cases hp

/-- **Behind every entry of the ledger there is a receipt.** -/
theorem exists_receipt (h₀ : ∀ a ∈ r₀.attempts, a.phase = .idle) (hminer : r₀.HonestMiner xs)
    (h : (k, s) ∈ r₀.placements xs) : ∃ event ack, r₀.Receipt xs k s event ack := by
  obtain ⟨ys, x, zs, rfl, hplaced⟩ := mem_placements.mp h
  obtain ⟨i, d, input, rfl, ha, hverdict, -⟩ := placement?_eq_some hplaced
  obtain ⟨hbefore, hhonest, -⟩ := honestMiner_append.mp hminer
  have haccount := (Next.hear rfl).accounted rfl hhonest ha (accounted_steps h₀ hbefore ha)
  obtain ⟨-, -, -, -, hreceived⟩ := haccount
  obtain ⟨ack, hreceipt⟩ := hreceived (Delivery.received_of_verdict hverdict)
  have happend := hreceipt.append zs
  rw [List.append_assoc] at happend
  exact ⟨(d.hear input).event, ack, happend⟩

end Run

end KeyQuorum
