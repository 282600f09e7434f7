import Mathlib.Data.List.Forall2
import KeyQuorum.Proofs.Distribution.ReadBack

/-!
The grammar of coordination records.

What an event must say is put down clause by clause, without the reader: the texts of its tags
are the bytes of a secret, of keys and of shares. Beside it stand the checks in their order, each
with the errors it fails with, those of a signer's tag once for every such tag. The reader is
shown to carry them out part by part, and its parts are put together by their checks. So an event
is read just if it is of the grammar, and else it is refused with the error of the first check
that fails.
-/

namespace KeyQuorum.Record

/-! ### Checks in order -/

/-- A check, by the errors it fails with. -/
abbrev Check := DistributionError → Prop

/-- The check of a clause, which fails with a fault. -/
def clause (P : Prop) (f : RecordFault) : Check := fun e => ¬ P ∧ e = .invalidRecord f

def Passes (cs : List Check) : Prop := ∀ c ∈ cs, ∀ e, ¬ c e

/-- The first check to fail does so with an error. -/
inductive FirstFailure : List Check → DistributionError → Prop
  | here {c : Check} {cs : List Check} {e : DistributionError} : c e → FirstFailure (c :: cs) e
  | later {c : Check} {cs : List Check} {e : DistributionError} :
      (∀ f, ¬ c f) → FirstFailure cs e → FirstFailure (c :: cs) e

variable {α β : Type} {c : Check} {cs ds : List Check} {e : DistributionError} {P : Prop}
  {f : RecordFault} {good : α → Prop} {fine : β → Prop}

lemma clause_passes (h : P) (e : DistributionError) : ¬ clause P f e := fun hc => hc.1 h

lemma passes_nil : Passes [] := fun _ h => absurd h List.not_mem_nil

lemma passes_cons : Passes (c :: cs) ↔ (∀ e, ¬ c e) ∧ Passes cs := List.forall_mem_cons

lemma passes_append : Passes (cs ++ ds) ↔ Passes cs ∧ Passes ds := List.forall_mem_append

lemma Passes.clause (hP : P) (h : Passes cs) : Passes (clause P f :: cs) :=
  passes_cons.mpr ⟨clause_passes hP, h⟩

lemma FirstFailure.append (h : FirstFailure cs e) (ds : List Check) :
    FirstFailure (cs ++ ds) e := by
  induction h with
  | here hc => exact .here hc
  | later hc _ ih => exact .later hc ih

lemma FirstFailure.after (hcs : Passes cs) (h : FirstFailure ds e) :
    FirstFailure (cs ++ ds) e := by
  induction cs with
  | nil => exact h
  | cons c cs ih =>
    obtain ⟨hc, hcs⟩ := passes_cons.mp hcs
    exact .later hc (ih hcs)

lemma FirstFailure.not_passes (h : FirstFailure cs e) : ¬ Passes cs := by
  induction h with
  | here hc => exact fun hp => (passes_cons.mp hp).1 _ hc
  | later _ _ ih => exact fun hp => ih (passes_cons.mp hp).2

/-- There is one first failure, where each check has one error at most. -/
lemma FirstFailure.unique {e' : DistributionError} (hone : ∀ c ∈ cs, ∀ e e', c e → c e' → e = e')
    (h : FirstFailure cs e) (h' : FirstFailure cs e') : e = e' := by
  -- Up to the first failure nothing fails, so that neither can come before the other.
  induction h with
  | here hc =>
    cases h' with
    | here hc' => exact hone _ List.mem_cons_self _ _ hc hc'
    | later hnone _ => exact absurd hc (hnone _)
  | later hnone _ ih =>
    cases h' with
    | here hc' => exact absurd hc' (hnone _)
    | later _ h' => exact ih (fun c hc => hone c (List.mem_cons_of_mem _ hc)) h'

/-- A reading carries out checks: where they all pass it gives a good value, and else it is
refused with the error of the first that fails. -/
inductive Obeys (cs : List Check) (good : α → Prop) : Reading α → Prop
  | ok {a : α} : Passes cs → good a → Obeys cs good (.ok a)
  | refused {e : DistributionError} : FirstFailure cs e → Obeys cs good (.error (.refused e))

namespace Obeys

variable {r : Reading α}

lemma after (hcs : Passes cs) (h : Obeys ds good r) : Obeys (cs ++ ds) good r := by
  cases h with
  | ok hds ha => exact .ok (passes_append.mpr ⟨hcs, hds⟩) ha
  | refused hf => exact .refused (hf.after hcs)

lemma bind {next : α → Reading β} (h : Obeys cs good r)
    (hnext : ∀ a, good a → Obeys ds fine (next a)) : Obeys (cs ++ ds) fine (r.bind next) := by
  cases h with
  | ok hcs ha => exact (hnext _ ha).after hcs
  | refused hf => exact .refused (hf.append ds)

lemma guard {Q : Prop} [Decidable Q] (hQ : Q ↔ ¬ P) (h : P → Obeys cs good r) :
    Obeys (clause P f :: cs) good (if Q then invalid f else r) := by
  split
  · next hq => exact .refused (.here ⟨hQ.mp hq, rfl⟩)
  · next hq =>
    have hp : P := not_not.mp (mt hQ.mpr hq)
    exact (h hp).after (passes_nil.clause hp)

end Obeys

/-! ### The grammar -/

/-- The first tag that may hold the handler's secret does. -/
def SpellsSecret (tags : List Tag) (handler : KeyPair) : Prop :=
  ∃ text, Tag.value? "handlersecret" tags = some text ∧
    Hex.decode text = some (Residue.toBytes handler.secret)

/-- The first tag that may hold the threshold does. -/
def SpellsThreshold (tags : List Tag) (threshold : UInt32) : Prop :=
  ∃ text, Tag.value? "threshold" tags = some text ∧
    Decimal.decode UInt32.size text.toList = some threshold.toNat

/-- The tag has three items: its name, a key, and the text of a public share. -/
def Lists (t : Tag) (s : PublicKey × String) : Prop :=
  ∃ name signer share, t = [name, signer, s.2] ∧ Hex.decode signer = some s.1.bytes ∧
    PublicShare.ofHex s.2 = .ok share

/-- What an event says that is a record of a kind. -/
structure WellFormed (event : Event) (kind : UInt16) (handler : KeyPair) (threshold : UInt32) :
    Prop where
  kind : event.draft.kind = kind
  signed : event.verify = true
  secret : SpellsSecret event.draft.tags handler
  announced : Tag.value? "h" event.draft.tags = some handler.publicKey.hex
  bound : SpellsThreshold event.draft.tags threshold
  pos : threshold ≠ 0
  le : threshold ≤ maxThreshold
  signers : ∀ t ∈ Tag.all "p" event.draft.tags, ∃ s, Lists t s
  enough : threshold.toNat ≤ (Tag.all "p" event.draft.tags).length

def handlerChecks (tags : List Tag) : List Check :=
  [clause (∃ text, Tag.value? "handlersecret" tags = some text) .missingHandlerSecret,
    clause (∃ handler, SpellsSecret tags handler) .badHandlerSecret,
    clause (∃ text, Tag.value? "h" tags = some text) .missingHandlerKey,
    clause (∃ handler, SpellsSecret tags handler ∧
      Tag.value? "h" tags = some handler.publicKey.hex) .handlerMismatch]

def thresholdChecks (tags : List Tag) : List Check :=
  [clause (∃ threshold, SpellsThreshold tags threshold) .missingThreshold,
    clause (∃ threshold, SpellsThreshold tags threshold ∧ threshold ≠ 0 ∧
      threshold ≤ maxThreshold) .thresholdOutOfRange]

def Undecodable (t : Tag) : Check := fun e =>
  ∃ text fault, t[2]? = some text ∧ PublicShare.ofHex text = .error fault ∧ e = .ofWire fault

def signerChecks (t : Tag) : List Check :=
  [clause (t.length = 3) .signerTagLength,
    clause (∃ text, ∃ key : PublicKey, t[1]? = some text ∧ Hex.decode text = some key.bytes)
      .badSignerKey,
    Undecodable t]

def checks (event : Event) (kind : UInt16) : List Check :=
  let tags := event.draft.tags
  clause (event.draft.kind = kind) .unexpectedKind :: clause (event.verify = true) .badSignature ::
    (handlerChecks tags ++ (thresholdChecks tags ++ ((Tag.all "p" tags).flatMap signerChecks ++
      [clause (∃ threshold, SpellsThreshold tags threshold ∧
        threshold.toNat ≤ (Tag.all "p" tags).length) .tooFewSigners])))

variable {event : Event} {kind : UInt16} {handler : KeyPair} {threshold : UInt32} {tags : List Tag}

lemma SpellsSecret.unique {handler' : KeyPair} (h : SpellsSecret tags handler)
    (h' : SpellsSecret tags handler') : handler = handler' := by
  obtain ⟨text, hvalue, htext⟩ := h
  obtain ⟨text', hvalue', htext'⟩ := h'
  obtain rfl := Option.some.inj (hvalue.symm.trans hvalue')
  have hok := KeyPair.ofHex_eq_ok.mpr htext
  rw [KeyPair.ofHex_eq_ok.mpr htext'] at hok
  exact (Except.ok.inj hok).symm

lemma SpellsThreshold.unique {threshold' : UInt32} (h : SpellsThreshold tags threshold)
    (h' : SpellsThreshold tags threshold') : threshold = threshold' := by
  obtain ⟨text, hvalue, htext⟩ := h
  obtain ⟨text', hvalue', htext'⟩ := h'
  obtain rfl := Option.some.inj (hvalue.symm.trans hvalue')
  exact UInt32.toNat_inj.mp (Option.some.inj (htext.symm.trans htext'))

lemma passes_undecodable {t : Tag} {text : String} {share : PublicShare} (htext : t[2]? = some text)
    (hshare : PublicShare.ofHex text = .ok share) : Passes [Undecodable t] := by
  refine passes_cons.mpr ⟨fun e he => ?_, passes_nil⟩
  obtain ⟨text', fault, htext', hfault, -⟩ := he
  obtain rfl := Option.some.inj (htext.symm.trans htext')
  rw [hshare] at hfault
  cases hfault

lemma Lists.passes {t : Tag} {s : PublicKey × String} (h : Lists t s) :
    Passes (signerChecks t) := by
  obtain ⟨name, signer, share, rfl, hsigner, hshare⟩ := h
  exact .clause rfl (.clause ⟨signer, s.1, rfl, hsigner⟩ (passes_undecodable rfl hshare))

lemma WellFormed.passes (h : WellFormed event kind handler threshold) :
    Passes (checks event kind) := by
  have hhandler : Passes (handlerChecks event.draft.tags) :=
    .clause (h.secret.imp fun _ hs => hs.1) (.clause ⟨_, h.secret⟩ (.clause ⟨_, h.announced⟩
      (.clause ⟨_, h.secret, h.announced⟩ passes_nil)))
  have hthreshold : Passes (thresholdChecks event.draft.tags) :=
    .clause ⟨_, h.bound⟩ (.clause ⟨_, h.bound, h.pos, h.le⟩ passes_nil)
  have hsigners : Passes ((Tag.all "p" event.draft.tags).flatMap signerChecks) := by
    intro c hc
    obtain ⟨t, ht, hct⟩ := List.mem_flatMap.mp hc
    obtain ⟨s, hs⟩ := h.signers t ht
    exact hs.passes c hct
  exact .clause h.kind (.clause h.signed (passes_append.mpr ⟨hhandler, passes_append.mpr
    ⟨hthreshold, passes_append.mpr ⟨hsigners, .clause ⟨_, h.bound, h.enough⟩ passes_nil⟩⟩⟩))

lemma clause_unique {e' : DistributionError} (h : clause P f e) (h' : clause P f e') : e = e' :=
  h.2.trans h'.2.symm

lemma Undecodable.unique {t : Tag} {e' : DistributionError} (h : Undecodable t e)
    (h' : Undecodable t e') : e = e' := by
  obtain ⟨text, fault, htext, hfault, rfl⟩ := h
  obtain ⟨text', fault', htext', hfault', rfl⟩ := h'
  obtain rfl := Option.some.inj (htext.symm.trans htext')
  rw [Except.error.inj (hfault.symm.trans hfault')]

lemma checks_unique : ∀ c ∈ checks event kind, ∀ e e', c e → c e' → e = e' := by
  intro c hc e e' h h'
  have hcases : (∃ P f, c = clause P f) ∨ ∃ t, c = Undecodable t := by
    simp only [checks, handlerChecks, thresholdChecks, signerChecks, List.mem_cons,
      List.mem_append, List.mem_flatMap, List.not_mem_nil, or_false] at hc
    grind
  rcases hcases with ⟨P, f, rfl⟩ | ⟨t, rfl⟩
  · exact clause_unique h h'
  · exact h.unique h'

/-! ### The reader carries out the checks -/

lemma obeys_readHandler (tags : List Tag) :
    Obeys (handlerChecks tags) (fun handler => SpellsSecret tags handler ∧
      Tag.value? "h" tags = some handler.publicKey.hex) (readHandler tags) := by
  unfold readHandler
  split
  · next hnone => exact .refused (.here ⟨by simp [hnone], rfl⟩)
  next secret hsecret =>
  refine .after (passes_nil.clause ⟨_, hsecret⟩) ?_
  split
  · next hbad =>
    refine .refused (.here ⟨fun ⟨handler, text, htext, hspells⟩ => ?_, rfl⟩)
    obtain rfl := Option.some.inj (hsecret.symm.trans htext)
    rw [KeyPair.ofHex_eq_ok.mpr hspells] at hbad
    cases hbad
  next handler hok =>
  have hspells : SpellsSecret tags handler := ⟨_, hsecret, KeyPair.ofHex_eq_ok.mp hok⟩
  refine .after (passes_nil.clause ⟨_, hspells⟩) ?_
  split
  · next hnone => exact .refused (.here ⟨by simp [hnone], rfl⟩)
  next announced hannounced =>
  refine .after (passes_nil.clause ⟨_, hannounced⟩) ?_
  split
  · next heq =>
    have hkey : Tag.value? "h" tags = some handler.publicKey.hex := by rw [hannounced, heq]
    exact .ok (passes_nil.clause ⟨_, hspells, hkey⟩) ⟨hspells, hkey⟩
  · next hne =>
    refine .refused (.here ⟨fun ⟨handler', hspells', hkey⟩ => hne ?_, rfl⟩)
    rw [hspells.unique hspells']
    exact Option.some.inj (hkey.symm.trans hannounced)

lemma obeys_readThreshold (tags : List Tag) :
    Obeys (thresholdChecks tags) (fun threshold => SpellsThreshold tags threshold ∧
      threshold ≠ 0 ∧ threshold ≤ maxThreshold) (readThreshold tags) := by
  unfold readThreshold
  split
  · next hnone =>
    refine .refused (.here ⟨fun ⟨threshold, text, htext, hspells⟩ => ?_, rfl⟩)
    rw [htext, Option.bind_some, hspells] at hnone
    cases hnone
  next n hn =>
  obtain ⟨text, htext, hread⟩ := Option.bind_eq_some_iff.mp hn
  have hspells : SpellsThreshold tags (UInt32.ofNat n) := by
    refine ⟨text, htext, ?_⟩
    rw [hread, UInt32.toNat_ofNat_of_lt' (Decimal.lt_of_decode hread)]
  refine .after (passes_nil.clause ⟨_, hspells⟩) (.guard ?_ fun hrange => ?_)
  · constructor
    · -- The check speaks of whatever threshold is spelled, and only one is.
      rintro hout ⟨threshold, hspells', hpos, hle⟩
      rw [hspells.unique hspells'] at hout
      exact hout.elim hpos (UInt32.not_lt.mpr hle)
    · intro hnot
      by_contra hin
      obtain ⟨hpos, hle⟩ := not_or.mp hin
      exact hnot ⟨_, hspells, hpos, UInt32.not_lt.mp hle⟩
  · obtain ⟨threshold, hspells', hin⟩ := hrange
    rw [hspells.unique hspells']
    exact .ok passes_nil ⟨hspells', hin⟩

lemma obeys_readSigner {t : Tag}
    (hfit : ∀ name signer share, t = [name, signer, share] → ¬ PublicKey.Misfit signer) :
    Obeys (signerChecks t) (Lists t) (readSigner t) := by
  unfold readSigner
  split
  · next name signer share =>
    refine .after (passes_nil.clause rfl) ?_
    split
    · next fault hrefused =>
      refine .refused (.here ⟨fun ⟨text, key, htext, hkey⟩ => ?_, rfl⟩)
      obtain rfl := Option.some.inj htext
      rw [PublicKey.ofHex_eq_ok.mpr hkey] at hrefused
      cases hrefused
    · -- a key of the wrong length, which the tags have none of
      next hhalted => exact absurd (PublicKey.ofHex_eq_halted.mp hhalted) (hfit _ _ _ rfl)
    next key hok =>
    have hkey := PublicKey.ofHex_eq_ok.mp hok
    refine .after (passes_nil.clause ⟨signer, key, rfl, hkey⟩) ?_
    split
    · next fault hfault => exact .refused (.here ⟨share, fault, rfl, hfault, rfl⟩)
    · next publicShare hshare =>
      exact .ok (passes_undecodable rfl hshare) ⟨name, signer, _, rfl, hkey, hshare⟩
  · next hlen =>
    refine .refused (.here ⟨fun hthree => ?_, rfl⟩)
    obtain ⟨a, b, c, rfl⟩ := List.length_eq_three.mp hthree
    exact hlen a b c rfl

lemma obeys_readSigners {ts : List Tag}
    (hfit : ∀ name signer share, [name, signer, share] ∈ ts → ¬ PublicKey.Misfit signer) :
    Obeys (ts.flatMap signerChecks) (List.Forall₂ Lists ts) (readSigners ts) := by
  induction ts with
  | nil => exact .ok passes_nil .nil
  | cons t ts ih =>
    have hhead := obeys_readSigner (t := t) fun name signer share ht =>
      hfit name signer share (ht ▸ List.mem_cons_self)
    have htail := ih fun name signer share ht => hfit name signer share (List.mem_cons_of_mem t ht)
    rw [List.flatMap_cons]
    refine hhead.bind fun s hs => ?_
    rw [← List.append_nil (ts.flatMap signerChecks)]
    exact htail.bind fun ss hss => .ok passes_nil (.cons hs hss)

/-- **The reader carries out the checks of a record**, and what it gives is what the event says. -/
lemma obeys_ofEvent (hfit : ∀ name signer share,
    [name, signer, share] ∈ Tag.all "p" event.draft.tags → ¬ PublicKey.Misfit signer) :
    Obeys (checks event kind) (fun record => record.event = event ∧
      WellFormed event kind record.handler record.threshold ∧
        List.Forall₂ Lists (Tag.all "p" event.draft.tags) record.signers)
      (ofEvent event kind) := by
  rw [ofEvent_eq]
  refine .guard Iff.rfl fun hkind => .guard Iff.rfl fun hsigned => ?_
  refine (obeys_readHandler _).bind fun handler ⟨hsecret, hannounced⟩ => ?_
  refine (obeys_readThreshold _).bind fun threshold ⟨hbound, hpos, hle⟩ => ?_
  refine (obeys_readSigners hfit).bind fun signers hsigners => ?_
  have hlength := hsigners.length_eq
  refine .guard ?_ fun henough => .ok passes_nil ⟨rfl, ⟨hkind, hsigned, hsecret, hannounced, hbound,
    hpos, hle, fun t ht => ?_, ?_⟩, hsigners⟩
  · constructor
    · -- The threshold of the check is the one that was read.
      rintro hfew ⟨threshold', hbound', henough⟩
      rw [hbound'.unique hbound] at henough
      omega
    · intro hnone
      by_contra hmany
      exact hnone ⟨threshold, hbound, by omega⟩
  · have hlists : List.Forall₂ (fun t s => (∃ s, Lists t s) ∧ Lists t s)
        (Tag.all "p" event.draft.tags) signers := hsigners.imp fun t s hs => ⟨⟨s, hs⟩, hs⟩
    exact (List.forall₂_and_left _ _).mp hlists |>.1 t ht
  · obtain ⟨threshold', hbound', henough⟩ := henough
    exact hbound'.unique hbound ▸ henough

lemma publicShares_of_lists {record : Record} {ts : List Tag}
    (h : List.Forall₂ Lists ts record.signers) :
    ∃ shares, record.publicShares = .ok shares ∧
      List.Forall₂ (fun s p => s.1 = p.1 ∧ PublicShare.ofHex s.2 = .ok p.2) record.signers
        shares := by
  unfold publicShares
  generalize record.signers = signers at h ⊢
  induction h with
  | nil => exact ⟨[], rfl, .nil⟩
  | @cons t s _ signers ht _ ih =>
    obtain ⟨_, _, share, -, -, hshare⟩ := ht
    obtain ⟨shares, hmap, hshares⟩ := ih
    refine ⟨(s.1, share) :: shares, ?_, .cons ⟨rfl, hshare⟩ hshares⟩
    rw [List.mapM_cons, hmap]
    simp only [hshare]
    rfl

/-- **Events are read as records just by the grammar**, the signers as their tags list them, and
all of their public shares decode. Every other event is refused by the first check that fails. -/
theorem read_iff_wellFormed (event : Event) (kind : UInt16)
    (hfit : ∀ name signer share, [name, signer, share] ∈ Tag.all "p" event.draft.tags →
      ¬ PublicKey.Misfit signer) :
    ((∃ record, ofEvent event kind = .ok record) ↔
      ∃ handler threshold, WellFormed event kind handler threshold) ∧
    (∀ record, ofEvent event kind = .ok record →
      record.event = event ∧ WellFormed event kind record.handler record.threshold ∧
      List.Forall₂ Lists (Tag.all "p" event.draft.tags) record.signers ∧
      ∃ shares, record.publicShares = .ok shares ∧
        List.Forall₂ (fun s p => s.1 = p.1 ∧ PublicShare.ofHex s.2 = .ok p.2) record.signers
          shares) ∧
    (∀ e, ofEvent event kind = .error (.refused e) ↔ FirstFailure (checks event kind) e) ∧
    ofEvent event kind ≠ .error .halted := by
  have hobeys : Obeys (checks event kind) _ (ofEvent event kind) := obeys_ofEvent hfit
  generalize ofEvent event kind = read at hobeys ⊢
  cases hobeys with
  | @ok record hpasses hgood =>
    obtain ⟨hevent, hwell, hlists⟩ := hgood
    refine ⟨iff_of_true ⟨record, rfl⟩ ⟨_, _, hwell⟩, ?_, fun e => ?_, nofun⟩
    · intro read hread
      obtain rfl := Except.ok.inj hread
      exact ⟨hevent, hwell, hlists, publicShares_of_lists hlists⟩
    · exact iff_of_false nofun fun hfails => hfails.not_passes hpasses
  | @refused e hfails =>
    refine ⟨iff_of_false nofun ?_, nofun, fun e' => ?_, nofun⟩
    · rintro ⟨handler, threshold, hwell⟩
      exact hfails.not_passes hwell.passes
    · constructor
      · rintro h
        obtain rfl : e = e' := by injection h with h; injection h
        exact hfails
      · intro hfails'
        rw [hfails.unique checks_unique hfails']

/-- The record of one signer is of the grammar, and its one share decodes. -/
theorem sole_signer_wellFormed : ∃ event : Event,
    (∀ name signer share, [name, signer, share] ∈ Tag.all "p" event.draft.tags →
      ¬ PublicKey.Misfit signer) ∧
    WellFormed event Unanimity.settings.kinds.registration Unanimity.dealer 1 ∧
    ∃ record shares, ofEvent event Unanimity.settings.kinds.registration = .ok record ∧
      record.publicShares = .ok shares ∧ shares.length = 1 := by
  obtain ⟨record, hbuild⟩ := exists_soleSigner
  obtain ⟨hsigners, hthreshold, hhandler, -, hdraft⟩ := build_eq_ok hbuild
  have hfit : ∀ name signer share, [name, signer, share] ∈ Tag.all "p" record.event.draft.tags →
      ¬ PublicKey.Misfit signer := by
    intro name signer share hmem hmisfit
    rw [hdraft, all_tags, List.map_singleton, List.mem_singleton] at hmem
    obtain ⟨-, rfl, -⟩ : name = "p" ∧ signer = soleSigner.1.hex ∧ share = soleSigner.2 := by
      simpa using hmem
    rw [← PublicKey.ofHex_eq_halted, PublicKey.ofHex_hex] at hmisfit
    cases hmisfit
  obtain ⟨-, hreads, -⟩ := read_iff_wellFormed record.event
    Unanimity.settings.kinds.registration hfit
  have hok : ofEvent record.event Unanimity.settings.kinds.registration = .ok record :=
    ofEvent_build hbuild readable_soleSigner.pos readable_soleSigner.le readable_soleSigner.enough
      readable_soleSigner.shares
  obtain ⟨-, hwell, -, shares, hshares, hdecoded⟩ := hreads record hok
  refine ⟨record.event, hfit, hthreshold ▸ hhandler ▸ hwell, record, shares, hok, hshares, ?_⟩
  rw [← hdecoded.length_eq, hsigners]
  rfl

end KeyQuorum.Record
