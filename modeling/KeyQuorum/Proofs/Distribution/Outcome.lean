import Mathlib.Tactic.Lemma
import KeyQuorum.Proofs.Distribution.Receipts
import KeyQuorum.Proofs.Distribution.Record
import KeyQuorum.Proofs.Distribution.Unanimity

/-!
The record that a successful run gives back.

It was built from what the admission had on record when all attempts had ended and every share
was placed, and that record is the ledger of the run. So the coordination record names each
dealt share once, at a signer that acknowledged the very event in which the share was encrypted
to it. Readers take the record back as it was built, when its threshold is in their range.
-/

namespace KeyQuorum.Run

def Recorded (r : Run) (record : Record) : Prop :=
  ∃ placed handler random, r.admission.finish = .ok placed ∧
    Record.build r.dealer r.now r.settings.kinds.registration placed r.request.threshold handler
      random = .ok record

/-- A record that the run announces or gives back was built of what was placed. -/
def Honoured (r : Run) : Prop :=
  match r.stage with
  | .announcing record _ | .finished (.ok record) => r.Recorded record
  | _ => True

variable {dealer : KeyPair} {settings : Settings} {request : Request} {now : Timestamp}
  {shares : List KeyShare} {entropy : Entropy} {r₀ r : Run} {xs : List Stimulus} {record : Record}

/-! ### How a run ends -/

lemma honoured_of_delivering (h : r.stage = .delivering) : r.Honoured := by
  simp only [Honoured, h]

lemma honoured_announce {placed : List (PublicKey × String)}
    (h : r.admission.finish = .ok placed) : (r.announce placed).1.Honoured := by
  unfold announce
  split
  · trivial
  · next handler entropy _ =>
    simp only
    split
    · trivial
    · next hbuild => exact ⟨placed, handler, _, h, hbuild⟩

lemma Honoured.step (h : r.Honoured) (x : Stimulus) : (r.step x).1.Honoured := by
  cases r.step_effect x with
  | attempt hm hstage =>
    rw [hm]
    exact honoured_of_delivering ((stage_stepAttempt r _ _ x).trans hstage)
  | conclude hm _ _ _ hfinish =>
    rw [hm]
    exact honoured_announce hfinish
  | short hm | unanswered hm =>
    rw [hm]
    trivial
  | @taken record _ _ hm hstage | @refused record _ _ _ hm hstage =>
    have hrecorded : r.Recorded record := by simpa only [Honoured, hstage] using h
    rw [hm]
    exact hrecorded
  | nothing hm => rwa [hm]

lemma Honoured.steps (h : r.Honoured) (xs : List Stimulus) : (r.steps xs).1.Honoured :=
  kept_steps (fun _ h x => h.step x) h xs

lemma Honoured.recorded (h : r.Honoured) (hresult : r.result? = some (.ok record)) :
    r.Recorded record := by
  have hstage : r.stage = .finished (.ok record) := by
    unfold result? at hresult
    split at hresult
    · next hstage => rw [hstage, Option.some.inj hresult]
    · cases hresult
  simpa only [Honoured, hstage] using h

/-! ### The record of a run -/

lemma nodup_candidates (ks : List PublicKey) : ks.eraseDups.Nodup := by
  -- The rest is shorter once all that equals the first is taken out.
  induction hn : ks.length using Nat.strongRecOn generalizing ks with
  | _ n ih =>
    cases ks with
    | nil => exact List.nodup_nil
    | cons k ks =>
      have hlt : (ks.filter fun j => !j == k).length < n :=
        hn ▸ Nat.lt_succ_of_le (List.length_filter_le _ ks)
      rw [List.eraseDups_cons, List.nodup_cons]
      exact ⟨by simp [List.mem_eraseDups], ih _ hlt _ rfl⟩

lemma terms_start (h : start dealer settings request now shares entropy = .ok r) :
    r.terms = ⟨dealer, settings, request, now⟩ := by
  obtain ⟨-, -, -, -, rfl⟩ := start_eq_ok_iff.mp h
  rfl

lemma idle_start (h : start dealer settings request now shares entropy = .ok r) :
    ∀ a ∈ r.attempts, a.phase = .idle := by
  obtain ⟨-, -, -, -, hfloor⟩ := start_eq_ok h
  have hstandings : r.attempts.map (·.phase.standing) =
      request.candidates.eraseDups.map fun _ => .idle := congrArg Floor.standings hfloor
  intro a ha
  have hidle : a.phase.standing ∈ request.candidates.eraseDups.map fun _ => Standing.idle :=
    hstandings ▸ List.mem_map_of_mem ha
  obtain ⟨k, -, hk⟩ := List.mem_map.mp hidle
  cases hp : a.phase with
  | idle => rfl
  | _ => simp [hp, Phase.standing] at hk

lemma startDealing_eq_ok (h : startDealing dealer settings request now entropy = .ok r) :
    ∃ d e', Dealing.deal dealer.secret request.threshold request.maxSigners entropy = .ok (d, e') ∧
      start dealer settings request now d.shares e' = .ok r := by
  unfold startDealing at h
  split at h
  · cases h
  · next d e' hdeal =>
    split at h
    · exact ⟨d, e', hdeal, h⟩
    · cases h

theorem recorded_of_result (hstart : start dealer settings request now shares entropy = .ok r₀)
    (hresult : (r₀.steps xs).1.result? = some (.ok record)) :
    ((r₀.placements xs).map Prod.snd).Perm shares ∧
      ∃ handler random, Record.build dealer now settings.kinds.registration
        ((r₀.placements xs).map receipt) request.threshold handler random = .ok record := by
  obtain ⟨-, -, hle, hstage, hfloor⟩ := start_eq_ok hstart
  have hadmission : r₀.admission = Admission.start shares request.candidates.eraseDups.length :=
    congrArg Floor.admission hfloor
  have hsound : r₀.floor.Sound := hfloor ▸ Floor.sound_start hle _
  obtain ⟨hacc, hperm⟩ := recorded_steps hsound xs
  obtain ⟨placed, handler, random, hfinish, hbuild⟩ :=
    ((honoured_of_delivering hstage).steps xs).recorded hresult
  obtain ⟨-, hpool, hfull, rfl⟩ := Admission.finish_eq_ok.mp hfinish
  have hcount := (underway_steps hstart xs).count
  -- The verdict counts all shares as placed, so that none is in a slot.
  have hheld : (r₀.steps xs).1.admission.held = [] :=
    List.eq_nil_of_length_eq_zero (by omega)
  constructor
  · rw [hadmission, Admission.unplaced_start, Admission.unplaced, hpool, hheld] at hperm
    simpa using hperm.symm
  · have hterms := (terms_steps r₀ xs).trans (terms_start hstart)
    have hempty : r₀.admission.accepted = [] := by rw [hadmission]; rfl
    rw [hacc, hempty] at hbuild
    refine ⟨handler, random, ?_⟩
    obtain ⟨hdealer, hsettings, hrequest, hnow⟩ := Terms.mk.inj hterms
    rwa [hdealer, hnow, hsettings, hrequest] at hbuild

/-- **The record of a successful run says who holds what.** It has one entry for each dealt
share, at as many different candidates. Behind each entry there is an event that carries just
this share to just this signer, published where the signer reads, and an acknowledgement that
the signer gave of this event and that the run heard. -/
theorem signers_hold_shares (hstart : startDealing dealer settings request now entropy = .ok r₀)
    (hminer : r₀.HonestMiner xs) (hresult : (r₀.steps xs).1.result? = some (.ok record)) :
    r₀.terms = ⟨dealer, settings, request, now⟩ ∧ ∃ d e',
      Dealing.deal dealer.secret request.threshold request.maxSigners entropy = .ok (d, e') ∧
      d.shares.map (·.id.toNat) = List.range' 1 request.maxSigners.toNat ∧
      ∃ holders : List (PublicKey × KeyShare),
        record.signers = holders.map (fun h => (h.1, h.2.publicShare.toHex)) ∧
        record.signers.length = request.maxSigners.toNat ∧
        (record.signers.map Prod.fst).Nodup ∧ (holders.map Prod.snd).Perm d.shares ∧
        ∀ k s, (k, s) ∈ holders → k ∈ request.candidates ∧
          (∃ relays, request.inboxes.lookup k = some relays ∧ relays ≠ []) ∧
          ∃ event ack, r₀.Receipt xs k s event ack := by
  obtain ⟨d, e', hdeal, hstart⟩ := startDealing_eq_ok hstart
  obtain ⟨hshares, handler, random, hbuild⟩ := recorded_of_result hstart hresult
  obtain ⟨hsigners, -⟩ := Record.build_eq_ok hbuild
  obtain ⟨-, hlen, -, -, hfloor⟩ := start_eq_ok hstart
  have hattempts : r₀.attempts.map Attempt.signer = request.candidates.eraseDups :=
    congrArg Floor.signers hfloor
  have hterms := terms_start hstart
  refine ⟨hterms, d, e', hdeal, Dealing.ids_eq_range hdeal, r₀.placements xs, hsigners, ?_, ?_,
    hshares, fun k s hks => ?_⟩
  · rw [hsigners, List.length_map, ← hlen, ← hshares.length_eq, List.length_map]
  · have hdistinct : (r₀.attempts.map Attempt.signer).Nodup := hattempts ▸ nodup_candidates _
    rw [hsigners, List.map_map]
    exact nodup_placements hdistinct xs
  · obtain ⟨event, ack, hreceipt⟩ := exists_receipt (idle_start hstart) hminer hks
    refine ⟨?_, ?_, event, ack, hreceipt⟩
    · obtain ⟨i, p, ha, -⟩ := mem_signers_of_placement hks
      have hk : k ∈ r₀.attempts.map Attempt.signer :=
        List.mem_map.mpr ⟨_, List.mem_of_getElem? ha, rfl⟩
      rw [hattempts] at hk
      exact List.mem_eraseDups.mp hk
    · have hreach := hreceipt.reachable
      have hrequest : r₀.request = request := congrArg Terms.request hterms
      rw [inbox, hrequest] at hreach
      cases hl : request.inboxes.lookup k with
      | none => simp [hl] at hreach
      | some relays =>
        refine ⟨relays, rfl, ?_⟩
        rintro rfl
        simp [hl] at hreach

/-- The share of a single signer is the signer's in the record. -/
theorem single_signer_holds_share : ∃ r xs record,
    startDealing Unanimity.dealer Unanimity.settings (Unanimity.request 1) 0 Unanimity.ones =
      .ok r ∧ r.HonestMiner xs ∧ (r.steps xs).1.result? = some (.ok record) ∧
    ∃ k s event ack, record.signers = [(k, s.publicShare.toHex)] ∧
      k ∈ (Unanimity.request 1).candidates ∧ r.Receipt xs k s event ack := by
  obtain ⟨r, xs, record, hstart, hhonest, hresult⟩ :=
    Unanimity.succeeds_honestly (by decide) (by decide) Unanimity.single rfl
  obtain ⟨-, d, e', -, -, holders, hsigners, hlen, -, -, hall⟩ :=
    signers_hold_shares hstart hhonest hresult
  have hone : holders.length = 1 := by
    rw [hsigners, List.length_map] at hlen
    exact hlen
  obtain ⟨⟨k, s⟩, rfl⟩ := List.length_eq_one_iff.mp hone
  obtain ⟨hk, -, event, ack, hreceipt⟩ := hall k s List.mem_cons_self
  exact ⟨r, xs, record, hstart, hhonest, hresult, k, s, event, ack, hsigners, hk, hreceipt⟩

/-- **A successful run's record is read back as it was built**, if its threshold is in the range
of readers and none of the shares dealt has the value zero. If the threshold is above that
range, readers refuse the record for it. -/
theorem record_read_back (hstart : startDealing dealer settings request now entropy = .ok r₀)
    (hresult : (r₀.steps xs).1.result? = some (.ok record)) :
    (Record.maxThreshold < request.threshold →
      Record.ofEvent record.event settings.kinds.registration =
        .error (.refused (.invalidRecord .thresholdOutOfRange))) ∧
    (request.threshold ≤ Record.maxThreshold →
      (∀ d e', Dealing.deal dealer.secret request.threshold request.maxSigners entropy =
        .ok (d, e') → ∀ s ∈ d.shares, s.secret ≠ 0) →
      Record.ofEvent record.event settings.kinds.registration = .ok record) := by
  obtain ⟨d, e', hdeal, hstart⟩ := startDealing_eq_ok hstart
  obtain ⟨hshares, handler, random, hbuild⟩ := recorded_of_result hstart hresult
  refine ⟨Record.ofEvent_build_of_lt hbuild, fun hle hne => ?_⟩
  obtain ⟨-, ⟨hthreshold, hmax, -⟩, -⟩ := Dealing.deal_eq_ok hdeal
  obtain ⟨-, hlen, -, -, -⟩ := start_eq_ok hstart
  refine Record.ofEvent_build hbuild hthreshold hle ?_ fun entry hentry => ?_
  · have hmax : request.threshold.toNat ≤ request.maxSigners.toNat := UInt32.le_iff_toNat_le.mp hmax
    rw [List.length_map, ← List.length_map (f := Prod.snd), hshares.length_eq, hlen]
    exact hmax
  · -- An entry is the text of a share that was dealt, and with a value other than zero it decodes.
    obtain ⟨⟨k, s⟩, hks, rfl⟩ := List.mem_map.mp hentry
    have hs : s ∈ d.shares := hshares.mem_iff.mp (List.mem_map.mpr ⟨_, hks, rfl⟩)
    have hlegible := (Dealing.legible_iff hdeal hs).mpr (hne d e' hdeal s hs)
    exact ⟨s.publicShare, by
      rw [receipt, PublicShare.ofHex_toHex, PublicShare.decode_encode hlegible.publicShare]⟩

/-- The record of a single signer is read back. -/
theorem single_signer_read_back : ∃ r xs record,
    startDealing Unanimity.dealer Unanimity.settings (Unanimity.request 1) 0 Unanimity.ones =
      .ok r ∧ (r.steps xs).1.result? = some (.ok record) ∧
    Record.ofEvent record.event Unanimity.settings.kinds.registration = .ok record := by
  obtain ⟨r, xs, record, hstart, -, hresult⟩ :=
    Unanimity.succeeds_honestly (by decide) (by decide) Unanimity.single rfl
  refine ⟨r, xs, record, hstart, hresult,
    (record_read_back hstart hresult).2 (by decide) fun d e' hdeal s hs => ?_⟩
  rw [Unanimity.deal_ones (by decide) (by decide)] at hdeal
  obtain ⟨rfl, -⟩ := Prod.mk.inj (Except.ok.inj hdeal)
  have hvalues : ∀ t ∈ (Dealing.ofPolynomial (List.replicate 1 1) (Point.ofScalar 1) 1).shares,
      t.secret ≠ 0 := by decide
  exact hvalues s hs

/-- The record of a run of twenty-one signers, all of them needed, is refused. -/
theorem many_signers_refused : ∃ r xs record,
    startDealing Unanimity.dealer Unanimity.settings (Unanimity.request 21) 0 Unanimity.ones =
      .ok r ∧ (r.steps xs).1.result? = some (.ok record) ∧
    Record.ofEvent record.event Unanimity.settings.kinds.registration =
      .error (.refused (.invalidRecord .thresholdOutOfRange)) := by
  obtain ⟨r, xs, record, hstart, hresult, -⟩ :=
    Unanimity.succeeds (by decide) (by decide) Unanimity.blank
  obtain ⟨d, e', -, hstart'⟩ := startDealing_eq_ok hstart
  obtain ⟨-, handler, random, hbuild⟩ := recorded_of_result hstart' hresult
  have hlt : Record.maxThreshold < (Unanimity.request 21).threshold := by decide
  exact ⟨r, xs, record, hstart, hresult, Record.ofEvent_build_of_lt hbuild hlt⟩

end KeyQuorum.Run
