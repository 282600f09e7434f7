import KeyQuorum.Proofs.Distribution.Announcement
import KeyQuorum.Proofs.Distribution.Claims

/-!
What the dealer is told of the signers accounts for the run.

Every report is of an attempt that has just ended, and an attempt ends once. So at any time the
reports are those that the attempts would give of their ends, in some order, and the tally of the
attempts can be read off them.
-/

namespace KeyQuorum

/-- What an action tells of a signer: nothing against it where it accepted, else an error. -/
def Action.report? : Action → Option (PublicKey × Option DistributionError)
  | .outcome k error => some (k, error)
  | _ => none

def reports (actions : List Action) : List (PublicKey × Option DistributionError) :=
  actions.filterMap Action.report?

def Attempt.report? (a : Attempt) : Option (PublicKey × Option DistributionError) :=
  match a.phase with
  | .ended how => how.report?.map fun error => (a.signer, error)
  | _ => none

namespace Run

/-- The reports of a run account for it: who accepted, who cannot be reached and who failed. -/
structure Reported (request : Request) (r : Run) (xs : List Stimulus)
    (told : List (PublicKey × Option DistributionError)) : Prop where
  accepted : told.countP (fun t => t.2 = none) = (r.steps xs).1.admission.accepted.length
  unreachable : ∀ k, (k, some .signerUnreachable) ∈ told ↔
    (∃ s, (k, some s) ∈ r.claims xs) ∧
      (request.inboxes.lookup k = none ∨ request.inboxes.lookup k = some [])
  failures : told.countP (fun t => t.2 ≠ none ∧ t.2 ≠ some .signerUnreachable) =
    (r.steps xs).1.admission.failures
  refused : ∀ k, (k, none) ∈ r.claims xs → k ∉ told.map Prod.fst
  abandoned : ∀ k, ⟨k, .ended .abandoned⟩ ∈ (r.steps xs).1.attempts → k ∉ told.map Prod.fst

variable {dealer : KeyPair} {settings : Settings} {request : Request} {now : Timestamp}
  {shares : List KeyShare} {entropy : Entropy} {r r' : Run} {record : Record} {x : Stimulus}
  {xs ys zs : List Stimulus} {i : Nat} {k : PublicKey} {p q : Phase} {a : Attempt}
  {actions : List Action} {error : Option DistributionError}

/-! ### Reports of attempts -/

lemma report?_eq_some : a.report? = some (k, error) ↔
    a.signer = k ∧ ∃ how, a.phase = .ended how ∧ how.report? = some error := by
  unfold Attempt.report?
  split
  · next how hp => simp [hp, and_comm]
  · next hlive =>
    refine iff_of_false nofun ?_
    rintro ⟨-, how, hp, -⟩
    exact hlive how hp

/-- A report is the attempt's utterance at its end, and the only one that is. -/
lemma reports_utterance (hreporting : r.settings.reporting = true) (i : Nat) (k : PublicKey)
    (q : Phase) : reports (r.utterance i k q) = (Attempt.report? ⟨k, q⟩).toList := by
  cases q with
  | ended how =>
    cases h : how.report? <;>
      simp [utterance, Attempt.report?, reports, Action.report?, tell, h, hreporting]
  | _ => rfl

lemma report?_eq_of_standing (h : q.standing = p.standing) (k : PublicKey) :
    Attempt.report? ⟨k, q⟩ = Attempt.report? ⟨k, p⟩ := by
  cases p <;> cases q <;> simp_all [Phase.standing, Attempt.report?]

lemma report?_of_rank (h : p.standing.rank < q.standing.rank) (k : PublicKey) :
    Attempt.report? ⟨k, p⟩ = none := by
  cases p with
  | ended how =>
    cases q <;> simp [Phase.standing, Standing.rank] at h
  | _ => rfl

lemma sublist_signers (l : List Attempt) :
    ((l.filterMap Attempt.report?).map Prod.fst).Sublist (l.map Attempt.signer) := by
  induction l with
  | nil => exact .slnil
  | cons a l ih =>
    cases h : a.report? with
    | none =>
      rw [List.filterMap_cons_none h]
      exact ih.cons a.signer
    | some t =>
      obtain ⟨k, error⟩ := t
      obtain ⟨rfl, -⟩ := report?_eq_some.mp h
      rw [List.filterMap_cons_some h]
      exact ih.cons_cons a.signer

lemma Utters.perm_reports (h : r.Utters x r' actions) (hreporting : r.settings.reporting = true) :
    (r'.attempts.filterMap Attempt.report?).Perm
      (r.attempts.filterMap Attempt.report? ++ reports actions) := by
  cases h with
  | @attempt i a q _ hx ha hattempts hspeaks =>
    obtain ⟨hi, hget⟩ := List.getElem?_eq_some_iff.mp ha
    -- The attempts before and after the one that moves report what they reported.
    obtain ⟨before, b, after, hsplit, hlen, hmodify⟩ :=
      List.exists_of_modify (fun a : Attempt => { a with phase := q }) hi
    obtain rfl : b = a := by
      rw [hsplit, ← hlen, List.getElem?_append_right (Nat.le_refl _)] at ha
      simpa using ha
    rw [hattempts, hmodify, hsplit]
    simp only [List.filterMap_append, List.filterMap_cons]
    cases hspeaks with
    | enters hrank =>
      -- It had not ended before, and now reports its end, if it is one to report.
      have hsilent : b.report? = none := report?_of_rank hrank b.signer
      rw [hsilent, reports_utterance hreporting]
      cases Attempt.report? ⟨b.signer, q⟩ with
      | none => simp
      | some t => exact List.perm_middle.trans (List.perm_append_singleton t _).symm
    | stays hstays =>
      have hsame : Attempt.report? ⟨b.signer, q⟩ = b.report? :=
        report?_eq_of_standing hstays b.signer
      rw [hsame, reports, List.filterMap_nil, List.append_nil]
  | aside hattempts hactions =>
    have hquiet : reports actions = [] := by
      refine List.filterMap_eq_nil_iff.mpr fun action haction => ?_
      obtain ⟨percent, rfl⟩ := hactions action haction
      rfl
    rw [hattempts, hquiet, List.append_nil]
  | announce _ hattempts =>
    have hquiet (relays : List String) (event : Event) :
        reports [.announce relays event] = [] := rfl
    rw [hattempts, hquiet, List.append_nil]

/-- **The reports are those of the attempts that have ended**, each once, in some order. -/
theorem perm_reports (hreporting : r.settings.reporting = true) (xs : List Stimulus) :
    ((r.steps xs).1.attempts.filterMap Attempt.report?).Perm
      (r.attempts.filterMap Attempt.report? ++ reports (r.steps xs).2) := by
  -- Each stimulus adds its own reports, and those of the rest follow.
  induction xs generalizing r with
  | nil => simp [steps, reports]
  | cons x xs ih =>
    have hsettings : (r.step x).1.settings = r.settings := congrArg Terms.settings (terms_step r x)
    have hstep := (r.step_utters x).perm_reports hreporting
    have hrest := ih (r := (r.step x).1) (hsettings ▸ hreporting)
    have hsaid : reports (r.steps (x :: xs)).2 =
        reports (r.step x).2 ++ reports ((r.step x).1.steps xs).2 := List.filterMap_append
    rw [hsaid, ← List.append_assoc]
    exact hrest.trans (hstep.append_right _)

/-! ### A run from its start -/

variable (hstart : start dealer settings request now shares entropy = .ok r)
  (hreporting : settings.reporting = true)

include hstart

lemma signers_nodup (xs : List Stimulus) :
    ((r.steps xs).1.attempts.map Attempt.signer).Nodup :=
  (underway_steps hstart xs).signers ▸ nodup_candidates _

lemma answered_of_mem (ha : a ∈ (r.steps xs).1.attempts) : r.Answered xs a.signer a.phase := by
  obtain ⟨i, hi⟩ := List.mem_iff_getElem?.mp ha
  exact answered_steps (idle_start hstart) (signers_nodup hstart []) xs hi

lemma eq_of_mem {b : Attempt} (ha : a ∈ (r.steps xs).1.attempts) (hb : b ∈ (r.steps xs).1.attempts)
    (hab : a.signer = b.signer) : a = b :=
  List.inj_on_of_nodup_map (signers_nodup hstart xs) ha hb hab

/-- Attempts that fail do so for another reason than that their signer cannot be reached. -/
lemma ne_of_failed {e : DistributionError}
    (ha : ⟨k, .ended (.failed e)⟩ ∈ (r.steps xs).1.attempts) : e ≠ .signerUnreachable := by
  cases answered_of_mem hstart ha with
  | waits hp => exact absurd hp (Phase.not_waiting_ended _)
  | served _ hp => exact hp

lemma inbox_isEmpty_iff : (r.inbox k).isEmpty = true ↔
    request.inboxes.lookup k = none ∨ request.inboxes.lookup k = some [] := by
  have hrequest : r.request = request := congrArg Terms.request (terms_start hstart)
  rw [inbox, hrequest]
  cases request.inboxes.lookup k <;> simp

lemma refused_of_mem_claims (h : (k, none) ∈ r.claims xs) :
    ⟨k, .ended .refused⟩ ∈ (r.steps xs).1.attempts := by
  obtain ⟨⟨k', p⟩, ha, rfl⟩ := attempt_of_mem_claims h
  have hanswered := answered_of_mem hstart ha
  generalize hk : (⟨k', p⟩ : Attempt).phase = p' at hanswered
  -- The claims of a signer determine how its attempt stands.
  cases hanswered with
  | waits _ hnone => exact absurd h (hnone _)
  | refused =>
    obtain rfl : p = .ended .refused := hk
    exact ha
  | unreachable _ hone => cases (hone _).mp h
  | served _ _ hone => cases (hone _).mp h

include hreporting

lemma reports_perm (xs : List Stimulus) :
    (reports (r.steps xs).2).Perm ((r.steps xs).1.attempts.filterMap Attempt.report?) := by
  have hsettings : r.settings = settings := congrArg Terms.settings (terms_start hstart)
  have hperm := perm_reports (r := r) (hsettings ▸ hreporting) xs
  have hidle : r.attempts.filterMap Attempt.report? = [] := by
    refine List.filterMap_eq_nil_iff.mpr fun a ha => ?_
    rw [Attempt.report?, idle_start hstart a ha]
  rw [hidle, List.nil_append] at hperm
  exact hperm.symm

lemma mem_reports : (k, error) ∈ reports (r.steps xs).2 ↔
    ∃ how, ⟨k, .ended how⟩ ∈ (r.steps xs).1.attempts ∧ how.report? = some error := by
  rw [(reports_perm hstart hreporting xs).mem_iff, List.mem_filterMap]
  constructor
  · rintro ⟨⟨k', p⟩, ha, hreport⟩
    obtain ⟨rfl, how, rfl, herror⟩ := report?_eq_some.mp hreport
    exact ⟨how, ha, herror⟩
  · rintro ⟨how, ha, herror⟩
    exact ⟨_, ha, report?_eq_some.mpr ⟨rfl, how, rfl, herror⟩⟩

lemma mem_signers_reports : k ∈ (reports (r.steps xs).2).map Prod.fst ↔
    ∃ how, ⟨k, .ended how⟩ ∈ (r.steps xs).1.attempts ∧ how.report?.isSome := by
  rw [List.mem_map]
  constructor
  · rintro ⟨⟨k', error⟩, hmem, rfl⟩
    obtain ⟨how, ha, hreport⟩ := (mem_reports hstart hreporting).mp hmem
    exact ⟨how, ha, hreport ▸ rfl⟩
  · rintro ⟨how, ha, hsome⟩
    obtain ⟨error, hreport⟩ := Option.isSome_iff_exists.mp hsome
    exact ⟨_, (mem_reports hstart hreporting).mpr ⟨how, ha, hreport⟩, rfl⟩

lemma nodup_reports (xs : List Stimulus) : ((reports (r.steps xs).2).map Prod.fst).Nodup := by
  rw [((reports_perm hstart hreporting xs).map Prod.fst).nodup_iff]
  exact (sublist_signers _).nodup (signers_nodup hstart xs)

lemma notMem_reports {how : Ending} (ha : ⟨k, .ended how⟩ ∈ (r.steps xs).1.attempts)
    (hsilent : how.report? = none) : k ∉ (reports (r.steps xs).2).map Prod.fst := by
  rw [mem_signers_reports hstart hreporting]
  rintro ⟨how', ha', hsome⟩
  obtain ⟨-, hp⟩ := Attempt.mk.inj (eq_of_mem hstart ha ha' rfl)
  obtain rfl : how = how' := Phase.ended.inj hp
  rw [hsilent] at hsome
  cases hsome

lemma countP_reports (f : Option DistributionError → Bool) {isSuch : Standing → Bool}
    (h : ∀ a ∈ (r.steps xs).1.attempts,
      (a.report?.map fun t => f t.2).getD false = isSuch a.phase.standing) :
    (reports (r.steps xs).2).countP (fun t => f t.2) =
      (r.steps xs).1.floor.standings.countP isSuch := by
  rw [(reports_perm hstart hreporting xs).countP_eq, List.countP_filterMap, floor, List.countP_map]
  exact List.countP_congr fun a ha => by rw [Function.comp_apply, h a ha]

lemma mem_reports_unreachable : (k, some .signerUnreachable) ∈ reports (r.steps xs).2 ↔
    (∃ s, (k, some s) ∈ r.claims xs) ∧ (r.inbox k).isEmpty = true := by
  rw [mem_reports hstart hreporting]
  constructor
  · rintro ⟨how, ha, hreport⟩
    cases how with
    | unreachable =>
      cases answered_of_mem hstart ha with
      | waits hp => exact absurd hp (Phase.not_waiting_ended _)
      | @unreachable s hinbox hone => exact ⟨⟨s, (hone (some s)).mpr rfl⟩, hinbox⟩
      | served _ hp => exact absurd hp id
    | failed e =>
      -- A failure is for another reason than a missing inbox.
      have he : e = .signerUnreachable := Option.some.inj (Option.some.inj hreport)
      exact absurd he (ne_of_failed hstart ha)
    | _ => cases hreport
  · rintro ⟨⟨s, hclaim⟩, hempty⟩
    obtain ⟨⟨k', p⟩, ha, rfl⟩ := attempt_of_mem_claims hclaim
    have hanswered := answered_of_mem hstart ha
    generalize hk : (⟨k', p⟩ : Attempt).phase = p' at hanswered
    cases hanswered with
    | waits _ hnone => exact absurd hclaim (hnone _)
    | refused hone => cases (hone _).mp hclaim
    | unreachable =>
      obtain rfl : p = .ended .unreachable := hk
      exact ⟨_, ha, rfl⟩
    | served hinbox =>
      rw [hempty] at hinbox
      cases hinbox

lemma reported (xs : List Stimulus) : Reported request r xs (reports (r.steps xs).2) := by
  have hcounted := (underway_steps hstart xs).sound.counted
  refine ⟨?_, fun k => ?_, ?_, fun k hk => ?_, fun k hk => ?_⟩
  · refine (countP_reports hstart hreporting (fun error => error = none) fun a ha => ?_).trans
      hcounted.accepted.symm
    obtain ⟨k, p⟩ := a
    cases p with
    | ended how => cases how <;> rfl
    | _ => rfl
  · rw [mem_reports_unreachable hstart hreporting, inbox_isEmpty_iff hstart]
  · refine (countP_reports hstart hreporting
      (fun error => error ≠ none ∧ error ≠ some .signerUnreachable) fun a ha => ?_).trans
      hcounted.failures.symm
    obtain ⟨k, p⟩ := a
    cases p with
    | ended how =>
      cases how with
      | failed e =>
        have he := ne_of_failed hstart ha
        simp [Attempt.report?, Ending.report?, Phase.standing, Standing.isFailed, he]
      | _ => rfl
    | _ => rfl
  · exact notMem_reports hstart hreporting (refused_of_mem_claims hstart hk) rfl
  · exact notMem_reports hstart hreporting hk rfl

/-! ### How many accepted, by the result -/

omit hreporting

lemma accepted_of_insufficient {n m : Nat}
    (h : (r.steps xs).1.result? = some (.error (.insufficientSigners n m))) :
    (r.steps xs).1.admission.accepted.length = n := by
  obtain ⟨-, -, -, hstage, -⟩ := start_eq_ok hstart
  rcases delivering_or_concludes hstage xs with hlast | ⟨ys, zs, hconcludes⟩
  · rw [result?, hlast] at h
    cases h
  cases hfinish : (r.steps ys).1.admission.finish with
  | error e =>
    have hstep := step_conclude_error hconcludes.stage hconcludes.ended hfinish
    obtain ⟨hlast, -⟩ := hconcludes.steps_eq hstep (by simp)
    rw [hlast, steps_of_finished rfl] at h ⊢
    have he : e = .insufficientSigners n m := Except.error.inj (Option.some.inj h)
    rw [Admission.finish_eq_error hfinish] at he
    exact (DistributionError.insufficientSigners.inj he).1
  | ok placed =>
    have hplaced := hconcludes.placed (underway_steps hstart ys) hfinish
    exact absurd h ((hplaced.concluded hstart).result_ne.2 n m)

lemma accepted_of_ok (h : (r.steps xs).1.result? = some (.ok record)) :
    (r.steps xs).1.admission.accepted.length = request.maxSigners.toNat := by
  obtain ⟨-, -, -, hstage, -⟩ := start_eq_ok hstart
  obtain ⟨placed, -, -, hfinish, -⟩ := ((honoured_of_delivering hstage).steps xs).recorded h
  obtain ⟨-, -, hfull, -⟩ := Admission.finish_eq_ok.mp hfinish
  have hunderway := underway_steps hstart xs
  have hcount := hunderway.count
  have hrequired := hunderway.required
  omega

omit hstart

/-- **The reports account for the run.** Whatever happens in whatever order, no candidate is told
of twice. The reports without an error are as many as the shares that were placed, which is what a
run says that ends for want of signers and what a successful run was to place. The candidates
reported out of reach are those that were given a share and have no inbox, and the other errors are
as many as the failures that were charged. -/
theorem reports_account_for_run (dealer : KeyPair) (settings : Settings) (request : Request)
    (now : Timestamp) (shares : List KeyShare) (entropy : Entropy) (xs : List Stimulus)
    (hfit : ¬ request.Unfit shares) (hreporting : settings.reporting = true) :
    let run := distribute dealer settings request now shares entropy xs
    let told := reports run.2
    (told.map Prod.fst).Nodup ∧ (∀ k ∈ told.map Prod.fst, k ∈ request.candidates) ∧
    (∀ n m, run.1 = some (.error (.insufficientSigners n m)) →
      told.countP (fun t => t.2 = none) = n) ∧
    (∀ record, run.1 = some (.ok record) →
      told.countP (fun t => t.2 = none) = request.maxSigners.toNat) ∧
    (∀ e, start dealer settings request now shares entropy = .error e → told = []) ∧
    ∀ r, start dealer settings request now shares entropy = .ok r →
      Reported request r xs told := by
  intro run told
  rcases start_cases dealer settings request now shares entropy with
    ⟨hunfit, -⟩ | ⟨-, -, hstart⟩ | ⟨-, -, r, hstart⟩
  · exact absurd hunfit hfit
  · -- too few candidates: nobody is asked, and nobody told of
    have hrun : run = (some (.error (.insufficientSigners 0 request.maxSigners.toNat)), []) := by
      simp only [run, distribute, hstart]
    have htold : told = [] := by simp only [told, hrun]; rfl
    rw [htold, hrun, hstart]
    refine ⟨List.nodup_nil, fun k hk => absurd hk List.not_mem_nil, fun n m h => ?_,
      fun record h => ?_, fun _ _ => rfl, fun r hr => ?_⟩
    · exact (DistributionError.insufficientSigners.inj (Except.error.inj (Option.some.inj h))).1
    · cases Option.some.inj h
    · cases hr
  · have hrun : run = ((r.steps xs).1.result?, (r.steps xs).2) := by
      simp only [run, distribute, hstart]
    have htold : told = reports (r.steps xs).2 := by simp only [told, hrun]
    have hreported := reported hstart hreporting xs
    rw [htold, hrun]
    refine ⟨nodup_reports hstart hreporting xs, fun k hk => ?_, fun n m h => ?_, fun record h => ?_,
      fun e he => ?_, fun r' hr' => ?_⟩
    · obtain ⟨how, ha, -⟩ := (mem_signers_reports hstart hreporting).mp hk
      have hsigner := List.mem_map_of_mem (f := Attempt.signer) ha
      rw [(underway_steps hstart xs).signers] at hsigner
      exact List.mem_eraseDups.mp hsigner
    · exact hreported.accepted.trans (accepted_of_insufficient hstart h)
    · exact hreported.accepted.trans (accepted_of_ok hstart h)
    · rw [hstart] at he
      cases he
    · rw [hstart] at hr'
      obtain rfl := Except.ok.inj hr'
      exact hreported

/-- The first candidate cannot be reached, the miner fails the second, and nobody is left. -/
def stranded : List Stimulus :=
  [.advance 0, .advance 1, .mined 1 (.error (.mining "stopped")), .conclude]

/-- Both candidates are told of, one out of reach and one for the failure charged. -/
theorem stranded_candidates_reported :
    let run := distribute dealerKeys {} oneForTwo 0 oneShare (.ofBlocks [] .counting) stranded
    ¬ oneForTwo.Unfit oneShare ∧ ({} : Settings).reporting = true ∧
    reports run.2 = [(dealerKeys.publicKey, some .signerUnreachable),
      (signerKeys.publicKey, some (.mining "stopped"))] ∧
    ∃ r, start dealerKeys {} oneForTwo 0 oneShare (.ofBlocks [] .counting) = .ok r ∧
      Reported oneForTwo r stranded (reports run.2) ∧
      (∃ s, (dealerKeys.publicKey, some s) ∈ r.claims stranded) ∧
      (r.steps stranded).1.admission.failures = 1 := by
  intro run
  have hfit : ¬ oneForTwo.Unfit oneShare := by
    rw [Request.Unfit]
    decide
  have hmany : ¬ oneForTwo.candidates.eraseDups.length < oneForTwo.maxSigners.toNat := by
    decide +kernel
  have htold : reports run.2 = [(dealerKeys.publicKey, some .signerUnreachable),
      (signerKeys.publicKey, some (.mining "stopped"))] := by
    decide +kernel
  obtain ⟨-, -, -, -, -, hreported⟩ := reports_account_for_run dealerKeys {} oneForTwo 0 oneShare
    (.ofBlocks [] .counting) stranded hfit rfl
  rcases start_cases dealerKeys {} oneForTwo 0 oneShare (.ofBlocks [] .counting) with
    ⟨hunfit, -⟩ | ⟨-, hfew, -⟩ | ⟨-, -, r, hstart⟩
  · exact absurd hunfit hfit
  · exact absurd hfew hmany
  · have hr := hreported r hstart
    refine ⟨hfit, rfl, htold, r, hstart, hr,
      ((hr.unreachable _).mp ?_).1, hr.failures.symm.trans ?_⟩
    · exact htold ▸ List.mem_cons_self
    · exact htold ▸ rfl

end Run

end KeyQuorum
