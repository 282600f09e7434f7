import Mathlib.Tactic.Lemma
import KeyQuorum.Proofs.Distribution.AfterAbort
import KeyQuorum.Proofs.Distribution.Outcome
import KeyQuorum.Proofs.Distribution.Actions

/-!
No record without a quorum.

A run concludes once. If its shares are not all placed then, it ends and nothing is handed over. If
they are, its record is drawn up and, when it can be signed, handed to the coordinator. From then
on the run says nothing more: it ends at the first answer that takes the record, or when the
answers end.
-/

namespace KeyQuorum

/-- There is no run for these shares. -/
def Request.Unfit (request : Request) (shares : List KeyShare) : Prop :=
  request.threshold = 0 ∨ request.maxSigners < request.threshold ∨
    shares.length ≠ request.maxSigners.toNat

def Action.isAnnounce : Action → Bool
  | .announce .. => true
  | _ => false

namespace Run

/-- A run from its start: how it has ended, if it has, and all it asked and told. -/
def distribute (dealer : KeyPair) (settings : Settings) (request : Request) (now : Timestamp)
    (shares : List KeyShare) (entropy : Entropy) (xs : List Stimulus) :
    Option (Except DistributionError Record) × List Action :=
  match start dealer settings request now shares entropy with
  | .error e => (some (.error e), [])
  | .ok r => ((r.steps xs).1.result?, (r.steps xs).2)

def drawUp (r : Run) : Except DistributionError Record :=
  let (secret, entropy) := r.entropy.drawScalar
  Record.build r.dealer r.now r.settings.kinds.registration r.admission.accepted
    r.request.threshold (KeyPair.ofUnit secret) entropy.draw.1

def answers : List Stimulus → List RelayAnswer
  | [] => []
  | .coordinatorAnswer a :: xs => a :: answers xs
  | .coordinatorEnd :: _ => []
  | _ :: xs => answers xs

/-- The coordinator has taken nothing. -/
def Untaken (xs : List Stimulus) : Prop := ∀ a ∈ answers xs, a.refusal ≠ none

def lastRefusal? (xs : List Stimulus) : Option String :=
  ((answers xs).filterMap RelayAnswer.refusal).getLast?

variable {dealer : KeyPair} {settings : Settings} {request : Request} {now : Timestamp}
  {shares : List KeyShare} {entropy : Entropy} {r : Run} {record : Record}
  {refusal : Option String} {x : Stimulus}
  {xs ys zs : List Stimulus} {e : DistributionError} {result : Except DistributionError Record}

/-! ### With the coordinator -/

/-- How a run goes on whose record is with the coordinator: it ends at the first answer that takes
the record, or without one when the answers end; until then it waits. -/
inductive Awaits (record : Record) (refusal : Option String) (xs : List Stimulus) :
    Stage → Prop where
  | taken (h : ∃ a ∈ answers xs, a.refusal = none) :
    Awaits record refusal xs (.finished (.ok record))
  | refused (h : Untaken xs) (hend : .coordinatorEnd ∈ xs) :
    Awaits record refusal xs (.finished (.error (.coordinatorPublishFailure
      (refusalMessage ((lastRefusal? xs).or refusal)))))
  | waits (h : Untaken xs) (hend : .coordinatorEnd ∉ xs) :
    Awaits record refusal xs (.announcing record ((lastRefusal? xs).or refusal))

lemma lastRefusal?_cons {a : RelayAnswer} {reason : String} (ha : a.refusal = some reason)
    (xs : List Stimulus) (refusal : Option String) :
    (lastRefusal? (.coordinatorAnswer a :: xs)).or refusal =
      (lastRefusal? xs).or (some reason) := by
  simp only [lastRefusal?, answers, List.filterMap_cons_some ha, List.getLast?_cons]
  cases ((answers xs).filterMap RelayAnswer.refusal).getLast? <;> rfl

lemma Awaits.after_refusal {a : RelayAnswer} {reason : String} {stage : Stage}
    (h : Awaits record (some reason) xs stage) (ha : a.refusal = some reason) :
    Awaits record refusal (.coordinatorAnswer a :: xs) stage := by
  have huntaken (h : Untaken xs) : Untaken (.coordinatorAnswer a :: xs) :=
    List.forall_mem_cons.mpr ⟨by rw [ha]; nofun, h⟩
  -- Any later word of the coordinator's takes the place of this one.
  cases h with
  | taken h =>
    obtain ⟨b, hb, hnone⟩ := h
    exact .taken ⟨b, List.mem_cons_of_mem _ hb, hnone⟩
  | refused h hend =>
    rw [← lastRefusal?_cons ha xs refusal]
    exact .refused (huntaken h) (List.mem_cons_of_mem _ hend)
  | waits h hend =>
    rw [← lastRefusal?_cons ha xs refusal]
    exact .waits (huntaken h) (List.not_mem_cons_of_ne_of_not_mem nofun hend)

lemma Awaits.skip {stage : Stage} (h : Awaits record refusal xs stage)
    (hanswers : answers (x :: xs) = answers xs) (hx : x ≠ .coordinatorEnd) :
    Awaits record refusal (x :: xs) stage := by
  have hend : .coordinatorEnd ∈ x :: xs ↔ .coordinatorEnd ∈ xs := by
    simp [hx.symm]
  have hlast : lastRefusal? (x :: xs) = lastRefusal? xs := by
    rw [lastRefusal?, hanswers, lastRefusal?]
  cases h with
  | taken h => exact .taken (hanswers ▸ h)
  | refused h hin => exact hlast ▸ .refused (by rwa [Untaken, hanswers]) (hend.mpr hin)
  | waits h hout => exact hlast ▸ .waits (by rwa [Untaken, hanswers]) (mt hend.mp hout)

lemma steps_of_finished (h : r.stage = .finished result) (xs : List Stimulus) :
    r.steps xs = (r, []) := by
  induction xs with
  | nil => rfl
  | cons x xs ih =>
    have hstep : r.step x = (r, []) := by simp only [step, h]
    simp only [steps, hstep, ih, List.append_nil]

lemma steps_of_finish (hstep : r.step x = r.finish result) (xs : List Stimulus) :
    (r.steps (x :: xs)).1.stage = .finished result ∧ (r.steps (x :: xs)).2 = [] := by
  have hrest : (r.finish result).1.steps xs = ((r.finish result).1, []) := steps_of_finished rfl xs
  simp only [steps, hstep, hrest]
  exact ⟨rfl, rfl⟩

/-- **A run whose record is with the coordinator** waits for the coordinator and says nothing. -/
theorem awaits_steps (h : r.stage = .announcing record refusal) (xs : List Stimulus) :
    Awaits record refusal xs (r.steps xs).1.stage ∧ (r.steps xs).2 = [] := by
  -- the refusal is general: each one the run hears takes the place of the one before
  induction xs generalizing r refusal with
  | nil => exact ⟨h ▸ .waits (fun _ ha => absurd ha List.not_mem_nil) List.not_mem_nil, rfl⟩
  | cons x xs ih =>
    cases x with
    | coordinatorAnswer a =>
      cases ha : a.refusal with
      | none =>
        have hstep : r.step (.coordinatorAnswer a) = r.finish (.ok record) := by
          simp only [step, h, ha]
        obtain ⟨hend, hquiet⟩ := steps_of_finish hstep xs
        exact ⟨hend ▸ .taken ⟨a, List.mem_cons_self, ha⟩, hquiet⟩
      | some reason =>
        have hstep : r.step (.coordinatorAnswer a) =
            ({ r with stage := .announcing record (some reason) }, []) := by
          simp only [step, h, ha]
        obtain ⟨hawaits, hquiet⟩ :=
          ih (r := { r with stage := .announcing record (some reason) }) rfl
        simp only [steps, hstep]
        exact ⟨hawaits.after_refusal ha, hquiet⟩
    | coordinatorEnd =>
      have hstep : r.step .coordinatorEnd =
          r.finish (.error (.coordinatorPublishFailure (refusalMessage refusal))) := by
        simp only [step, h]
      obtain ⟨hend, hquiet⟩ := steps_of_finish hstep xs
      exact ⟨hend ▸ .refused (fun _ ha => absurd ha List.not_mem_nil) List.mem_cons_self, hquiet⟩
    | _ =>
      obtain ⟨hawaits, hquiet⟩ := ih h
      simp only [steps, step, h]
      exact ⟨hawaits.skip rfl (by simp), hquiet⟩

/-- What the dealer is told of a refusal: an error, and at its end the coordinator's last word. -/
lemma refusalMessage_spec (refusal : Option String) :
    "Error:".toList <+: (refusalMessage refusal).toList ∧
      (refusal.getD "coordinator did not respond").toList <:+ (refusalMessage refusal).toList := by
  unfold refusalMessage
  simp only
  split
  · next hstarts => exact ⟨List.isPrefixOf_iff_prefix.mp hstarts, List.suffix_rfl⟩
  · -- the word has to be put in front
    have herror : "Error:".toList <+: "Error: ".toList := by decide
    rw [String.toList_append]
    exact ⟨herror.trans (List.prefix_append _ _), List.suffix_append _ _⟩

/-! ### Up to the conclusion -/

/-- What hands a record over ends the deliveries. -/
lemma stage_of_announce {action : Action} (h : action ∈ (r.step x).2)
    (ha : action.isAnnounce = true) : (r.step x).1.stage ≠ .delivering := by
  rcases (r.step_utters x).said_cases h with
    ⟨i, a, q, hentered⟩ | ⟨percent, rfl⟩ | ⟨record, -, hstage⟩
  · cases action with
    | announce relays event => exact absurd hentered.said (announce_notMem_utterance relays event)
    | _ => cases ha
  · cases ha
  · rw [hstage]
    nofun

/-- Only a conclusion ends the deliveries, and only when all attempts have ended. -/
lemma conclude_of_stage (hstage : r.stage = .delivering) (h : (r.step x).1.stage ≠ .delivering) :
    x = .conclude ∧ ∀ a ∈ r.attempts, a.phase.hasEnded = true := by
  cases r.step_effect x with
  | attempt hm =>
    rw [hm] at h
    exact absurd ((stage_stepAttempt r _ _ x).trans hstage) h
  | conclude _ _ hx hended | short _ _ hx hended => exact ⟨hx, hended⟩
  | taken _ hother | refused _ hother | unanswered _ hother => cases hstage.symm.trans hother
  | nothing hm =>
    rw [hm] at h
    exact absurd hstage h

/-- A run whose deliveries are over says nothing more. -/
lemma quiet_steps (h : r.stage ≠ .delivering) (xs : List Stimulus) :
    (r.steps xs).1.stage ≠ .delivering ∧ (r.steps xs).2 = [] := by
  cases hstage : r.stage with
  | delivering => exact absurd hstage h
  | announcing record refusal =>
    obtain ⟨hawaits, hquiet⟩ := awaits_steps hstage xs
    refine ⟨fun hlast => ?_, hquiet⟩
    rw [hlast] at hawaits
    cases hawaits
  | finished result =>
    rw [steps_of_finished hstage]
    exact ⟨h, rfl⟩

/-- A run that delivers has handed nothing over. -/
lemma countP_announce_of_delivering (hlast : (r.steps xs).1.stage = .delivering) :
    (r.steps xs).2.countP Action.isAnnounce = 0 := by
  induction xs generalizing r with
  | nil => rfl
  | cons x xs ih =>
    have hnext : (r.step x).1.stage = .delivering := by
      by_contra h
      exact (quiet_steps h xs).1 hlast
    have hfirst : (r.step x).2.countP Action.isAnnounce = 0 := List.countP_eq_zero.mpr
      fun action hmem ha => stage_of_announce hmem ha hnext
    have hrest : ((r.step x).1.steps xs).2.countP Action.isAnnounce = 0 := ih hlast
    rw [steps, List.countP_append, hfirst, hrest]

/-- The run concludes after the first of the stimuli, before the others. -/
structure Concludes (r : Run) (xs ys zs : List Stimulus) : Prop where
  split : xs = ys ++ .conclude :: zs
  stage : (r.steps ys).1.stage = .delivering
  ended : ∀ a ∈ (r.steps ys).1.attempts, a.phase.hasEnded = true

/-- A run goes on delivering, or it concludes. -/
lemma delivering_or_concludes (hstage : r.stage = .delivering) (xs : List Stimulus) :
    (r.steps xs).1.stage = .delivering ∨ ∃ ys zs, r.Concludes xs ys zs := by
  induction xs generalizing r with
  | nil => exact .inl hstage
  | cons x xs ih =>
    by_cases hnext : (r.step x).1.stage = .delivering
    · rcases ih hnext with hlast | ⟨ys, zs, rfl, hlast, hended⟩
      · exact .inl hlast
      · exact .inr ⟨x :: ys, zs, rfl, hlast, hended⟩
    · obtain ⟨rfl, hended⟩ := conclude_of_stage hstage hnext
      exact .inr ⟨[], xs, rfl, hstage, hended⟩

/-! ### The conclusion -/

lemma announce_of_ok (h : r.drawUp = .ok record) :
    (r.announce r.admission.accepted).1.stage = .announcing record none ∧
      (r.announce r.admission.accepted).2 =
        [.announce [r.request.coordinator] record.event] := by
  unfold drawUp at h
  simp only [announce, KeyPair.generate_eq, h, and_self]

lemma announce_of_error (h : r.drawUp = .error e) :
    (r.announce r.admission.accepted).1.stage = .finished (.error e) ∧
      (r.announce r.admission.accepted).2 = [] := by
  unfold drawUp at h
  simp only [announce, KeyPair.generate_eq, h]
  exact ⟨rfl, rfl⟩

lemma drawUp_eq_error (h : r.drawUp = .error e) :
    e = .crypto (.messaging (.key .signingFailed)) :=
  Record.build_eq_error h

/-- After the conclusion a run goes on from there, and says nothing more. -/
lemma Concludes.steps_eq (h : r.Concludes xs ys zs) {r' : Run} {said : List Action}
    (hstep : (r.steps ys).1.step .conclude = (r', said)) (hstage : r'.stage ≠ .delivering) :
    (r.steps xs).1 = (r'.steps zs).1 ∧ (r.steps xs).2 = (r.steps ys).2 ++ said := by
  rw [h.split, steps_append, said_append, steps, hstep]
  simp only [(quiet_steps hstage zs).2, List.append_nil, and_self]

lemma Concludes.short (h : r.Concludes xs ys zs)
    (hfinish : (r.steps ys).1.admission.finish = .error e) :
    (r.steps xs).1.stage = .finished (.error e) ∧ (r.steps xs).2 = (r.steps ys).2 := by
  have hstep := step_conclude_error h.stage h.ended hfinish
  obtain ⟨hlast, hsaid⟩ := h.steps_eq hstep (by simp)
  rw [hlast, steps_of_finished rfl, hsaid]
  exact ⟨rfl, List.append_nil _⟩

structure Placed (request : Request) (r : Run) (xs ys zs : List Stimulus) : Prop
    extends r.Concludes xs ys zs where
  placed : (r.steps ys).1.admission.accepted.length = request.maxSigners.toNat

lemma Concludes.placed (h : r.Concludes xs ys zs) (hunderway : Underway request (r.steps ys).1)
    {placed : List (PublicKey × String)}
    (hfinish : (r.steps ys).1.admission.finish = .ok placed) : Placed request r xs ys zs := by
  obtain ⟨-, -, hfull, -⟩ := Admission.finish_eq_ok.mp hfinish
  have hcount := hunderway.count
  have hrequired := hunderway.required
  exact ⟨h, by omega⟩

lemma Placed.step_eq (h : Placed request r xs ys zs) (hunderway : Underway request (r.steps ys).1)
    (hbacked : (r.steps ys).1.admission.Backed) : (r.steps ys).1.step .conclude =
      (r.steps ys).1.announce (r.steps ys).1.admission.accepted := by
  have hcount := hunderway.count
  have hrequired := hunderway.required
  have hplaced := h.placed
  have hpool : (r.steps ys).1.admission.pool = [] := List.eq_nil_of_length_eq_zero (by omega)
  -- an abort would have left a share in the pool
  have hopen : (r.steps ys).1.admission.aborted = false :=
    Bool.eq_false_iff.mpr fun hab => hbacked hab hpool
  exact step_conclude_ok h.stage h.ended
    (Admission.finish_eq_ok.mpr ⟨hopen, hpool, by omega, rfl⟩)

structure Received (record : Record) (xs : List Stimulus)
    (result : Option (Except DistributionError Record)) : Prop where
  taken : result = some (.ok record) ↔ ∃ a ∈ answers xs, a.refusal = none
  refused : Untaken xs → .coordinatorEnd ∈ xs → ∃ message,
    result = some (.error (.coordinatorPublishFailure message)) ∧
      "Error:".toList <+: message.toList ∧
      ((lastRefusal? xs).getD "coordinator did not respond").toList <:+ message.toList
  waits : Untaken xs → .coordinatorEnd ∉ xs → result = none

lemma Awaits.received (h : Awaits record none xs r.stage) : Received record xs r.result? := by
  have hrefused (h : Untaken xs) : ¬ ∃ a ∈ answers xs, a.refusal = none :=
    fun ⟨a, ha, hnone⟩ => h a ha hnone
  unfold result?
  generalize r.stage = stage at h
  cases h with
  | taken h =>
    exact ⟨iff_of_true rfl h, fun hno => absurd h (hrefused hno),
      fun hno => absurd h (hrefused hno)⟩
  | refused h hend =>
    obtain ⟨hstarts, hends⟩ := refusalMessage_spec (lastRefusal? xs)
    rw [Option.or_none]
    exact ⟨iff_of_false nofun (hrefused h), fun _ _ => ⟨_, rfl, hstarts, hends⟩,
      fun _ hno => absurd hend hno⟩
  | waits h hend =>
    exact ⟨iff_of_false nofun (hrefused h), fun _ hin => absurd hin hend, fun _ _ => rfl⟩

structure Concluded (request : Request) (r : Run) (ys zs : List Stimulus)
    (run : Option (Except DistributionError Record) × List Action) : Prop where
  before : (r.steps ys).2.countP Action.isAnnounce = 0
  unsigned : ∀ e, (r.steps ys).1.drawUp = .error e →
    e = .crypto (.messaging (.key .signingFailed)) ∧ run = (some (.error e), (r.steps ys).2)
  announced : ∀ record, (r.steps ys).1.drawUp = .ok record →
    run.2 = (r.steps ys).2 ++ [.announce [request.coordinator] record.event] ∧
      Received record zs run.1

/-- **The record is handed over once all shares are placed**, and the coordinator decides. -/
theorem Placed.concluded (hstart : start dealer settings request now shares entropy = .ok r)
    (h : Placed request r xs ys zs) :
    Concluded request r ys zs ((r.steps xs).1.result?, (r.steps xs).2) := by
  have hstep := h.step_eq (underway_steps hstart ys) (backed_steps hstart ys)
  have hrequest : (r.steps ys).1.request = request :=
    congrArg Terms.request ((terms_steps r ys).trans (terms_start hstart))
  obtain ⟨r', said, hannounce⟩ : ∃ r' said,
      (r.steps ys).1.announce (r.steps ys).1.admission.accepted = (r', said) := ⟨_, _, rfl⟩
  rw [hannounce] at hstep
  refine ⟨countP_announce_of_delivering h.stage, fun e he => ⟨drawUp_eq_error he, ?_⟩,
    fun record hrecord => ?_⟩
  · have hout := announce_of_error he
    rw [hannounce] at hout
    -- no record: the run has finished, and whatever comes then changes nothing
    obtain ⟨hstage, rfl⟩ : r'.stage = .finished (.error e) ∧ said = [] := hout
    obtain ⟨hlast, hall⟩ := h.steps_eq hstep (by simp [hstage])
    rw [hlast, hall, steps_of_finished hstage, List.append_nil, result?, hstage]
  · have hout := announce_of_ok hrecord
    rw [hannounce, hrequest] at hout
    -- a record: from here on the run waits for the coordinator
    obtain ⟨hstage, rfl⟩ : r'.stage = .announcing record none ∧
      said = [.announce [request.coordinator] record.event] := hout
    obtain ⟨hlast, hall⟩ := h.steps_eq hstep (by simp [hstage])
    rw [hlast, hall]
    exact ⟨rfl, (awaits_steps hstage zs).1.received⟩

/-! ### Whole runs -/

lemma start_cases (dealer : KeyPair) (settings : Settings) (request : Request) (now : Timestamp)
    (shares : List KeyShare) (entropy : Entropy) :
    (request.Unfit shares ∧
      start dealer settings request now shares entropy = .error .invalidParameters) ∨
    (¬ request.Unfit shares ∧ request.candidates.eraseDups.length < request.maxSigners.toNat ∧
      start dealer settings request now shares entropy =
        .error (.insufficientSigners 0 request.maxSigners.toNat)) ∨
    (¬ request.Unfit shares ∧ ¬ request.candidates.eraseDups.length < request.maxSigners.toNat ∧
      ∃ r, start dealer settings request now shares entropy = .ok r) := by
  by_cases hunfit : request.Unfit shares
  · exact .inl ⟨hunfit, if_pos hunfit⟩
  · by_cases hfew : request.candidates.eraseDups.length < request.maxSigners.toNat
    · exact .inr (.inl ⟨hunfit, hfew, (if_neg hunfit).trans (if_pos hfew)⟩)
    · exact .inr (.inr ⟨hunfit, hfew, _, (if_neg hunfit).trans (if_neg hfew)⟩)

lemma unannounced_or_placed (hstart : start dealer settings request now shares entropy = .ok r)
    (xs : List Stimulus) :
    ((r.steps xs).1.result? ≠ some (.error .invalidParameters) ∧
      (r.steps xs).2.countP Action.isAnnounce = 0) ∨ ∃ ys zs, Placed request r xs ys zs := by
  obtain ⟨-, -, -, hstage, -⟩ := start_eq_ok hstart
  rcases delivering_or_concludes hstage xs with hlast | ⟨ys, zs, hconcludes⟩
  · exact .inl ⟨by simp [result?, hlast], countP_announce_of_delivering hlast⟩
  · cases hfinish : (r.steps ys).1.admission.finish with
    | error e =>
      obtain ⟨hend, hsaid⟩ := hconcludes.short hfinish
      rw [Admission.finish_eq_error hfinish] at hend
      refine .inl ⟨by simp [result?, hend], ?_⟩
      rw [hsaid]
      exact countP_announce_of_delivering hconcludes.stage
    | ok placed => exact .inr ⟨ys, zs, hconcludes.placed (underway_steps hstart ys) hfinish⟩

lemma Concluded.countP_announce {run : Option (Except DistributionError Record) × List Action}
    (h : Concluded request r ys zs run) : run.2.countP Action.isAnnounce ≤ 1 := by
  cases hdraw : (r.steps ys).1.drawUp with
  | error e =>
    obtain ⟨-, rfl⟩ := h.unsigned e hdraw
    exact h.before ▸ Nat.zero_le 1
  | ok record =>
    obtain ⟨hsaid, -⟩ := h.announced record hdraw
    rw [hsaid, List.countP_append, h.before]
    exact Nat.le_refl _

lemma Received.result_cases {result : Option (Except DistributionError Record)}
    (h : Received record xs result) : result = none ∨ result = some (.ok record) ∨
      ∃ message, result = some (.error (.coordinatorPublishFailure message)) := by
  by_cases htaken : ∃ a ∈ answers xs, a.refusal = none
  · exact .inr (.inl (h.taken.mpr htaken))
  · have huntaken : Untaken xs := fun a ha hnone => htaken ⟨a, ha, hnone⟩
    by_cases hend : Stimulus.coordinatorEnd ∈ xs
    · obtain ⟨message, hresult, -⟩ := h.refused huntaken hend
      exact .inr (.inr ⟨message, hresult⟩)
    · exact .inl (h.waits huntaken hend)

lemma Concluded.result_ne {run : Option (Except DistributionError Record) × List Action}
    (h : Concluded request r ys zs run) : run.1 ≠ some (.error .invalidParameters) ∧
      ∀ n m, run.1 ≠ some (.error (.insufficientSigners n m)) := by
  cases hdraw : (r.steps ys).1.drawUp with
  | error e =>
    obtain ⟨rfl, rfl⟩ := h.unsigned e hdraw
    exact ⟨by simp, by simp⟩
  | ok record =>
    obtain ⟨-, hreceived⟩ := h.announced record hdraw
    rcases hreceived.result_cases with hresult | hresult | ⟨message, hresult⟩ <;>
      simp [hresult]

/-- **No record without a quorum.** Whatever is asked for, and in whatever order things happen, a
record is handed over once at most, and only when a run concludes with all its shares placed.
Without the parameters or the candidates for a run nothing is said at all, and a run that ends for
want of signers has handed nothing over. -/
theorem no_record_without_quorum (dealer : KeyPair) (settings : Settings) (request : Request)
    (now : Timestamp) (shares : List KeyShare) (entropy : Entropy) (xs : List Stimulus) :
    let run := distribute dealer settings request now shares entropy xs
    let required := request.maxSigners.toNat
    let few := request.candidates.eraseDups.length < required
    run.2.countP Action.isAnnounce ≤ 1 ∧
    (run.1 = some (.error .invalidParameters) ↔ request.Unfit shares) ∧
    (¬ request.Unfit shares → few → run.1 = some (.error (.insufficientSigners 0 required))) ∧
    (request.Unfit shares ∨ few → run.2 = []) ∧
    (∀ n m, run.1 = some (.error (.insufficientSigners n m)) →
      run.2.countP Action.isAnnounce = 0) ∧
    (0 < run.2.countP Action.isAnnounce → ∃ r ys zs,
      start dealer settings request now shares entropy = .ok r ∧ Placed request r xs ys zs) ∧
    ∀ r ys zs, start dealer settings request now shares entropy = .ok r →
      Placed request r xs ys zs → Concluded request r ys zs run := by
  intro run required few
  rcases start_cases dealer settings request now shares entropy with
    ⟨hunfit, hstart⟩ | ⟨hfit, hfew, hstart⟩ | ⟨hfit, hmany, r, hstart⟩
  · have hrun : run = (some (.error .invalidParameters), []) := by
      simp only [run, distribute, hstart]
    rw [hrun, hstart]
    exact ⟨Nat.zero_le 1, iff_of_true rfl hunfit, fun hfit => absurd hunfit hfit, fun _ => rfl,
      fun _ _ _ => rfl, fun h => absurd h (Nat.lt_irrefl 0), fun _ _ _ h => absurd h (by simp)⟩
  · have hrun : run = (some (.error (.insufficientSigners 0 required)), []) := by
      simp only [run, distribute, hstart, required]
    rw [hrun, hstart]
    exact ⟨Nat.zero_le 1, iff_of_false (by simp) hfit, fun _ _ => rfl, fun _ => rfl,
      fun _ _ _ => rfl, fun h => absurd h (Nat.lt_irrefl 0), fun _ _ _ h => absurd h (by simp)⟩
  · have hrun : run = ((r.steps xs).1.result?, (r.steps xs).2) := by
      simp only [run, distribute, hstart]
    have hconcluded : ∀ {ys zs}, Placed request r xs ys zs → Concluded request r ys zs run :=
      fun hplaced => hrun ▸ hplaced.concluded hstart
    have hend : ∀ r' ys zs, start dealer settings request now shares entropy = .ok r' →
        Placed request r' xs ys zs → Concluded request r' ys zs run := by
      intro r' ys zs hstart' hplaced
      rw [hstart] at hstart'
      obtain rfl := Except.ok.inj hstart'
      exact hconcluded hplaced
    rcases unannounced_or_placed hstart xs with ⟨hresult, hquiet⟩ | ⟨ys, zs, hplaced⟩
    · have hquiet : run.2.countP Action.isAnnounce = 0 := hrun ▸ hquiet
      have hresult : run.1 ≠ some (.error .invalidParameters) := hrun ▸ hresult
      exact ⟨hquiet.trans_le (Nat.zero_le 1), iff_of_false hresult hfit,
        fun _ h => absurd h hmany, fun h => (h.elim hfit hmany).elim, fun _ _ _ => hquiet,
        fun h => absurd hquiet h.ne', hend⟩
    · obtain ⟨hparameters, hsigners⟩ := (hconcluded hplaced).result_ne
      exact ⟨(hconcluded hplaced).countP_announce, iff_of_false hparameters hfit,
        fun _ h => absurd h hmany, fun h => (h.elim hfit hmany).elim,
        fun n m h => absurd h (hsigners n m), fun _ => ⟨r, ys, zs, hstart, hplaced⟩, hend⟩

/-! ### A run that comes to a record -/

lemma drawUp_of_generate {handler : KeyPair} {rest : Entropy}
    (h : KeyPair.generate r.entropy = (some handler, rest)) :
    r.drawUp = Record.build r.dealer r.now r.settings.kinds.registration r.admission.accepted
      r.request.threshold handler rest.draw.1 := by
  rw [KeyPair.generate_eq] at h
  obtain ⟨hsecret, rfl⟩ := Prod.mk.inj h
  exact congrArg (fun k => Record.build r.dealer r.now _ _ _ k _) (Option.some.inj hsecret)

/-- When everybody does their part, all shares are placed and the record of them is signed. -/
lemma placed_of_mined {n : Nat} (hpos : 0 < n) (hn : n < 990) (m : Unanimity.Mined n) :
    ∃ r ys record, start Unanimity.dealer Unanimity.settings (Unanimity.request n) 0
        ((List.range n).map (Unanimity.share n)) { Unanimity.ones with used := n - 1 } = .ok r ∧
      (∀ zs, Placed (Unanimity.request n) r (ys ++ .conclude :: zs) ys zs) ∧
      (r.steps ys).1.drawUp = .ok record := by
  have hn' : n < 65536 := Nat.lt_trans hn (by decide)
  obtain ⟨r, -, hstart⟩ := Unanimity.exists_start hpos hn'
  obtain ⟨record, hbuild⟩ := Unanimity.exists_roll m hn'
  have hcount := Unanimity.length_candidates hn'
  obtain ⟨hstage, hended, -, hplaced, hterms, hentropy⟩ :=
    visited hstart hcount (Unanimity.welcome_visits m hn)
  obtain ⟨hdealer, hsettings, hrequest, hnow⟩ := Terms.mk.inj hterms
  refine ⟨r, _, record, hstart, fun zs => ⟨⟨rfl, hstage, hended⟩, ?_⟩, ?_⟩
  · have hmax : (Unanimity.request n).maxSigners.toNat = n := Unanimity.toNat_ofNat hn'
    rw [hplaced, List.length_map, List.length_zip, hcount, Nat.min_self, List.length_map,
      List.length_range, hmax]
  · have hgenerate := Unanimity.generate_ones
      (n - 1 + 2 * ((List.range n).map (Unanimity.share n)).length)
    rw [drawUp_of_generate (hentropy ▸ hgenerate), hdealer, hsettings, hrequest, hnow, hplaced]
    exact hbuild

/-- The record of a single signer is handed over, and the coordinator takes it or refuses it. -/
theorem single_record_announced : ∃ ys record,
    let run zs := distribute Unanimity.dealer Unanimity.settings (Unanimity.request 1) 0
      ((List.range 1).map (Unanimity.share 1)) Unanimity.ones (ys ++ .conclude :: zs)
    let taken := run [.coordinatorAnswer ⟨"c", some "busy"⟩, .coordinatorAnswer ⟨"c", none⟩]
    let refused := run [.coordinatorAnswer ⟨"c", some "full"⟩, .coordinatorEnd]
    taken.1 = some (.ok record) ∧ taken.2.countP Action.isAnnounce = 1 ∧
      .announce ["c"] record.event ∈ taken.2 ∧
      ∃ message, refused.1 = some (.error (.coordinatorPublishFailure message)) ∧
        "Error:".toList <+: message.toList ∧ "full".toList <:+ message.toList := by
  obtain ⟨r, ys, record, hstart, hplaced, hrecord⟩ :=
    placed_of_mined (by decide) (by decide) Unanimity.single
  have hconcluded zs := (no_record_without_quorum Unanimity.dealer Unanimity.settings
    (Unanimity.request 1) 0 ((List.range 1).map (Unanimity.share 1)) Unanimity.ones
    (ys ++ .conclude :: zs)).2.2.2.2.2.2 r ys zs hstart (hplaced zs)
  have hbusy := hconcluded [.coordinatorAnswer ⟨"c", some "busy"⟩, .coordinatorAnswer ⟨"c", none⟩]
  have hfull := hconcluded [.coordinatorAnswer ⟨"c", some "full"⟩, .coordinatorEnd]
  obtain ⟨hsaid, htaken⟩ := hbusy.announced record hrecord
  obtain ⟨-, hrefused⟩ := hfull.announced record hrecord
  -- The second answer takes what the first refused.
  have hfirst : ∃ a ∈ answers [.coordinatorAnswer ⟨"c", some "busy"⟩,
      .coordinatorAnswer ⟨"c", none⟩], a.refusal = none := by
    decide
  refine ⟨ys, record, htaken.taken.mpr hfirst, ?_, ?_, hrefused.refused ?_ ?_⟩
  · rw [hsaid, List.countP_append, hbusy.before]
    rfl
  · rw [hsaid]
    exact List.mem_append_right _ List.mem_cons_self
  · exact List.forall_mem_cons.mpr ⟨nofun, fun _ h => absurd h List.not_mem_nil⟩
  · exact List.mem_cons_of_mem _ List.mem_cons_self

end Run

end KeyQuorum
