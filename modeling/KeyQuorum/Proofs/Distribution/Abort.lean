import Mathlib.Tactic.Lemma
import KeyQuorum.Proofs.Distribution.AfterAbort
import KeyQuorum.Proofs.Distribution.Outcome
import KeyQuorum.Proofs.Distribution.Actions

/-!
An abort is final.

One failure more than there are candidates to spare aborts a run. From then on no claim is granted
and nobody goes on to the miner: whoever waits for it gives its share back, and nothing is told of
it. Whoever has sent a share already may still place it, but with a share left in the pool the
quorum is out of reach, and the run ends for want of signers.
-/

namespace KeyQuorum

namespace Run

variable {dealer : KeyPair} {settings : Settings} {request : Request} {now : Timestamp}
  {shares : List KeyShare} {entropy : Entropy} {r₀ r : Run} {i : Nat} {k : PublicKey}
  {s : KeyShare} {draft : Draft}

/-! ### Whoever waits for the miner -/

lemma ebb_steps (h : r.admission.aborted = true) (xs : List Stimulus) :
    r.admission.Ebb (r.steps xs).1.admission :=
  Floor.Steps.ebb h (floor_steps r xs)

lemma mine_notMem_step (h : r.admission.aborted = true) (x : Stimulus) :
    .mine i draft ∉ (r.step x).2 := by
  intro hmem
  obtain ⟨a, s, hentered⟩ := entered_of_mine hmem
  have hafter := standings_of_attempt hentered.after
  have hbefore := standings_of_attempt hentered.before
  have hmining := Floor.Steps.mining_of_aborted h (floor_step r x) hafter
  rw [hbefore] at hmining
  -- It mined before, then, and cannot have come to it just now.
  have hrank := hentered.later
  rw [Option.some.inj hmining] at hrank
  exact Nat.lt_irrefl _ hrank

lemma mine_notMem (h : r.admission.aborted = true) (xs : List Stimulus) :
    .mine i draft ∉ (r.steps xs).2 := by
  induction xs generalizing r with
  | nil => exact List.not_mem_nil
  | cons x xs ih =>
    have hnext : (r.step x).1.admission.aborted = true := (ebb_steps h [x]).aborted
    exact fun hmem => (List.mem_append.mp hmem).elim (mine_notMem_step h x) (ih hnext)

/-- The attempt waits for the miner, or it has given its share back. -/
def Withdraws (r : Run) (i : Nat) (k : PublicKey) (s : KeyShare) (draft : Draft) : Prop :=
  r.attempts[i]? = some ⟨k, .ready s draft⟩ ∨
    r.attempts[i]? = some ⟨k, .ended .abandoned⟩ ∧ s ∈ r.admission.pool

lemma ready_step (h : r.admission.aborted = true) (hsound : r.floor.Sound) (hsettled : r.Settled)
    (ha : r.attempts[i]? = some ⟨k, .ready s draft⟩) (x : Stimulus) :
    (r.step x).1.Withdraws i k s draft := by
  have hstage := hsettled.delivering ha rfl
  by_cases hfor : x.attempt? = some i
  · rw [step_attempt hstage ha x hfor]
    cases x with
    | advance j =>
      obtain rfl := Option.some.inj hfor
      simp only [stepAttempt, awaitTurn]
      -- its turn may have come, but the abort is seen before the miner is used
      split
      · have hlookup : r.admission.held.lookup j = some s :=
          hsound.holds.lookup hsound.accounts.slots (standings_of_attempt ha) rfl
        simp only [useTurn, h, if_true]
        refine .inr ⟨getElem?_setPhase ha _, ?_⟩
        show s ∈ (r.admission.giveBack j).pool
        rw [Admission.pool_giveBack, hlookup]
        exact List.mem_append_right _ List.mem_cons_self
      · exact .inl ha
    | _ => exact .inl ha
  · exact .inl ((attempts_step_of_ne hfor).trans ha)

lemma Withdraws.step (hw : r.Withdraws i k s draft) (h : r.admission.aborted = true)
    (hsound : r.floor.Sound) (hsettled : r.Settled) (x : Stimulus) :
    (r.step x).1.Withdraws i k s draft := by
  rcases hw with ha | ⟨ha, hpool⟩
  · exact ready_step h hsound hsettled ha x
  · exact .inr ⟨ended_step ha rfl x, (ebb_steps h [x]).pool.subset hpool⟩

lemma Withdraws.outcome_notMem (hw : r.Withdraws i k s draft) {x : Stimulus}
    (hnext : (r.step x).1.Withdraws i k s draft) (hn : (r.attempts.map Attempt.signer).Nodup)
    (error : Option DistributionError) : .outcome k error ∉ (r.step x).2 := by
  intro hmem
  obtain ⟨j, a, how, rfl, hreport, hentered⟩ := entered_of_outcome hmem
  obtain ⟨p, hp⟩ : ∃ p, r.attempts[i]? = some ⟨a.signer, p⟩ := by
    rcases hw with ha | ⟨ha, -⟩ <;> exact ⟨_, ha⟩
  obtain rfl : j = i := eq_of_signer hn hentered.before hp rfl
  have hafter := hentered.after
  rcases hnext with ha | ⟨ha, -⟩
  · rw [ha] at hafter
    cases hafter
  · rw [ha] at hafter
    cases hafter
    cases hreport

theorem withdraws_steps (h : r.admission.aborted = true) (hsound : r.floor.Sound)
    (hsettled : r.Settled) (hn : (r.attempts.map Attempt.signer).Nodup)
    (hw : r.Withdraws i k s draft) (xs : List Stimulus) :
    (r.steps xs).1.Withdraws i k s draft ∧ ∀ error, .outcome k error ∉ (r.steps xs).2 := by
  -- That the run is aborted, sound and settled is kept, and is needed for the next stimulus.
  induction xs generalizing r with
  | nil => exact ⟨hw, fun _ => List.not_mem_nil⟩
  | cons x xs ih =>
    have hnext := hw.step h hsound hsettled x
    have hn' : ((r.step x).1.attempts.map Attempt.signer).Nodup := by rwa [signers_step]
    obtain ⟨hlast, hquiet⟩ := ih (ebb_steps h [x]).aborted (hsound.steps (floor_step r x))
      (hsettled.step x) hn' hnext
    refine ⟨hlast, fun error hmem => ?_⟩
    exact (List.mem_append.mp hmem).elim (hw.outcome_notMem hnext hn error) (hquiet error)

/-! ### How an aborted run ends -/

/-- An aborted run goes on delivering, or it has ended for want of signers. -/
def Short (r : Run) : Prop :=
  r.admission.aborted = true → r.stage = .delivering ∨
    r.stage = .finished (.error (.insufficientSigners r.admission.accepted.length
      r.admission.required))

lemma Short.step (h : r.Short) (x : Stimulus) : (r.step x).1.Short := by
  have hopen {record : Record} {refusal : Option String}
      (hstage : r.stage = .announcing record refusal) : r.admission.aborted ≠ true := fun hab => by
    have hend := h hab
    rw [hstage] at hend
    rcases hend with hend | hend <;> cases hend
  cases r.step_effect x with
  | attempt hm hstage =>
    rw [hm]
    exact fun _ => .inl ((stage_stepAttempt r _ _ x).trans hstage)
  | conclude hm _ _ _ hfinish =>
    -- A verdict in favour rules an abort out.
    obtain ⟨haborted, -⟩ := Admission.finish_eq_ok.mp hfinish
    obtain ⟨entropy, stage, hannounce⟩ := r.exists_announce _
    rw [hm, hannounce]
    intro hab
    cases haborted.symm.trans hab
  | short hm _ _ _ hfinish =>
    rw [hm, Admission.finish_eq_error hfinish]
    exact fun _ => .inr rfl
  | taken hm hstage | refused hm hstage | unanswered hm hstage =>
    rw [hm]
    exact fun hab => absurd hab (hopen hstage)
  | nothing hm => rwa [hm]

lemma Short.steps (h : r.Short) (xs : List Stimulus) : (r.steps xs).1.Short :=
  kept_steps (fun _ h x => h.step x) h xs

lemma Underway.accepted_lt (h : Underway request r) (hpool : r.admission.pool ≠ []) :
    r.admission.accepted.length < request.maxSigners.toNat := by
  have hcount := h.count
  have hpos := List.length_pos_iff.mpr hpool
  have hrequired := h.required
  omega

/-- What is left of an aborted run, however it goes on. -/
structure Over (request : Request) (r : Run) (ys : List Stimulus) : Prop where
  aborted : (r.steps ys).1.admission.aborted = true
  pool : (r.steps ys).1.admission.pool ≠ []
  /-- No claim yields a share, whether it waits or not. -/
  claim : ∀ slot s, ((r.steps ys).1.admission.claim slot).1 ≠ .share s
  resume : ∀ ticket slot s, ((r.steps ys).1.admission.resume ticket slot).1 ≠ .share s
  /-- Whoever holds a share held it before. -/
  held : (r.steps ys).1.admission.held ⊆ r.admission.held
  mine : ∀ i draft, .mine i draft ∉ (r.steps ys).2
  /-- Whoever waited for the miner still does, or has given its share back unreported. -/
  ready : ∀ (i : Nat) k s draft, r.attempts[i]? = some ⟨k, .ready s draft⟩ →
    (r.steps ys).1.Withdraws i k s draft ∧ ∀ error, .outcome k error ∉ (r.steps ys).2
  result : ∀ result, (r.steps ys).1.result? = some result → ∃ n < request.maxSigners.toNat,
    result = .error (.insufficientSigners n request.maxSigners.toNat)
  /-- When nothing moves any more, whoever waited is abandoned and the run ends so. -/
  still : (r.steps ys).1.Still →
    (∀ (i : Nat) k s draft, r.attempts[i]? = some ⟨k, .ready s draft⟩ →
      (r.steps ys).1.attempts[i]? = some ⟨k, .ended .abandoned⟩) ∧
    ∃ n < request.maxSigners.toNat, ((r.steps ys).1.step .conclude).1.result? =
      some (.error (.insufficientSigners n request.maxSigners.toNat))

/-- The result of a run that ends short, now or at the conclusion. -/
lemma Short.result (h : r.Short) (hab : r.admission.aborted = true)
    {result : Except DistributionError Record} (hresult : r.result? = some result) :
    result = .error (.insufficientSigners r.admission.accepted.length r.admission.required) := by
  unfold result? at hresult
  rcases h hab with hstage | hstage <;> rw [hstage] at hresult
  · cases hresult
  · exact (Option.some.inj hresult).symm

lemma Short.conclude (h : r.Short) (hab : r.admission.aborted = true)
    (hended : ∀ a ∈ r.attempts, a.phase.hasEnded = true) : (r.step .conclude).1.result? =
      some (.error (.insufficientSigners r.admission.accepted.length r.admission.required)) := by
  rcases h hab with hstage | hstage
  · rw [step_conclude_error hstage hended (Admission.finish_of_aborted hab)]
    rfl
  · simp only [Run.step, hstage, result?]

/-- **An aborted run is over**, however it goes on. -/
theorem over_of_aborted (hunderway : ∀ ys, Underway request (r.steps ys).1) (hshort : r.Short)
    (hbacked : r.admission.Backed) (hab : r.admission.aborted = true) (ys : List Stimulus) :
    r.Over request ys := by
  have hnow : Underway request r := hunderway []
  have hlater := hunderway ys
  have hebb := ebb_steps hab ys
  have hpool := hebb.pool_ne_nil (hbacked hab)
  -- whoever has sent its share may still place it, but the pool keeps the quorum out of reach
  have hlt := hlater.accepted_lt hpool
  have hend := hshort.steps ys
  have hn : (r.attempts.map Attempt.signer).Nodup := hnow.signers ▸ nodup_candidates _
  have hready : ∀ (i : Nat) k s draft, r.attempts[i]? = some ⟨k, .ready s draft⟩ →
      (r.steps ys).1.Withdraws i k s draft ∧ ∀ error, .outcome k error ∉ (r.steps ys).2 :=
    fun i k s draft ha => withdraws_steps hab hnow.sound hnow.settled hn (.inl ha) ys
  refine ⟨hebb.aborted, hpool, Admission.claim_of_aborted hebb.aborted,
    Admission.resume_of_aborted hebb.aborted, hebb.held, fun i draft => mine_notMem hab ys, hready,
    fun result hresult => ?_, fun hstill => ?_⟩
  · exact ⟨_, hlt, hlater.required ▸ hend.result hebb.aborted hresult⟩
  · -- Nothing moves, so all attempts have ended, those among them that waited for the miner.
    have hended := hstill.ended hlater.settled hlater.sound hlater.orderly
      (hlater.required ▸ hlater.pos)
    refine ⟨fun i k s draft ha => ?_, _, hlt, hlater.required ▸ hend.conclude hebb.aborted hended⟩
    rcases (hready i k s draft ha).1 with hwaits | ⟨habandoned, -⟩
    · exact absurd (hended _ (List.mem_of_getElem? hwaits)) Bool.false_ne_true
    · exact habandoned

/-- **An abort is final.** A failure aborts a run just if it is one more than there are candidates
to spare, and nothing but failures is charged. Once a run is aborted it is over, in every
continuation. -/
theorem abort_is_final (hstart : start dealer settings request now shares entropy = .ok r₀)
    (xs : List Stimulus) :
    let r := (r₀.steps xs).1
    let spare := request.candidates.eraseDups.length - request.maxSigners.toNat
    (r.admission.failures = r.attempts.countP (·.phase.standing.isFailed) ∧
      r.admission.aborted = decide (spare < r.admission.failures)) ∧
    (∀ i s, (i, s) ∈ r.admission.held →
      (r.admission.fail i).1 = decide (spare < r.admission.failures + 1) ∧
      (r.admission.fail i).2.failures = r.admission.failures + 1 ∧
      (r.admission.fail i).2.aborted = (r.admission.fail i).1) ∧
    (∀ i, r.admission.Keeps (r.admission.giveBack i)) ∧ r.admission.Keeps r.admission.close ∧
    (r.admission.aborted = true → ∀ ys, r.Over request ys) := by
  intro r spare
  have hunderway : Underway request r := underway_steps hstart xs
  obtain ⟨-, -, -, hstage, -⟩ := start_eq_ok hstart
  -- What there is to spare is counted once, when the run starts.
  have hbudget : r.admission.budget = spare := by
    have hcount := congrArg List.length hunderway.signers
    have hsum := hunderway.budget
    rw [List.length_map] at hcount
    omega
  have haborted : r.admission.aborted = decide (spare < r.admission.failures) :=
    hbudget ▸ hunderway.sound.counted.aborted
  have hshort : r.Short := Short.steps (fun _ => .inl hstage) xs
  refine ⟨⟨?_, haborted⟩, fun i s hheld => ?_, fun i => Admission.keeps_giveBack _ i,
    Admission.keeps_close _,
    fun hab => over_of_aborted (fun ys => ?_) hshort (backed_steps hstart xs) hab⟩
  · -- the failures charged are the attempts that have failed
    have hfailures : r.admission.failures = r.floor.standings.countP Standing.isFailed :=
      hunderway.sound.counted.failures
    rw [hfailures, floor, List.countP_map]
    rfl
  · have hlookup : r.admission.held.lookup i = some s :=
      Admission.lookup_of_mem hunderway.sound.accounts.slots hheld
    have hkeeps := Admission.keeps_fail hlookup
    have htold : (r.admission.fail i).1 = decide (spare < r.admission.failures + 1) := by
      rw [Admission.fail_of_held hlookup, ← hbudget]
    refine ⟨htold, hkeeps.failures, ?_⟩
    rw [htold, hkeeps.aborted]
    show (r.admission.aborted || decide (r.admission.budget < r.admission.failures + 1)) = _
    rw [hbudget, haborted, ← Bool.decide_or]
    exact decide_eq_decide.mpr (by omega)
  · have hlater := underway_steps hstart (xs ++ ys)
    rwa [steps_append] at hlater

/-! ### A run with nobody to spare -/

def twoForTwo : Request :=
  { oneForTwo with
    threshold := 2
    maxSigners := 2
    inboxes := [(dealerKeys.publicKey, ["wss://relay.primal.net"]),
      (signerKeys.publicKey, ["wss://relay.primal.net"])] }

def twoShares : List KeyShare := (Dealing.ofPolynomial [7, 1] (Point.ofScalar 7) 2).shares

def twoForTwoRun : Run :=
  { oneForTwoRun with
    request := twoForTwo
    admission := Admission.start twoShares twoForTwo.candidates.eraseDups.length
    progress := Progress.start 0 2 }

lemma start_twoForTwo :
    start dealerKeys {} twoForTwo 0 twoShares (.ofBlocks [] .counting) = .ok twoForTwoRun :=
  start_eq_ok_iff.mpr ⟨by decide, by decide, by decide, by decide +kernel, rfl⟩

def stopped : List Stimulus := [.advance 0, .advance 1, .mined 0 (.error (.mining "stopped"))]

lemma twoForTwo_aborts : (twoForTwoRun.steps stopped).1.admission.aborted = true ∧
    (twoForTwoRun.steps stopped).1.attempts.map (fun a => (a.signer, a.phase.standing.isReady)) =
      [(dealerKeys.publicKey, false), (signerKeys.publicKey, true)] ∧
    ∀ a ∈ ((twoForTwoRun.steps stopped).1.steps [.advance 1]).1.attempts,
      a.phase.hasEnded = true := by
  decide +kernel

/-- One candidate fails while the other waits for the miner, which withdraws. -/
theorem waiting_signer_withdraws :
    let r := (twoForTwoRun.steps stopped).1
    start dealerKeys {} twoForTwo 0 twoShares (.ofBlocks [] .counting) = .ok twoForTwoRun ∧
      r.admission.aborted = true ∧
      ∃ s draft, r.attempts[1]? = some ⟨signerKeys.publicKey, .ready s draft⟩ ∧
        (r.steps [.advance 1]).1.attempts[1]? = some ⟨signerKeys.publicKey, .ended .abandoned⟩ ∧
        ∃ n < 2, ((r.steps [.advance 1]).1.step .conclude).1.result? =
          some (.error (.insufficientSigners n 2)) := by
  obtain ⟨haborted, hready, hended⟩ := twoForTwo_aborts
  have hover := (abort_is_final start_twoForTwo stopped).2.2.2.2 haborted [.advance 1]
  obtain ⟨habandoned, hresult⟩ := hover.still (still_of_ended hended)
  obtain ⟨s, draft, ha⟩ : ∃ s draft, (twoForTwoRun.steps stopped).1.attempts[1]? =
      some ⟨signerKeys.publicKey, .ready s draft⟩ := by
    have hone := congrArg (·[1]?) hready
    simp only [List.getElem?_map] at hone
    obtain ⟨⟨k, p⟩, ha, hp⟩ := Option.map_eq_some_iff.mp hone
    obtain ⟨rfl, hp⟩ := Prod.mk.inj hp
    cases p with
    | ready s draft => exact ⟨s, draft, ha⟩
    | _ => cases hp
  exact ⟨start_twoForTwo, haborted, s, draft, ha, habandoned 1 _ s draft ha, hresult⟩

end Run

end KeyQuorum
