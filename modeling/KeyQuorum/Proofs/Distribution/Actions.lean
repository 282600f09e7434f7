import Mathlib.Tactic.Lemma
import KeyQuorum.Proofs.Distribution.Ledger

/-!
What a run says, and when.

A stimulus is for one attempt at most, and the others stay as they are. The attempt says what
belongs to the phase it enters, so whatever it asked or told can be read off the phases it came
through. The record is handed over when the run concludes, and at no other time.
-/

namespace KeyQuorum

namespace Run

/-- What is said at a stimulus, between a run and what becomes of it. -/
inductive Utters (r : Run) (x : Stimulus) (r' : Run) : List Action → Prop where
  | attempt {i : Nat} {a : Attempt} {q : Phase} {actions : List Action} (hx : x.attempt? = some i)
      (ha : r.attempts[i]? = some a)
      (hattempts : r'.attempts = r.attempts.modify i fun a => { a with phase := q })
      (hspeaks : r.Speaks i a.signer a.phase q actions) : Utters r x r' actions
  | aside {actions : List Action} (hattempts : r'.attempts = r.attempts)
      (hactions : ∀ action ∈ actions, ∃ percent, action = .progress percent) :
    Utters r x r' actions
  | announce {placed : List (PublicKey × String)} {record : Record} (hx : x = .conclude)
      (hattempts : r'.attempts = r.attempts) (hstage : r.stage = .delivering)
      (hended : ∀ a ∈ r.attempts, a.phase.hasEnded = true)
      (hfinish : r.admission.finish = .ok placed) (hrecord : r'.stage = .announcing record none) :
    Utters r x r' [.announce [r.request.coordinator] record.event]

variable {r r' : Run} {x : Stimulus} {i j : Nat} {k : PublicKey} {q : Phase} {a : Attempt}
  {actions : List Action} {action : Action}

/-! ### Every stimulus -/

lemma Utters.silent (h : r'.attempts = r.attempts) : r.Utters x r' [] :=
  .aside h fun _ => nofun

lemma hear_utters (ha : r.attempts[i]? = some a) (input : Delivery.Input) :
    r.Utters (.hear i input) (r.stepAttempt i a (.hear i input)).1
      (r.stepAttempt i a (.hear i input)).2 := by
  cases hp : a.phase with
  | delivering s d =>
    simp only [stepAttempt, hp, deliver]
    split
    · exact .attempt rfl ha rfl (.stays (by rw [hp]; rfl))
    · exact .attempt (q := .ended .accepted) rfl ha rfl (speaks_ended (by rw [hp]; rfl) _)
    · exact .attempt (q := .ended (.failed _)) rfl ha rfl (speaks_ended (by rw [hp]; rfl) _)
  | _ => simp only [stepAttempt, hp]; exact .silent rfl

lemma work_utters (difficulty : Nat) :
    r.Utters (.work i difficulty) (r.stepAttempt i a (.work i difficulty)).1
      (r.stepAttempt i a (.work i difficulty)).2 := by
  cases hp : a.phase with
  | mining s draft =>
    simp only [stepAttempt, hp]
    refine .aside rfl fun action haction => ?_
    split at haction
    · obtain ⟨percent, -, rfl⟩ := List.mem_map.mp haction
      exact ⟨percent, rfl⟩
    · cases haction
  | _ => simp only [stepAttempt, hp]; exact .silent rfl

lemma announce_utters {placed : List (PublicKey × String)} (hstage : r.stage = .delivering)
    (hended : ∀ a ∈ r.attempts, a.phase.hasEnded = true)
    (hfinish : r.admission.finish = .ok placed) :
    r.Utters .conclude (r.announce placed).1 (r.announce placed).2 := by
  unfold announce
  split
  · exact .silent rfl
  · simp only
    split
    · exact .silent rfl
    · exact .announce rfl rfl hstage hended hfinish rfl

/-- **What a stimulus makes a run say.** -/
theorem step_utters (r : Run) (x : Stimulus) : r.Utters x (r.step x).1 (r.step x).2 := by
  cases r.step_effect x with
  | @attempt i a hm hstage hx ha =>
    rw [hm]
    cases x with
    | advance j =>
      obtain rfl := Option.some.inj hx
      obtain ⟨q, -, henters, hspeaks⟩ := advance_enters ha
      exact .attempt rfl ha henters.attempts hspeaks
    | work j difficulty => exact work_utters difficulty
    | mined j result =>
      obtain rfl := Option.some.inj hx
      obtain ⟨q, -, henters, hspeaks⟩ := mined_enters hstage ha result
      exact .attempt rfl ha henters.attempts hspeaks
    | hear j input =>
      obtain rfl := Option.some.inj hx
      exact hear_utters ha input
    | _ => cases hx
  | conclude hm hstage hx hended hfinish =>
    rw [hm, hx]
    exact announce_utters hstage hended hfinish
  | short hm | taken hm | refused hm | unanswered hm | nothing hm =>
    rw [hm]
    exact .silent rfl

lemma Utters.attempts_of_ne (h : r.Utters x r' actions) (hx : x.attempt? ≠ some j) :
    r'.attempts[j]? = r.attempts[j]? := by
  cases h with
  | @attempt i a q _ hi _ hattempts _ =>
    have hij : i ≠ j := fun hij => hx (hij ▸ hi)
    rw [hattempts, List.getElem?_modify]
    simp [hij]
  | aside hattempts => rw [hattempts]
  | announce _ hattempts => rw [hattempts]

lemma attempts_step_of_ne (hx : x.attempt? ≠ some j) :
    (r.step x).1.attempts[j]? = r.attempts[j]? :=
  (r.step_utters x).attempts_of_ne hx

/-! ### Which phase an action belongs to -/

lemma mem_utterance_mine {draft : Draft} :
    .mine j draft ∈ r.utterance i k q ↔ j = i ∧ ∃ s, q = .mining s draft := by
  cases q with
  | mining s draft' => simp [utterance, eq_comm]
  | ended how =>
    cases h : how.report? <;> simp [utterance, h, tell]
  | _ => simp [utterance]

lemma mem_utterance_outcome {k' : PublicKey} {error : Option DistributionError} :
    .outcome k' error ∈ r.utterance i k q ↔
      r.settings.reporting = true ∧ k' = k ∧ ∃ how, q = .ended how ∧ how.report? = some error := by
  cases q with
  | ended how =>
    cases h : how.report? with
    | none => simp [utterance, h]
    | some e =>
      simp only [utterance, h, Option.map_some, Option.getD_some, tell]
      split
      · next hreporting => simp [hreporting, h, eq_comm]
      · next hreporting => simp [hreporting]
  | _ => simp [utterance]

lemma announce_notMem_utterance (relays : List String) (event : Event) :
    .announce relays event ∉ r.utterance i k q := by
  cases q with
  | ended how =>
    cases h : how.report? <;> simp [utterance, h, tell]
  | _ => simp [utterance]

/-- The attempt has just entered a phase that the action belongs to. -/
structure Entered (r r' : Run) (i : Nat) (a : Attempt) (q : Phase) (action : Action) : Prop where
  before : r.attempts[i]? = some a
  after : r'.attempts[i]? = some ⟨a.signer, q⟩
  later : a.phase.standing.rank < q.standing.rank
  said : action ∈ r.utterance i a.signer q

/-- Whatever is said belongs to a phase just entered, but for the progress and the record. -/
lemma Utters.said_cases (h : r.Utters x r' actions) (ha : action ∈ actions) :
    (∃ i a q, r.Entered r' i a q action) ∨ (∃ percent, action = .progress percent) ∨
      ∃ record, action = .announce [r.request.coordinator] record.event ∧
        r'.stage = .announcing record none := by
  cases h with
  | @attempt i a q _ hx hi hattempts hspeaks =>
    cases hspeaks with
    | enters hrank =>
      refine .inl ⟨i, a, q, hi, ?_, hrank, ha⟩
      rw [hattempts, List.getElem?_modify, hi]
      simp
    | stays => cases ha
  | aside _ hactions => exact .inr (.inl (hactions action ha))
  | @announce placed record _ _ _ _ _ hrecord =>
    exact .inr (.inr ⟨record, List.mem_singleton.mp ha, hrecord⟩)

lemma entered_of_mine {draft : Draft} (h : .mine i draft ∈ (r.step x).2) :
    ∃ a s, r.Entered (r.step x).1 i a (.mining s draft) (.mine i draft) := by
  rcases (r.step_utters x).said_cases h with ⟨j, a, q, hentered⟩ | ⟨percent, hp⟩ | ⟨record, hr, -⟩
  · obtain ⟨rfl, s, rfl⟩ := mem_utterance_mine.mp hentered.said
    exact ⟨a, s, hentered⟩
  · cases hp
  · cases hr

lemma Speaks.eq_utterance {p : Phase} (h : r.Speaks i k p q actions)
    (hrank : p.standing.rank < q.standing.rank) : actions = r.utterance i k q := by
  cases h with
  | enters => rfl
  | stays hstays => exact absurd hrank (hstays ▸ Nat.lt_irrefl _)

lemma Utters.speaks (h : r.Utters x r' actions) {p : Phase} (hp : r.attempts[i]? = some ⟨k, p⟩)
    (hq : r'.attempts[i]? = some ⟨k, q⟩) : q = p ∨ r.Speaks i k p q actions := by
  -- An attempt that the stimulus is not for stands as it stood.
  have hstays (hattempts : r'.attempts[i]? = r.attempts[i]?) : q = p := by
    rw [hattempts, hp] at hq
    cases hq
    rfl
  cases h with
  | @attempt j a q' _ _ ha hattempts hspeaks =>
    by_cases hij : j = i
    · subst hij
      rw [hattempts, List.getElem?_modify, hp] at hq
      rw [hp] at ha
      cases ha
      obtain rfl : q' = q := by simpa using hq
      exact .inr hspeaks
    · refine .inl (hstays ?_)
      rw [hattempts, List.getElem?_modify]
      simp [hij]
  | aside hattempts => exact .inl (hstays (by rw [hattempts]))
  | announce _ hattempts => exact .inl (hstays (by rw [hattempts]))

/-- Whatever mines has mined before, or its draft has just been given to the miner. -/
lemma mining_step {s : KeyShare} {draft : Draft}
    (h : (r.step x).1.attempts[i]? = some ⟨k, .mining s draft⟩) :
    r.attempts[i]? = some ⟨k, .mining s draft⟩ ∨ .mine i draft ∈ (r.step x).2 := by
  obtain ⟨p, hp, hnext | hended⟩ := next_or_accepted h
  · -- The phase alone does not tell the draft, but what may lead to it does.
    have hbefore : p = .mining s draft ∨ p.standing.rank < (Standing.mining s).rank := by
      cases hnext with
      | stay => exact .inl rfl
      | wait hwaits _ =>
        rcases hwaits with rfl | rfl <;> exact .inr (by simp [Phase.standing, Standing.rank])
      | mine => exact .inr (Nat.lt_succ_self 3)
    rcases hbefore with rfl | hrank
    · exact .inl hp
    · rcases (r.step_utters x).speaks hp h with rfl | hspeaks
      · exact absurd hrank (Nat.lt_irrefl _)
      · rw [hspeaks.eq_utterance hrank]
        exact .inr (mem_utterance_mine.mpr ⟨rfl, s, rfl⟩)
  · cases hended

lemma entered_of_outcome {error : Option DistributionError} (h : .outcome k error ∈ (r.step x).2) :
    ∃ i a how, a.signer = k ∧ how.report? = some error ∧
      r.Entered (r.step x).1 i a (.ended how) (.outcome k error) := by
  rcases (r.step_utters x).said_cases h with ⟨i, a, q, hentered⟩ | ⟨percent, hp⟩ | ⟨record, hr, -⟩
  · obtain ⟨-, hk, how, rfl, hreport⟩ := mem_utterance_outcome.mp hentered.said
    exact ⟨i, a, how, hk.symm, hreport, hentered⟩
  · cases hp
  · cases hr

end Run

end KeyQuorum
