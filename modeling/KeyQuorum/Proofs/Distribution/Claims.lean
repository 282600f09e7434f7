import Mathlib.Data.List.Induction
import KeyQuorum.Proofs.Distribution.Actions

/-!
What the candidates' claims came to.

A candidate claims a share once: it is given one, or told that there is none to be had. What it was
told is kept beside the run, in the order of the answers, and from then on the phase of its attempt
shows it. Whoever was told that there is none has ended so. Whoever was given a share and cannot be
reached has ended for that, and whoever can be reached goes on from there and never ends for either.
-/

namespace KeyQuorum

/-- What a claim is told: a share, or that there is none to be had. -/
def Claim.answer? {α : Type} : Claim α → Option (Option α)
  | .share s => some (some s)
  | .refused => some none
  | .blocked => none

/-- The attempt was given a share for a signer that can be reached. -/
def Phase.Served : Phase → Prop
  | .ready .. | .mining .. | .delivering .. => True
  | .ended .abandoned | .ended .accepted => True
  | .ended (.failed e) => e ≠ .signerUnreachable
  | _ => False

def Phase.Waiting (p : Phase) : Prop := p = .idle ∨ p = .queued

lemma Phase.not_waiting_ended (how : Ending) : ¬ (Phase.ended how).Waiting := by
  rintro (h | h) <;> cases h

lemma Phase.Waiting.not_served {p : Phase} (h : p.Waiting) : ¬ p.Served := by
  rcases h with rfl | rfl <;> exact id

lemma DistributionError.ofMessage_ne (e : MessageError) : ofMessage e ≠ .signerUnreachable := by
  cases e <;> simp [ofMessage]

lemma Delivery.verdict?_ne (d : Delivery) :
    d.verdict? ≠ some (.error .signerUnreachable) := by
  unfold verdict?
  split <;> simp

namespace Run

/-- What a stimulus lets a candidate know of its claim. -/
def claim? (r : Run) : Stimulus → Option (PublicKey × Option KeyShare)
  | .advance i =>
    match r.stage, r.attempts[i]? with
    | .delivering, some ⟨k, .idle⟩ =>
      ((r.admission.wait i).resume i i).1.answer?.map fun c => (k, c)
    | .delivering, some ⟨k, .queued⟩ => (r.admission.resume i i).1.answer?.map fun c => (k, c)
    | _, _ => none
  | _ => none

/-- What the candidates are told of their claims, in order. -/
def claims : Run → List Stimulus → List (PublicKey × Option KeyShare)
  | _, [] => []
  | r, x :: xs => (r.claim? x).toList ++ (r.step x).1.claims xs

/-- How an attempt goes on, between two phases, when it is told so much of its claim. -/
inductive Learns (r : Run) (k : PublicKey) : Option (Option KeyShare) → Phase → Phase → Prop where
  | stays {p : Phase} : Learns r k none p p
  | queues : Learns r k none .idle .queued
  | refused {p : Phase} (hp : p.Waiting) : Learns r k (some none) p (.ended .refused)
  | unreachable {p : Phase} {s : KeyShare} (hp : p.Waiting)
      (hinbox : (r.inbox k).isEmpty = true) :
    Learns r k (some (some s)) p (.ended .unreachable)
  | served {p q : Phase} {s : KeyShare} (hp : p.Waiting) (hinbox : (r.inbox k).isEmpty = false)
      (hq : q.Served) : Learns r k (some (some s)) p q
  | goes {p q : Phase} (hp : p.Served) (hq : q.Served) : Learns r k none p q

/-- The claims of a signer, and what they mean for the phase of its attempt. -/
inductive Answered (r : Run) (xs : List Stimulus) (k : PublicKey) : Phase → Prop where
  | waits {p : Phase} (hp : p.Waiting) (hnone : ∀ c, (k, c) ∉ r.claims xs) : Answered r xs k p
  | refused (hone : ∀ c, (k, c) ∈ r.claims xs ↔ c = none) : Answered r xs k (.ended .refused)
  | unreachable {s : KeyShare} (hinbox : (r.inbox k).isEmpty = true)
      (hone : ∀ c, (k, c) ∈ r.claims xs ↔ c = some s) : Answered r xs k (.ended .unreachable)
  | served {p : Phase} {s : KeyShare} (hinbox : (r.inbox k).isEmpty = false) (hp : p.Served)
      (hone : ∀ c, (k, c) ∈ r.claims xs ↔ c = some s) : Answered r xs k p

variable {r r' : Run} {x : Stimulus} {xs : List Stimulus} {i : Nat} {k : PublicKey} {s : KeyShare}
  {p q : Phase} {a : Attempt} {c : Option KeyShare}

/-! ### One stimulus -/

lemma prepare_served (ha : r.attempts[i]? = some a) (s : KeyShare) :
    ∃ q, r.Enters i q (r.prepare i a.signer s).1 ∧
      ((r.inbox a.signer).isEmpty = true ∧ q = .ended .unreachable ∨
        (r.inbox a.signer).isEmpty = false ∧ q.Served) := by
  unfold prepare
  split
  · next hinbox =>
    exact ⟨_, ⟨rfl, rfl, (Admission.keeps_giveBack r.admission i).accepted⟩, .inl ⟨hinbox, rfl⟩⟩
  · next hinbox =>
    -- A failure to encrypt is another error than the one for want of an inbox, so the attempt
    -- counts as served.
    have hinbox := Bool.eq_false_iff.mpr hinbox
    simp only
    split
    · next fault _ =>
      exact ⟨.ended (.failed _), ⟨rfl, rfl, Admission.accepted_fail r.admission i⟩,
        .inr ⟨hinbox, DistributionError.ofMessage_ne fault⟩⟩
    · next payload _ =>
      let r₁ : Run := { r with entropy := r.entropy.draw.2, turn := r.turn.request i }
      have hready : r.Enters i (.ready s (r.shardDraft a.signer payload))
        (r₁.setPhase i (.ready s (r.shardDraft a.signer payload))) := ⟨rfl, rfl, rfl⟩
      obtain ⟨q, hq, henters, -⟩ := awaitTurn_cases
        (getElem?_setPhase (r := r₁) ha (.ready s (r.shardDraft a.signer payload))) rfl
      refine ⟨q, hready.trans henters, .inr ⟨hinbox, ?_⟩⟩
      rcases hq with rfl | rfl | rfl <;> trivial

lemma awaitShare_learns (ha : r.attempts[i]? = some a) (hp : a.phase = .queued) :
    ∃ q, r.Enters i q (r.awaitShare i a.signer).1 ∧
      r.Learns a.signer (r.admission.resume i i).1.answer? .queued q := by
  have hkeeps := (Admission.keeps_resume r.admission i i).accepted
  unfold awaitShare
  split
  · next s admission hr =>
    rw [hr] at hkeeps ⊢
    obtain ⟨q, henters, hq⟩ := prepare_served (r := { r with admission }) ha s
    refine ⟨q, ⟨henters.terms, henters.attempts, henters.accepted.trans hkeeps⟩, ?_⟩
    rcases hq with ⟨hinbox, rfl⟩ | ⟨hinbox, hserved⟩
    · exact .unreachable (.inr rfl) hinbox
    · exact .served (.inr rfl) hinbox hserved
  · next admission hr =>
    rw [hr] at hkeeps ⊢
    exact ⟨.ended .refused, ⟨rfl, rfl, hkeeps⟩, .refused (.inr rfl)⟩
  · next admission hr =>
    rw [hr]
    exact ⟨_, hp ▸ .refl ha, .stays⟩

lemma Learns.of_queued {answer : Option (Option KeyShare)} (h : r'.Learns k answer .queued q)
    (hterms : r'.terms = r.terms) : r.Learns k answer .idle q := by
  have hinbox : r'.inbox k = r.inbox k := inbox_eq hterms k
  cases h with
  | stays => exact .queues
  | refused => exact .refused (.inl rfl)
  | unreachable _ hempty => exact .unreachable (.inl rfl) (hinbox ▸ hempty)
  | served _ hreach hq => exact .served (.inl rfl) (hinbox ▸ hreach) hq
  | goes hp => exact absurd hp (Phase.Waiting.not_served (.inr rfl))

/-- What the attempt that a stimulus is for is told, and how it goes on. -/
structure Reacts (r : Run) (x : Stimulus) (i : Nat) (a : Attempt) (r' : Run)
    (answer : Option (Option KeyShare)) (q : Phase) : Prop where
  claim : r.claim? x = answer.map fun c => (a.signer, c)
  attempts : r'.attempts = r.attempts.modify i fun a => { a with phase := q }
  learns : r.Learns a.signer answer a.phase q

lemma advance_reacts (hstage : r.stage = .delivering) (ha : r.attempts[i]? = some a) :
    ∃ answer q, r.Reacts (.advance i) i a (r.stepAttempt i a (.advance i)).1 answer q := by
  obtain ⟨k, p⟩ := a
  cases p with
  | idle =>
    -- The claim is asked for and answered at one go, if a permit is free.
    let r₁ : Run := { r with admission := r.admission.wait i }
    obtain ⟨q, henters, hlearns⟩ := awaitShare_learns (getElem?_setPhase (r := r₁) ha .queued) rfl
    have hwait : r.Enters i .queued (r₁.setPhase i .queued) := ⟨rfl, rfl, rfl⟩
    have hclaim : r.claim? (.advance i) =
        ((r.admission.wait i).resume i i).1.answer?.map fun c => (k, c) := by
      simp only [claim?, hstage, ha]
    exact ⟨_, q, hclaim, (hwait.trans henters).attempts, hlearns.of_queued rfl⟩
  | queued =>
    obtain ⟨q, henters, hlearns⟩ := awaitShare_learns ha rfl
    exact ⟨_, q, by simp only [claim?, hstage, ha], henters.attempts, hlearns⟩
  | ready s draft =>
    obtain ⟨q, hq, henters, -⟩ := awaitTurn_cases ha rfl
    refine ⟨none, q, by simp only [claim?, hstage, ha, Option.map_none], henters.attempts, ?_⟩
    rcases hq with rfl | rfl | rfl
    · exact .stays
    · exact .goes trivial trivial
    · exact .goes trivial trivial
  | _ =>
    exact ⟨none, _, by simp only [claim?, hstage, ha, Option.map_none],
      (Enters.refl ha).attempts, .stays⟩

lemma mined_reacts (ha : r.attempts[i]? = some a) (result : Except MessageError Draft) :
    ∃ answer q,
      r.Reacts (.mined i result) i a (r.stepAttempt i a (.mined i result)).1 answer q := by
  obtain ⟨k, p⟩ := a
  cases p with
  | mining s draft =>
    simp only [stepAttempt, minerDone]
    cases result with
    | error e =>
      exact ⟨none, .ended (.failed _), rfl, rfl, .goes trivial (DistributionError.ofMessage_ne e)⟩
    | ok mined =>
      simp only [send]
      split
      · next e _ =>
        exact ⟨none, .ended (.failed _), rfl, rfl, .goes trivial (DistributionError.ofMessage_ne e)⟩
      · exact ⟨none, .delivering s _, rfl, rfl, .goes trivial trivial⟩
  | _ => exact ⟨none, _, rfl, (Enters.refl ha).attempts, .stays⟩

lemma hear_reacts (ha : r.attempts[i]? = some a) (input : Delivery.Input) :
    ∃ answer q, r.Reacts (.hear i input) i a (r.stepAttempt i a (.hear i input)).1 answer q := by
  obtain ⟨k, p⟩ := a
  cases p with
  | delivering s d =>
    simp only [stepAttempt, deliver]
    split
    · exact ⟨none, .delivering s _, rfl, rfl, .goes trivial trivial⟩
    · exact ⟨none, .ended .accepted, rfl, rfl, .goes trivial trivial⟩
    · next e hverdict =>
      have he : e ≠ .signerUnreachable := fun he => (d.hear input).verdict?_ne (he ▸ hverdict)
      exact ⟨none, .ended (.failed e), rfl, rfl, .goes trivial he⟩
  | _ => exact ⟨none, _, rfl, (Enters.refl ha).attempts, .stays⟩

lemma work_reacts (ha : r.attempts[i]? = some a) (difficulty : Nat) :
    ∃ answer q, r.Reacts (.work i difficulty) i a (r.stepAttempt i a (.work i difficulty)).1
      answer q := by
  refine ⟨none, a.phase, rfl, ?_, .stays⟩
  simp only [stepAttempt]
  split <;> exact (Enters.refl ha).attempts

lemma step_of_attempt (hstage : r.stage ≠ .delivering) (hx : x.attempt? = some i) :
    r.step x = (r, []) := by
  cases r.step_effect x with
  | attempt _ hdelivering | conclude _ hdelivering | short _ hdelivering =>
    exact absurd hdelivering hstage
  | taken _ _ hother | refused _ _ hother | unanswered _ _ hother =>
    rw [hother] at hx
    cases hx
  | nothing hm => exact hm

/-- **What a stimulus tells the attempt it is for.** -/
theorem step_reacts (ha : r.attempts[i]? = some a) (hx : x.attempt? = some i) :
    ∃ answer q, r.Reacts x i a (r.step x).1 answer q := by
  by_cases hstage : r.stage = .delivering
  · rw [step_attempt hstage ha x hx]
    cases x with
    | advance j =>
      obtain rfl : j = i := Option.some.inj hx
      exact advance_reacts hstage ha
    | work j difficulty =>
      obtain rfl : j = i := Option.some.inj hx
      exact work_reacts ha difficulty
    | mined j result =>
      obtain rfl : j = i := Option.some.inj hx
      exact mined_reacts ha result
    | hear j input =>
      obtain rfl : j = i := Option.some.inj hx
      exact hear_reacts ha input
    | _ => cases hx
  · refine ⟨none, a.phase, ?_, ?_, .stays⟩
    · cases x <;> simp [claim?, hstage]
    · rw [step_of_attempt hstage hx]
      exact (Enters.refl ha).attempts

lemma attempt_of_claim (h : r.claim? x = some (k, c)) :
    ∃ i a, x.attempt? = some i ∧ r.attempts[i]? = some a ∧ a.signer = k := by
  cases x with
  | advance i =>
    simp only [claim?] at h
    split at h
    · next ha =>
      obtain ⟨answer, -, hk⟩ := Option.map_eq_some_iff.mp h
      exact ⟨i, _, rfl, ha, congrArg Prod.fst hk⟩
    · next ha =>
      obtain ⟨answer, -, hk⟩ := Option.map_eq_some_iff.mp h
      exact ⟨i, _, rfl, ha, congrArg Prod.fst hk⟩
    · cases h
  | _ => cases h

/-! ### Whole runs -/

lemma claims_append (r : Run) (xs ys : List Stimulus) :
    r.claims (xs ++ ys) = r.claims xs ++ (r.steps xs).1.claims ys := by
  induction xs generalizing r with
  | nil => rfl
  | cons x xs ih => simp only [List.cons_append, claims, steps, ih, List.append_assoc]

lemma mem_claims_concat {r₀ : Run} :
    (k, c) ∈ r₀.claims (xs ++ [x]) ↔
      (k, c) ∈ r₀.claims xs ∨ (r₀.steps xs).1.claim? x = some (k, c) := by
  rw [claims_append, List.mem_append, claims, claims, List.append_nil, Option.mem_toList]

variable {r₀ : Run}

lemma Answered.concat_of_none (h : r₀.Answered xs k p)
    (hnone : ∀ c, (r₀.steps xs).1.claim? x ≠ some (k, c)) : r₀.Answered (xs ++ [x]) k p := by
  have hsame (c) : (k, c) ∈ r₀.claims (xs ++ [x]) ↔ (k, c) ∈ r₀.claims xs := by
    rw [mem_claims_concat, or_iff_left (hnone c)]
  cases h with
  | waits hp h => exact .waits hp fun c => mt (hsame c).mp (h c)
  | refused h => exact .refused fun c => (hsame c).trans (h c)
  | unreachable hinbox h => exact .unreachable hinbox fun c => (hsame c).trans (h c)
  | served hinbox hp h => exact .served hinbox hp fun c => (hsame c).trans (h c)

lemma Answered.none_of_waiting (h : r₀.Answered xs k p) (hp : p.Waiting) (c : Option KeyShare) :
    (k, c) ∉ r₀.claims xs := by
  cases h with
  | waits _ hnone => exact hnone c
  | refused => exact absurd hp (Phase.not_waiting_ended _)
  | unreachable => exact absurd hp (Phase.not_waiting_ended _)
  | served _ hserved => exact absurd hserved hp.not_served

lemma Answered.served_of_served (h : r₀.Answered xs k p) (hp : p.Served) (hq : q.Served) :
    r₀.Answered xs k q := by
  cases h with
  | waits hwaits => exact absurd hp hwaits.not_served
  | refused => exact absurd hp id
  | unreachable => exact absurd hp id
  | served hinbox _ hone => exact .served hinbox hq hone

/-- The claims of a signer whose attempt moves. -/
lemma Answered.concat (h : r₀.Answered xs k p) {answer : Option (Option KeyShare)}
    (hclaim : (r₀.steps xs).1.claim? x = answer.map fun c => (k, c))
    (hlearns : (r₀.steps xs).1.Learns k answer p q) : r₀.Answered (xs ++ [x]) k q := by
  have hinbox : (r₀.steps xs).1.inbox k = r₀.inbox k := inbox_eq (terms_steps r₀ xs) k
  -- Who waited was told nothing before, so that the answer is the whole of its claims.
  have htold (hp : p.Waiting) {c' : Option KeyShare} (hc : answer = some c') (c) :
      (k, c) ∈ r₀.claims (xs ++ [x]) ↔ c = c' := by
    rw [mem_claims_concat, or_iff_right (h.none_of_waiting hp c), hclaim, hc]
    simp [eq_comm]
  have hquiet (hc : answer = none) (c) : (r₀.steps xs).1.claim? x ≠ some (k, c) := by
    rw [hclaim, hc]
    nofun
  cases hlearns with
  | stays => exact h.concat_of_none (hquiet rfl)
  | queues =>
    have hnone := h.none_of_waiting (.inl rfl)
    exact (Answered.waits (.inr rfl) hnone).concat_of_none (hquiet rfl)
  | refused hp => exact .refused (htold hp rfl)
  | unreachable hp hempty => exact .unreachable (hinbox ▸ hempty) (htold hp rfl)
  | served hp hreach hq => exact .served (hinbox ▸ hreach) hq (htold hp rfl)
  | goes hp hq => exact (h.served_of_served hp hq).concat_of_none (hquiet rfl)

/-- **Every attempt stands as its claim was answered**, at any time of a run. -/
theorem answered_steps (h₀ : ∀ a ∈ r₀.attempts, a.phase = .idle)
    (hn : (r₀.attempts.map Attempt.signer).Nodup) (xs : List Stimulus)
    (ha : (r₀.steps xs).1.attempts[i]? = some a) : r₀.Answered xs a.signer a.phase := by
  -- A stimulus says nothing to any attempt but the one that it is for.
  induction xs using List.reverseRecOn generalizing i a with
  | nil => exact .waits (.inl (h₀ a (List.mem_of_getElem? ha))) fun c => List.not_mem_nil
  | append_singleton xs x ih =>
    rw [steps_append] at ha
    by_cases hx : x.attempt? = some i
    · -- the signers stay, so there was an attempt of this one before
      obtain ⟨b, hb⟩ : ∃ b, (r₀.steps xs).1.attempts[i]? = some b := by
        obtain ⟨p, hp, -⟩ := next_or_accepted ha
        exact ⟨_, hp⟩
      obtain ⟨answer, q, hclaim, hattempts, hlearns⟩ := step_reacts hb hx
      obtain rfl : (⟨b.signer, q⟩ : Attempt) = a := by
        have ha' : ((r₀.steps xs).1.step x).1.attempts[i]? = some a := ha
        rw [hattempts, List.getElem?_modify, hb] at ha'
        simpa using ha'
      exact (ih hb).concat hclaim hlearns
    · have hb : (r₀.steps xs).1.attempts[i]? = some a := (attempts_step_of_ne hx).symm.trans ha
      refine (ih hb).concat_of_none fun c hc => hx ?_
      obtain ⟨j, b, hj, hb', hk⟩ := attempt_of_claim hc
      rw [hj, eq_of_signer ((signers_steps r₀ xs).symm ▸ hn) hb' hb hk]

lemma attempt_of_mem_claims (h : (k, c) ∈ r₀.claims xs) :
    ∃ a ∈ (r₀.steps xs).1.attempts, a.signer = k := by
  induction xs generalizing r₀ with
  | nil => cases h
  | cons x xs ih =>
    rcases List.mem_append.mp h with hx | hxs
    · obtain ⟨i, a, -, ha, rfl⟩ := attempt_of_claim (Option.mem_toList.mp hx)
      -- The attempts are other ones at the end, but their signers are the same.
      have hk : a.signer ∈ r₀.attempts.map Attempt.signer :=
        List.mem_map_of_mem (List.mem_of_getElem? ha)
      rw [← signers_steps r₀ (x :: xs)] at hk
      exact List.mem_map.mp hk
    · exact ih hxs

end Run

end KeyQuorum
