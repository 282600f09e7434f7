import Mathlib.Tactic.Lemma
import KeyQuorum.Proofs.Distribution.Stillness

/-!
What one stimulus does to a run.

It leaves all attempts as they are, or takes one of them from its phase to another without
placing a share, or places a share: that of an attempt that hears the last thing its delivery
was waiting for. Which phase may follow which, what is known of the draft or the event in the
new one, and what the attempt asks or tells on entering it, is said once here; whatever holds of
all runs is shown from it.
-/

namespace KeyQuorum

/-- What is reported of an attempt that ends so, if anything is. -/
def Ending.report? : Ending → Option (Option DistributionError)
  | .refused | .abandoned => none
  | .unreachable => some (some .signerUnreachable)
  | .failed e => some (some e)
  | .accepted => some none

end KeyQuorum

namespace KeyQuorum.Run

/-- What a run is given and keeps. -/
structure Terms where
  dealer : KeyPair
  settings : Settings
  request : Request
  now : Timestamp

def terms (r : Run) : Terms := ⟨r.dealer, r.settings, r.request, r.now⟩

def placement? (r : Run) : Stimulus → Option (PublicKey × KeyShare)
  | .hear i x =>
    match r.stage, r.attempts[i]? with
    | .delivering, some ⟨k, .delivering s d⟩ =>
      match (d.hear x).verdict? with
      | some (.ok ()) => some (k, s)
      | _ => none
    | _, _ => none
  | _ => none

/-- The draft is one that the run makes of a share for a signer it can reach. -/
structure Drafted (r : Run) (k : PublicKey) (s : KeyShare) (draft : Draft) : Prop where
  reachable : (r.inbox k).isEmpty = false
  encrypted : ∃ nonce payload,
    Payload.encrypt r.dealer k nonce s.toHex.toUTF8.data.toList = .ok payload ∧
      draft = r.shardDraft k payload

/-- What becomes of an attempt that waits for a permit. -/
inductive Waits (r : Run) (k : PublicKey) : Phase → Prop where
  | queued : Waits r k .queued
  | ready {s : KeyShare} {draft : Draft} (h : r.Drafted k s draft) : Waits r k (.ready s draft)
  | mining {s : KeyShare} {draft : Draft} (h : r.Drafted k s draft) : Waits r k (.mining s draft)
  | ended {how : Ending} (h : how ≠ .accepted) : Waits r k (.ended how)

/-- The phase that an attempt may enter from another at a stimulus that places nothing. -/
inductive Next (r : Run) (x : Stimulus) (i : Nat) (k : PublicKey) : Phase → Phase → Prop where
  | stay {p : Phase} : Next r x i k p p
  | wait {p q : Phase} (hp : p = .idle ∨ p = .queued) (hq : r.Waits k q) : Next r x i k p q
  | mine {s : KeyShare} {draft : Draft} : Next r x i k (.ready s draft) (.mining s draft)
  | send {s : KeyShare} {draft mined : Draft} {random : Block 32} {event : Event}
      (hx : x = .mined i (.ok mined)) (hsign : mined.sign r.dealer random = .ok event)
      (hpublish : .publish i (r.inbox k) event ∈ (r.step x).2) :
    Next r x i k (.mining s draft) (.delivering s (Delivery.start event
      (Delivery.ackFilter r.settings.kinds.acknowledgement r.dealer.publicKey k event) (r.inbox k)))
  | hear {s : KeyShare} {d : Delivery} {input : Delivery.Input} (hx : x = .hear i input) :
    Next r x i k (.delivering s d) (.delivering s (d.hear input))
  | stop {p : Phase} {how : Ending} (hp : p.hasEnded = false) (hhow : how ≠ .accepted) :
    Next r x i k p (.ended how)

/-- What an attempt asks or tells on entering a phase. -/
def utterance (r : Run) (i : Nat) (k : PublicKey) : Phase → List Action
  | .mining _ draft => [.mine i draft]
  | .delivering _ d => [.subscribe i r.listenRelays d.filter, .publish i (r.inbox k) d.event]
  | .ended how => (how.report?.map (r.tell k)).getD []
  | _ => []

/-- What an attempt says between two phases: what belongs to the second, or nothing where it
stands as it stood. -/
inductive Speaks (r : Run) (i : Nat) (k : PublicKey) (p q : Phase) : List Action → Prop where
  | enters (h : p.standing.rank < q.standing.rank) : Speaks r i k p q (r.utterance i k q)
  | stays (h : q.standing = p.standing) : Speaks r i k p q []

/-- The run with its attempt `i` in another phase, and nothing placed since. -/
structure Enters (r : Run) (i : Nat) (q : Phase) (r' : Run) : Prop where
  terms : r'.terms = r.terms
  attempts : r'.attempts = r.attempts.modify i fun a => { a with phase := q }
  accepted : r'.admission.accepted = r.admission.accepted

/-- What a stimulus may come to. -/
inductive Becomes (r : Run) (x : Stimulus) : Run → Prop where
  | rest {r' : Run} (hterms : r'.terms = r.terms) (hattempts : r'.attempts = r.attempts)
      (hadmission : r'.admission = r.admission) (hnone : r.placement? x = none) : Becomes r x r'
  | move {r' : Run} {i : Nat} {a : Attempt} {q : Phase} (ha : r.attempts[i]? = some a)
      (hnext : r.Next x i a.signer a.phase q) (henters : r.Enters i q r')
      (hnone : r.placement? x = none) : Becomes r x r'
  | place {r' : Run} {i : Nat} {k : PublicKey} {s : KeyShare} {d : Delivery}
      {input : Delivery.Input} (hx : x = .hear i input)
      (ha : r.attempts[i]? = some ⟨k, .delivering s d⟩)
      (hverdict : (d.hear input).verdict? = some (.ok ())) (hsome : r.placement? x = some (k, s))
      (hterms : r'.terms = r.terms)
      (hattempts : r'.attempts = r.attempts.modify i fun a => { a with phase := .ended .accepted })
      (hadmission : r'.admission = (r.admission.accept i (k, s.publicShare.toHex)).2) :
    Becomes r x r'

variable {r r' r'' : Run} {x : Stimulus} {i : Nat} {k : PublicKey} {s : KeyShare} {p q : Phase}
  {a : Attempt} {draft : Draft}

/-! ### Going from phase to phase -/

lemma inbox_eq (h : r'.terms = r.terms) (k : PublicKey) : r'.inbox k = r.inbox k :=
  congrArg (fun t => (t.request.inboxes.lookup k).getD []) h

lemma Drafted.of_terms (hd : r.Drafted k s draft) (h : r.terms = r'.terms) :
    r'.Drafted k s draft := by
  obtain ⟨hreach, nonce, payload, hencrypt, rfl⟩ := hd
  refine ⟨(congrArg List.isEmpty (inbox_eq h k)).symm.trans hreach, nonce, payload, ?_, ?_⟩
  · rw [← hencrypt]
    exact congrArg (fun t => Payload.encrypt t.dealer k nonce _) h.symm
  · exact congrArg (fun t : Terms => (⟨t.dealer.publicKey, t.now, t.settings.kinds.shard,
      [["p", k.hex], ["coordinator", t.request.coordinator], "reply" :: t.settings.replyRelays],
      payload⟩ : Draft)) h

lemma Waits.of_terms (hw : r.Waits k q) (h : r.terms = r'.terms) : r'.Waits k q := by
  cases hw with
  | queued => exact .queued
  | ready hd => exact .ready (hd.of_terms h)
  | mining hd => exact .mining (hd.of_terms h)
  | ended hhow => exact .ended hhow

lemma Enters.refl (ha : r.attempts[i]? = some a) : r.Enters i a.phase r := by
  refine ⟨rfl, List.ext_getElem? fun j => ?_, rfl⟩
  rw [List.getElem?_modify]
  by_cases hij : i = j
  · subst hij
    simp [ha]
  · simp [hij]

lemma Enters.trans {q' : Phase} (h : r.Enters i q r') (h' : r'.Enters i q' r'') :
    r.Enters i q' r'' := by
  refine ⟨h'.terms.trans h.terms, ?_, h'.accepted.trans h.accepted⟩
  rw [h'.attempts, h.attempts, List.modify_modify_eq]
  rfl

lemma utterance_eq (h : r'.terms = r.terms) (i : Nat) (k : PublicKey) (q : Phase) :
    r'.utterance i k q = r.utterance i k q := by
  have hrelays : r'.listenRelays = r.listenRelays :=
    congrArg (fun t => (t.request.ownInbox ++ t.settings.replyRelays).eraseDups) h
  have htell : r'.tell k = r.tell k :=
    congrArg (fun t error => if t.settings.reporting then [Action.outcome k error] else []) h
  cases q <;> simp only [utterance, hrelays, htell, inbox_eq h]

lemma Speaks.of_terms {actions : List Action} (hs : r'.Speaks i k p q actions)
    (h : r'.terms = r.terms) : r.Speaks i k p q actions := by
  cases hs with
  | enters hrank => exact utterance_eq h i k q ▸ .enters hrank
  | stays hstays => exact .stays hstays

lemma speaks_ended (hp : p.hasEnded = false) (how : Ending) :
    r.Speaks i k p (.ended how) (r.utterance i k (.ended how)) := by
  refine .enters ?_
  cases p <;> simp [Phase.standing, Standing.rank, Phase.hasEnded] at hp ⊢

lemma Speaks.after {p' : Phase} {actions : List Action} (hs : r'.Speaks i k p' q actions)
    (h : r'.terms = r.terms) (hrank : p.standing.rank < p'.standing.rank)
    (hsilent : ∀ q, q.standing = p'.standing → r.utterance i k q = []) :
    r.Speaks i k p q actions := by
  cases hs with
  | enters hlater => exact utterance_eq h i k q ▸ .enters (Nat.lt_trans hrank hlater)
  | stays hstays => exact hsilent q hstays ▸ .enters (hstays ▸ hrank)

lemma getElem?_setPhase (ha : r.attempts[i]? = some a) (q : Phase) :
    (r.setPhase i q).attempts[i]? = some ⟨a.signer, q⟩ := by
  simp [setPhase, ha]

lemma awaitTurn_cases (ha : r.attempts[i]? = some a) (hp : a.phase = .ready s draft) :
    ∃ q, (q = .ready s draft ∨ q = .mining s draft ∨ q = .ended .abandoned) ∧
      r.Enters i q (r.awaitTurn i s draft).1 ∧
      r.Speaks i a.signer (.ready s draft) q (r.awaitTurn i s draft).2 := by
  unfold awaitTurn useTurn
  split
  · split
    · exact ⟨.ended .abandoned, .inr (.inr rfl),
        ⟨rfl, rfl, (Admission.keeps_giveBack r.admission i).accepted⟩, speaks_ended rfl _⟩
    · exact ⟨.mining s draft, .inr (.inl rfl), ⟨rfl, rfl, rfl⟩, .enters (Nat.lt_succ_self 3)⟩
  · exact ⟨_, .inl rfl, hp ▸ .refl ha, .stays rfl⟩

lemma prepare_cases (ha : r.attempts[i]? = some a) (s : KeyShare) :
    ∃ q, r.Waits a.signer q ∧ r.Enters i q (r.prepare i a.signer s).1 ∧
      r.Speaks i a.signer .queued q (r.prepare i a.signer s).2 := by
  unfold prepare
  split
  · -- a signer without an inbox
    exact ⟨.ended .unreachable, .ended (by simp), ⟨rfl, rfl,
      (Admission.keeps_giveBack r.admission i).accepted⟩, speaks_ended rfl _⟩
  · next hinbox =>
    simp only
    split
    · -- the share does not encrypt
      exact ⟨.ended (.failed _), .ended (by simp),
        ⟨rfl, rfl, Admission.accepted_fail r.admission i⟩, speaks_ended rfl _⟩
    · next payload he =>
      -- The draft is ready, and what the attempt says from there on it says on leaving the queue.
      let draft := r.shardDraft a.signer payload
      let r₁ : Run := { r with entropy := r.entropy.draw.2, turn := r.turn.request i }
      have hdrafted : r.Drafted a.signer s draft :=
        ⟨Bool.eq_false_iff.mpr hinbox, _, payload, he, rfl⟩
      have hready : r.Enters i (.ready s draft) (r₁.setPhase i (.ready s draft)) := ⟨rfl, rfl, rfl⟩
      obtain ⟨q, hq, henters, hspeaks⟩ :=
        awaitTurn_cases (getElem?_setPhase (r := r₁) ha (.ready s draft)) rfl
      have hsilent : ∀ q, q.standing = .ready s → r.utterance i a.signer q = [] := by
        intro q hq
        cases q <;> first | rfl | cases hq
      refine ⟨q, ?_, hready.trans henters,
        hspeaks.after rfl (Nat.lt_add_of_pos_right Nat.two_pos) hsilent⟩
      rcases hq with rfl | rfl | rfl
      · exact .ready hdrafted
      · exact .mining hdrafted
      · exact .ended (by simp)

lemma awaitShare_cases (ha : r.attempts[i]? = some a) (hp : a.phase = .queued) :
    ∃ q, r.Waits a.signer q ∧ r.Enters i q (r.awaitShare i a.signer).1 ∧
      r.Speaks i a.signer .queued q (r.awaitShare i a.signer).2 := by
  have hkeeps := (Admission.keeps_resume r.admission i i).accepted
  unfold awaitShare
  split
  · next s admission hr =>
    rw [hr] at hkeeps
    obtain ⟨q, hq, henters, hspeaks⟩ := prepare_cases (r := { r with admission }) ha s
    exact ⟨q, hq.of_terms rfl, ⟨henters.terms, henters.attempts, henters.accepted.trans hkeeps⟩,
      hspeaks.of_terms rfl⟩
  · next admission hr =>
    rw [hr] at hkeeps
    exact ⟨.ended .refused, .ended (by simp), ⟨rfl, rfl, hkeeps⟩, speaks_ended rfl _⟩
  · exact ⟨_, .queued, hp ▸ .refl ha, .stays rfl⟩

/-! ### Stimuli -/

lemma step_attempt (hstage : r.stage = .delivering) (ha : r.attempts[i]? = some a) (x : Stimulus)
    (hx : x.attempt? = some i) : r.step x = r.stepAttempt i a x := by
  cases x with
  | conclude | coordinatorAnswer | coordinatorEnd => cases hx
  | _ =>
    obtain rfl := Option.some.inj hx
    simp only [step, hstage, ha]

lemma step_conclude_ok {placed : List (PublicKey × String)} (hstage : r.stage = .delivering)
    (hended : ∀ a ∈ r.attempts, a.phase.hasEnded = true)
    (hfinish : r.admission.finish = .ok placed) :
    r.step .conclude = r.announce placed := by
  have hall : r.attempts.all (·.phase.hasEnded) = true := List.all_eq_true.mpr hended
  simp only [step, hstage, hall, if_true, hfinish]

lemma step_conclude_error {e : DistributionError} (hstage : r.stage = .delivering)
    (hended : ∀ a ∈ r.attempts, a.phase.hasEnded = true) (hfinish : r.admission.finish = .error e) :
    r.step .conclude = r.finish (.error e) := by
  have hall : r.attempts.all (·.phase.hasEnded) = true := List.all_eq_true.mpr hended
  simp only [step, hstage, hall, if_true, hfinish]

/-- A stimulus that reaches an attempt takes it to a phase that may follow its own. -/
lemma advance_enters (ha : r.attempts[i]? = some a) :
    ∃ q, r.Next (.advance i) i a.signer a.phase q ∧
      r.Enters i q (r.stepAttempt i a (.advance i)).1 ∧
      r.Speaks i a.signer a.phase q (r.stepAttempt i a (.advance i)).2 := by
  cases hp : a.phase with
  | idle =>
    -- Asking for a permit says nothing, so what the attempt says it says on its way from there.
    let r₁ : Run := { r with admission := r.admission.wait i }
    obtain ⟨q, hq, henters, hspeaks⟩ :=
      awaitShare_cases (getElem?_setPhase (r := r₁) ha .queued) rfl
    have hwait : r.Enters i .queued (r₁.setPhase i .queued) := ⟨rfl, rfl, rfl⟩
    have hsilent : ∀ q, q.standing = .queued → r.utterance i a.signer q = [] := by
      intro q hq
      cases q <;> first | rfl | cases hq
    simp only [stepAttempt, hp]
    exact ⟨q, .wait (.inl rfl) (hq.of_terms rfl), hwait.trans henters,
      hspeaks.after rfl Nat.one_pos hsilent⟩
  | queued =>
    obtain ⟨q, hq, henters, hspeaks⟩ := awaitShare_cases ha hp
    simp only [stepAttempt, hp]
    exact ⟨q, .wait (.inr rfl) hq, henters, hspeaks⟩
  | ready s draft =>
    obtain ⟨q, hq, henters, hspeaks⟩ := awaitTurn_cases ha hp
    simp only [stepAttempt, hp]
    refine ⟨q, ?_, henters, hspeaks⟩
    rcases hq with rfl | rfl | rfl
    · exact .stay
    · exact .mine
    · exact .stop rfl (by simp)
  | _ => simp only [stepAttempt, hp]; exact ⟨_, .stay, hp ▸ .refl ha, .stays rfl⟩

lemma mined_enters (hstage : r.stage = .delivering) (ha : r.attempts[i]? = some a)
    (result : Except MessageError Draft) :
    ∃ q, r.Next (.mined i result) i a.signer a.phase q ∧
      r.Enters i q (r.stepAttempt i a (.mined i result)).1 ∧
      r.Speaks i a.signer a.phase q (r.stepAttempt i a (.mined i result)).2 := by
  cases hp : a.phase with
  | mining s draft =>
    have hstep := step_attempt hstage ha (.mined i result) rfl
    simp only [stepAttempt, hp] at hstep ⊢
    unfold minerDone at hstep ⊢
    cases result with
    | error e =>
      exact ⟨.ended (.failed _), .stop rfl (by simp),
        ⟨rfl, rfl, Admission.accepted_fail r.admission i⟩, speaks_ended rfl _⟩
    | ok mined =>
      simp only [send] at hstep ⊢
      cases hsign : mined.sign r.dealer r.entropy.draw.1 with
      | error e =>
        exact ⟨.ended (.failed _), .stop rfl (by simp),
          ⟨rfl, rfl, Admission.accepted_fail r.admission i⟩, speaks_ended rfl _⟩
      | ok event =>
        simp only [hsign] at hstep
        refine ⟨_, .send rfl hsign ?_, ⟨rfl, rfl, rfl⟩, .enters (Nat.lt_succ_self 4)⟩
        rw [hstep]
        -- The event is published right after its acknowledgements are subscribed to.
        exact List.mem_cons_of_mem _ List.mem_cons_self
  | _ => simp only [stepAttempt, hp]; exact ⟨_, .stay, hp ▸ .refl ha, .stays rfl⟩

lemma hear_becomes (hstage : r.stage = .delivering) (ha : r.attempts[i]? = some a)
    (input : Delivery.Input) :
    r.Becomes (.hear i input) (r.stepAttempt i a (.hear i input)).1 := by
  obtain ⟨k, p⟩ := a
  cases p with
  | delivering s d =>
    -- A share is placed just if this is the last thing that the delivery waited for.
    have hplacement : r.placement? (.hear i input) = match (d.hear input).verdict? with
        | some (.ok ()) => some (k, s)
        | _ => none := by
      simp only [placement?, hstage, ha]
    simp only [stepAttempt, deliver]
    cases hv : (d.hear input).verdict? with
    | none =>
      rw [hv] at hplacement
      exact .move ha (.hear rfl) ⟨rfl, rfl, rfl⟩ hplacement
    | some verdict =>
      rw [hv] at hplacement
      cases verdict with
      | ok _ => exact .place rfl ha hv hplacement rfl rfl rfl
      | error e =>
        exact .move (q := .ended (.failed e)) ha (.stop rfl (by simp))
          ⟨rfl, rfl, Admission.accepted_fail r.admission i⟩ hplacement
  | _ =>
    simp only [stepAttempt]
    exact .rest rfl rfl rfl (by simp only [placement?, hstage, ha])

lemma placement?_of_not_delivering (h : r.stage ≠ .delivering) (x : Stimulus) :
    r.placement? x = none := by
  unfold placement?
  split
  · split
    · next hstage _ => exact absurd hstage h
    · rfl
  · rfl

/-- **What a stimulus comes to**: rest, one attempt in another phase, or a share placed. -/
theorem step_becomes (r : Run) (x : Stimulus) : r.Becomes x (r.step x).1 := by
  cases r.step_effect x with
  | @attempt i a hm hstage hx ha =>
    rw [hm]
    cases x with
    | advance j =>
      obtain rfl := Option.some.inj hx
      obtain ⟨q, hnext, henters, -⟩ := advance_enters ha
      exact .move ha hnext henters rfl
    | work j difficulty =>
      simp only [stepAttempt]
      split <;> exact .rest rfl rfl rfl rfl
    | mined j result =>
      obtain rfl := Option.some.inj hx
      obtain ⟨q, hnext, henters, -⟩ := mined_enters hstage ha result
      exact .move ha hnext henters rfl
    | hear j input =>
      obtain rfl := Option.some.inj hx
      exact hear_becomes hstage ha input
    | _ => cases hx
  | conclude hm _ hx =>
    obtain ⟨entropy, stage, hannounce⟩ := r.exists_announce _
    rw [hm, hannounce, hx]
    exact .rest rfl rfl rfl rfl
  | short hm _ hx =>
    rw [hm, hx]
    exact .rest rfl rfl rfl rfl
  | taken hm hstage | refused hm hstage | unanswered hm hstage =>
    rw [hm]
    exact .rest rfl rfl rfl (placement?_of_not_delivering (by simp [hstage]) x)
  | nothing hm hidle =>
    rw [hm]
    refine .rest rfl rfl rfl ?_
    by_cases hstage : r.stage = .delivering
    · cases x with
      | hear i input => simp only [placement?, hstage, hidle hstage i rfl]
      | _ => rfl
    · exact placement?_of_not_delivering hstage x

/-- An attempt comes to its phase from one that it may follow, unless its share was placed. -/
lemma next_or_accepted (ha : (r.step x).1.attempts[i]? = some a) :
    ∃ p, r.attempts[i]? = some ⟨a.signer, p⟩ ∧
      (r.Next x i a.signer p a.phase ∨ a.phase = .ended .accepted) := by
  -- Either this is the attempt that moved, or it stands as it stood.
  cases r.step_becomes x with
  | rest _ hattempts => exact ⟨a.phase, hattempts ▸ ha, .inl .stay⟩
  | @move j b q hb hnext henters =>
    rw [henters.attempts, List.getElem?_modify] at ha
    by_cases hij : j = i
    · subst hij
      rw [hb] at ha
      obtain rfl : _ = a := by simpa using ha
      exact ⟨b.phase, hb, .inl hnext⟩
    · exact ⟨a.phase, by simpa [hij] using ha, .inl .stay⟩
  | @place j k s d input hx hb hverdict hsome hterms hattempts =>
    rw [hattempts, List.getElem?_modify] at ha
    by_cases hij : j = i
    · subst hij
      rw [hb] at ha
      obtain rfl : _ = a := by simpa using ha
      exact ⟨_, hb, .inr rfl⟩
    · exact ⟨a.phase, by simpa [hij] using ha, .inl .stay⟩

end KeyQuorum.Run
