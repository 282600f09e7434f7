import Mathlib.Logic.Relation
import Mathlib.Tactic.Lemma
import KeyQuorum.Distribution.Run
import KeyQuorum.Proofs.Distribution.Admission

/-!
The part of a run that decides who holds what.

Of a run only the admission, the miner's turn and the standing of each attempt matter to where
the shares go. On this floor every stimulus comes to a few small steps of one attempt, each of
which works the admission or the turn once. What every such step keeps, every run keeps.
-/

namespace KeyQuorum

/-- Where an attempt stands, apart from what it has made of its share. -/
inductive Standing where
  | idle
  | queued
  /-- Has a share and has not asked for the miner yet. -/
  | holding (s : KeyShare)
  | ready (s : KeyShare)
  | mining (s : KeyShare)
  | sent (s : KeyShare)
  | ended (how : Ending)

def Phase.standing : Phase → Standing
  | .idle => .idle
  | .queued => .queued
  | .ready s _ => .ready s
  | .mining s _ => .mining s
  | .delivering s _ => .sent s
  | .ended how => .ended how

def Stimulus.attempt? : Stimulus → Option Nat
  | .advance i | .work i _ | .mined i _ | .hear i _ => some i
  | _ => none

structure Floor where
  admission : Admission KeyShare (PublicKey × String)
  turn : Permits
  signers : List PublicKey
  standings : List Standing

namespace Floor

def put (f : Floor) (i : Nat) (x : Standing) : Floor := { f with standings := f.standings.set i x }

/-- The small steps of an attempt, of which each works the admission or the turn at most once. -/
inductive Step (f : Floor) : Floor → Prop where
  | wait {i : Nat} (h : f.standings[i]? = some .idle) :
    Step f ({ f with admission := f.admission.wait i }.put i .queued)
  | refuse {i : Nat} {a} (h : f.standings[i]? = some .queued)
      (hr : f.admission.resume i i = (.refused, a)) :
    Step f ({ f with admission := a }.put i (.ended .refused))
  | take {i : Nat} {s : KeyShare} {a} (h : f.standings[i]? = some .queued)
      (hr : f.admission.resume i i = (.share s, a)) :
    Step f ({ f with admission := a }.put i (.holding s))
  | unreachable {i : Nat} {s : KeyShare} (h : f.standings[i]? = some (.holding s)) :
    Step f ({ f with admission := f.admission.giveBack i }.put i (.ended .unreachable))
  | askTurn {i : Nat} {s : KeyShare} (h : f.standings[i]? = some (.holding s)) :
    Step f ({ f with turn := f.turn.request i }.put i (.ready s))
  | abandon {i : Nat} {s : KeyShare} {t : Permits} (h : f.standings[i]? = some (.ready s))
      (ht : f.turn.takeUp? i = some t) (ha : f.admission.aborted = true) :
    Step f ({ f with turn := t.release, admission := f.admission.giveBack i }.put i
      (.ended .abandoned))
  | mine {i : Nat} {s : KeyShare} {t : Permits} (h : f.standings[i]? = some (.ready s))
      (ht : f.turn.takeUp? i = some t) (ha : f.admission.aborted = false) :
    Step f ({ f with turn := t }.put i (.mining s))
  | mined {i : Nat} {s : KeyShare} (h : f.standings[i]? = some (.mining s)) :
    Step f ({ f with turn := f.turn.release }.put i (.sent s))
  | fail {i : Nat} {s : KeyShare} (e : DistributionError)
      (h : f.standings[i]? = some (.holding s) ∨ f.standings[i]? = some (.sent s)) :
    Step f ({ f with admission := (f.admission.fail i).2 }.put i (.ended (.failed e)))
  | accept {i : Nat} {s : KeyShare} {k : PublicKey} (h : f.standings[i]? = some (.sent s))
      (hk : f.signers[i]? = some k) :
    Step f ({ f with admission := (f.admission.accept i (k, s.publicShare.toHex)).2 }.put i
      (.ended .accepted))

abbrev Steps : Floor → Floor → Prop := Relation.ReflTransGen Step

abbrev Progress : Floor → Floor → Prop := Relation.TransGen Step

variable {f : Floor} {i : Nat} {x y : Standing}

lemma put_admission (f : Floor) (i : Nat) (x y : Standing)
    (a : Admission KeyShare (PublicKey × String)) :
    ({ f.put i x with admission := a } : Floor).put i y =
      ({ f with admission := a } : Floor).put i y := by
  simp [put, List.set_set]

lemma put_turn (f : Floor) (i : Nat) (x y : Standing) (t : Permits) :
    ({ f.put i x with turn := t } : Floor).put i y = ({ f with turn := t } : Floor).put i y := by
  simp [put, List.set_set]

lemma put_self (h : f.standings[i]? = some x) (y : Standing) :
    (f.put i y).standings[i]? = some y := by
  obtain ⟨hi, -⟩ := List.getElem?_eq_some_iff.mp h
  simp [put, hi]

lemma put_eq (h : f.standings[i]? = some x) : f.put i x = f := by
  obtain ⟨hi, rfl⟩ := List.getElem?_eq_some_iff.mp h
  simp [put]

end Floor

namespace Run

variable {r : Run} {i : Nat} {k : PublicKey} {s : KeyShare}

def floor (r : Run) : Floor where
  admission := r.admission
  turn := r.turn
  signers := r.attempts.map Attempt.signer
  standings := r.attempts.map (·.phase.standing)

@[simp] lemma floor_setPhase (r : Run) (i : Nat) (p : Phase) :
    (r.setPhase i p).floor = r.floor.put i p.standing := by
  have hsigners : (r.setPhase i p).attempts.map Attempt.signer = r.attempts.map Attempt.signer := by
    refine List.ext_getElem? fun j => ?_
    rw [List.getElem?_map, List.getElem?_map, setPhase, List.getElem?_modify]
    split <;> cases r.attempts[j]? <;> rfl
  have hstandings : (r.setPhase i p).attempts.map (·.phase.standing) =
      (r.attempts.map (·.phase.standing)).set i p.standing := by
    refine List.ext_getElem? fun j => ?_
    rw [List.getElem?_set, List.getElem?_map, List.getElem?_map, setPhase, List.getElem?_modify]
    by_cases hij : i = j
    · subst hij
      by_cases hi : i < r.attempts.length <;> simp [hi]
    · simp [hij]
  unfold floor Floor.put
  rw [hsigners, hstandings]
  rfl

/-! ### What the parts of a step come to -/

variable {x : Standing}

lemma floor_fail (hx : r.floor.standings[i]? = some x) {y : Standing}
    (hy : y = .holding s ∨ y = .sent s) (k : PublicKey) (e : DistributionError) :
    Floor.Step (r.floor.put i y) (r.fail i k s e).1.floor := by
  have hput := Floor.put_self hx y
  have hstep : Floor.Step (r.floor.put i y) _ :=
    .fail e (s := s)
      (hy.imp (fun h => hput.trans (congrArg _ h)) fun h => hput.trans (congrArg _ h))
  rw [Floor.put_admission] at hstep
  exact (floor_setPhase _ i (.ended (.failed e))) ▸ hstep

lemma floor_succeed (hx : r.floor.standings[i]? = some x) (hk : r.floor.signers[i]? = some k) :
    Floor.Step (r.floor.put i (.sent s)) (r.succeed i k s).1.floor := by
  have hstep := Floor.Step.accept (Floor.put_self hx (.sent s)) hk
  rw [Floor.put_admission] at hstep
  exact (floor_setPhase _ i (.ended .accepted)) ▸ hstep

lemma floor_awaitTurn (hx : r.floor.standings[i]? = some (.ready s)) (hi : i ∈ r.turn.granted)
    (draft : Draft) : Floor.Step r.floor (r.awaitTurn i s draft).1.floor := by
  have ht : r.turn.takeUp? i = some { r.turn with granted := r.turn.granted.erase i } := if_pos hi
  unfold awaitTurn useTurn
  rw [ht]
  cases ha : r.admission.aborted with
  | true =>
    simp only [ha, if_true]
    exact (floor_setPhase _ i (.ended .abandoned)) ▸ .abandon hx ht ha
  | false =>
    simp only [ha, Bool.false_eq_true, if_false]
    exact (floor_setPhase _ i (.mining s draft)) ▸ .mine hx ht ha

lemma awaitTurn_of_not_granted (hi : i ∉ r.turn.granted) (s : KeyShare) (draft : Draft) :
    r.awaitTurn i s draft = (r, []) := by
  simp [awaitTurn, Permits.takeUp?, hi]

lemma floor_awaitTurn_steps (hx : r.floor.standings[i]? = some (.ready s)) (draft : Draft) :
    r.floor.Steps (r.awaitTurn i s draft).1.floor := by
  by_cases hi : i ∈ r.turn.granted
  · exact .single (floor_awaitTurn hx hi draft)
  · rw [awaitTurn_of_not_granted hi]

lemma floor_prepare (hx : r.floor.standings[i]? = some x) (k : PublicKey) :
    (r.floor.put i (.holding s)).Steps (r.prepare i k s).1.floor := by
  have hput := Floor.put_self hx (.holding s)
  unfold prepare
  split
  · -- a signer without an inbox
    have hstep := Floor.Step.unreachable hput
    rw [Floor.put_admission] at hstep
    exact .single ((floor_setPhase _ i (.ended .unreachable)) ▸ hstep)
  · simp only
    split
    · -- the share does not encrypt
      exact .single (floor_fail (r := { r with entropy := _ }) hx (.inl rfl) k _)
    · next payload _ =>
      -- The turn with the miner is asked for, and may be had at once.
      have hstep := Floor.Step.askTurn hput
      rw [Floor.put_turn] at hstep
      refine .head ((floor_setPhase _ i (.ready s _)) ▸ hstep) (floor_awaitTurn_steps ?_ _)
      rw [floor_setPhase]
      exact Floor.put_self hx _

lemma floor_awaitShare (hx : r.floor.standings[i]? = some .queued)
    (hi : i ∈ r.admission.permits.granted) (k : PublicKey) :
    r.floor.Progress (r.awaitShare i k).1.floor := by
  unfold awaitShare
  rcases Admission.resume_cases hi i with ⟨s, a, -, -, he⟩ | ⟨-, a, -, he⟩
  · rw [he]
    refine .head' (Floor.Step.take hx he) ?_
    exact floor_prepare (r := { r with admission := a }) hx k
  · rw [he]
    exact .single ((floor_setPhase _ i (.ended .refused)) ▸ .refuse hx he)

lemma awaitShare_of_not_granted (hi : i ∉ r.admission.permits.granted) (k : PublicKey) :
    r.awaitShare i k = (r, []) := by
  simp [awaitShare, Admission.resume_of_not_granted hi]

lemma floor_awaitShare_steps (hx : r.floor.standings[i]? = some .queued) (k : PublicKey) :
    r.floor.Steps (r.awaitShare i k).1.floor := by
  by_cases hi : i ∈ r.admission.permits.granted
  · exact (floor_awaitShare hx hi k).to_reflTransGen
  · rw [awaitShare_of_not_granted hi]

lemma floor_begin (hx : r.floor.standings[i]? = some .idle) (k : PublicKey) :
    r.floor.Progress (({ r with admission := r.admission.wait i }.setPhase i .queued).awaitShare i
      k).1.floor := by
  refine .head' ((floor_setPhase _ i .queued) ▸ .wait hx) (floor_awaitShare_steps ?_ k)
  rw [floor_setPhase]
  exact Floor.put_self hx _

lemma floor_send (hx : r.floor.standings[i]? = some x) (k : PublicKey) (draft : Draft) :
    (r.floor.put i (.sent s)).Steps (r.send i k s draft).1.floor := by
  unfold send
  simp only
  split
  · exact .single (floor_fail (r := { r with entropy := _ }) hx (.inr rfl) k _)
  · exact (floor_setPhase _ i (.delivering s _)) ▸ .refl

lemma floor_minerDone (hx : r.floor.standings[i]? = some (.mining s)) (k : PublicKey)
    (result : Except MessageError Draft) :
    r.floor.Progress (r.minerDone i k s result).1.floor := by
  refine .head' (Floor.Step.mined hx) ?_
  unfold minerDone
  cases result with
  | ok mined => exact floor_send (r := { r with turn := r.turn.release }) hx k mined
  | error e =>
    exact .single (floor_fail (r := { r with turn := r.turn.release }) hx (.inr rfl) k _)

lemma floor_deliver (hx : r.floor.standings[i]? = some (.sent s))
    (hk : r.floor.signers[i]? = some k) (d : Delivery) (input : Delivery.Input) :
    r.floor.Steps (r.deliver i k s d input).1.floor ∧
      ((d.hear input).verdict?.isSome → r.floor.Step (r.deliver i k s d input).1.floor) := by
  have hfloor := Floor.put_eq hx
  unfold deliver
  simp only
  split
  · next hv =>
    refine ⟨?_, fun h => by simp [hv] at h⟩
    rw [floor_setPhase]
    show r.floor.Steps (r.floor.put i (.sent s))
    rw [hfloor]
  · have hstep := floor_succeed (s := s) hx hk
    rw [hfloor] at hstep
    exact ⟨.single hstep, fun _ => hstep⟩
  · next e _ =>
    have hstep := floor_fail (s := s) hx (.inr rfl) k e
    rw [hfloor] at hstep
    exact ⟨.single hstep, fun _ => hstep⟩

/-! ### Stimuli as small steps -/

lemma signers_of_attempt {a : Attempt} (ha : r.attempts[i]? = some a) :
    r.floor.signers[i]? = some a.signer := by
  simp [floor, ha]

lemma standings_of_attempt {a : Attempt} (ha : r.attempts[i]? = some a) :
    r.floor.standings[i]? = some a.phase.standing := by
  simp [floor, ha]

lemma floor_stepAttempt {a : Attempt} (ha : r.attempts[i]? = some a) (x : Stimulus) :
    r.floor.Steps (r.stepAttempt i a x).1.floor := by
  have hk := signers_of_attempt ha
  have hx := standings_of_attempt ha
  -- A stimulus that does not fit the phase takes no small step at all.
  cases x with
  | advance j =>
    cases hp : a.phase with
    | idle =>
      simp only [hp, Phase.standing] at hx
      simp only [stepAttempt, hp]
      exact (floor_begin hx _).to_reflTransGen
    | queued =>
      simp only [hp, Phase.standing] at hx
      simp only [stepAttempt, hp]
      exact floor_awaitShare_steps hx _
    | ready s draft =>
      simp only [hp, Phase.standing] at hx
      simp only [stepAttempt, hp]
      exact floor_awaitTurn_steps hx draft
    | _ => simp only [stepAttempt, hp]; exact .refl
  | work j difficulty =>
    simp only [stepAttempt]
    split <;> exact .refl
  | mined j result =>
    cases hp : a.phase with
    | mining s draft =>
      simp only [hp, Phase.standing] at hx
      simp only [stepAttempt, hp]
      exact (floor_minerDone hx _ result).to_reflTransGen
    | _ => simp only [stepAttempt, hp]; exact .refl
  | hear j input =>
    cases hp : a.phase with
    | delivering s d =>
      simp only [hp, Phase.standing] at hx
      simp only [stepAttempt, hp]
      exact (floor_deliver hx hk d input).1
    | _ => simp only [stepAttempt, hp]; exact .refl
  | _ => exact .refl

/-! ### What a stimulus does -/

/-- What a stimulus may do: an attempt takes it, the deliveries are concluded, the coordinator is
heard, or nothing comes of it. -/
inductive Effect (r : Run) (x : Stimulus) (m : Moved) : Prop where
  | attempt {i : Nat} {a : Attempt} (hm : m = r.stepAttempt i a x) (hstage : r.stage = .delivering)
      (hx : x.attempt? = some i) (ha : r.attempts[i]? = some a)
  | conclude {placed : List (PublicKey × String)} (hm : m = r.announce placed)
      (hstage : r.stage = .delivering) (hx : x = .conclude)
      (hended : ∀ a ∈ r.attempts, a.phase.hasEnded = true)
      (hfinish : r.admission.finish = .ok placed)
  | short {e : DistributionError} (hm : m = r.finish (.error e)) (hstage : r.stage = .delivering)
      (hx : x = .conclude) (hended : ∀ a ∈ r.attempts, a.phase.hasEnded = true)
      (hfinish : r.admission.finish = .error e)
  | taken {record : Record} {refusal : Option String} {answer} (hm : m = r.finish (.ok record))
      (hstage : r.stage = .announcing record refusal) (hx : x = .coordinatorAnswer answer)
      (hanswer : answer.refusal = none)
  | refused {record : Record} {refusal : Option String} {answer} {reason : String}
      (hm : m = ({ r with stage := .announcing record (some reason) }, []))
      (hstage : r.stage = .announcing record refusal) (hx : x = .coordinatorAnswer answer)
      (hanswer : answer.refusal = some reason)
  | unanswered {record : Record} {refusal : Option String}
      (hm : m = r.finish (.error (.coordinatorPublishFailure (refusalMessage refusal))))
      (hstage : r.stage = .announcing record refusal) (hx : x = .coordinatorEnd)
  | nothing (hm : m = (r, []))
      (hidle : r.stage = .delivering → ∀ i, x.attempt? = some i → r.attempts[i]? = none)

/-- **Every stimulus has one of these effects.** -/
theorem step_effect (r : Run) (x : Stimulus) : r.Effect x (r.step x) := by
  unfold step
  split
  · next hstage =>
    split
    · next hall =>
      have hended : ∀ a ∈ r.attempts, a.phase.hasEnded = true := List.all_eq_true.mp hall
      split
      · next hfinish => exact .conclude rfl hstage rfl hended hfinish
      · next hfinish => exact .short rfl hstage rfl hended hfinish
    · exact .nothing rfl fun _ _ => nofun
  iterate 4
    · next hstage =>
      split
      · next ha => exact .attempt rfl hstage rfl ha
      · next hnone => exact .nothing rfl fun _ _ hx => Option.some.inj hx ▸ hnone
  · next hstage =>
    split
    · next hanswer => exact .taken rfl hstage rfl hanswer
    · next hanswer => exact .refused rfl hstage rfl hanswer
  · next hstage => exact .unanswered rfl hstage rfl
  · next x _ _ _ hadvance hwork hmined hhear _ _ =>
    refine .nothing rfl fun hstage i hx => ?_
    cases x with
    | advance j => exact (hadvance j hstage rfl).elim
    | work j difficulty => exact (hwork j difficulty hstage rfl).elim
    | mined j result => exact (hmined j result hstage rfl).elim
    | hear j input => exact (hhear j input hstage rfl).elim
    | _ => cases hx

lemma exists_announce (r : Run) (placed : List (PublicKey × String)) :
    ∃ entropy stage, (r.announce placed).1 = { r with entropy, stage } := by
  unfold announce
  split
  · exact ⟨_, _, rfl⟩
  · simp only
    split <;> exact ⟨_, _, rfl⟩

lemma floor_announce (r : Run) (placed : List (PublicKey × String)) :
    (r.announce placed).1.floor = r.floor := by
  obtain ⟨entropy, stage, h⟩ := r.exists_announce placed
  rw [h]
  rfl

/-- **Every stimulus comes to small steps on the floor.** -/
theorem floor_step (r : Run) (x : Stimulus) : r.floor.Steps (r.step x).1.floor := by
  cases r.step_effect x with
  | attempt hm _ _ ha => rw [hm]; exact floor_stepAttempt ha x
  | conclude hm => rw [hm, floor_announce]
  | short hm | taken hm | refused hm | unanswered hm => rw [hm]; exact .refl
  | nothing hm => rw [hm]

lemma kept_steps {P : Run → Prop} (hstep : ∀ r, P r → ∀ x, P (r.step x).1) {r : Run} (h : P r)
    (xs : List Stimulus) : P (r.steps xs).1 := by
  induction xs generalizing r with
  | nil => exact h
  | cons x xs ih => exact ih (hstep r h x)

theorem floor_steps (r : Run) (xs : List Stimulus) : r.floor.Steps (r.steps xs).1.floor :=
  kept_steps (P := fun r' => r.floor.Steps r'.floor) (fun r' h x => h.trans (floor_step r' x))
    .refl xs

lemma steps_append (r : Run) (xs ys : List Stimulus) :
    (r.steps (xs ++ ys)).1 = ((r.steps xs).1.steps ys).1 := by
  induction xs generalizing r with
  | nil => rfl
  | cons x xs ih => exact ih _

lemma said_append (r : Run) (xs ys : List Stimulus) :
    (r.steps (xs ++ ys)).2 = (r.steps xs).2 ++ ((r.steps xs).1.steps ys).2 := by
  induction xs generalizing r with
  | nil => rfl
  | cons x xs ih =>
    simp only [List.cons_append, steps, ih, List.append_assoc]

end Run

end KeyQuorum
