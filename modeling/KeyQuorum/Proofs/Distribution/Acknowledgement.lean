import KeyQuorum.Proofs.Distribution.Outcome
import KeyQuorum.Proofs.Distribution.Actions

/-!
A share is placed on a genuine acknowledgement, and on nothing else.

What a delivery hears settles two matters that have nothing to do with each other: whether a
relay takes the event and whether the signer confirms it. The delivery succeeds just if both
are settled well before something ends the wait for them. An attempt that delivers is told by
what it hears alone, whatever else happens in the run; and an event that confirms nothing is
heard as if it were not there.
-/

namespace KeyQuorum

namespace Delivery

/-- Something good is heard, and none of what would end the wait for it before. -/
def InTime (good : Input → Prop) (ends xs : List Input) : Prop :=
  ∃ before x after, xs = before ++ x :: after ∧ good x ∧ ∀ y ∈ ends, y ∉ before

/-- A relay takes the event in time. -/
def Taken : List Input → Prop :=
  InTime (fun x => ∃ a, x = .answer a ∧ a.refusal = none) [.answersEnd, .deadline]

/-- An event that confirms the delivery's comes in time. -/
def Confirmed (confirms : Event → Prop) : List Input → Prop :=
  InTime (fun x => ∃ ack, x = .reply ack ∧ confirms ack) [.repliesEnd, .deadline]

variable {good : Input → Prop} {confirms : Event → Prop} {ends xs ys : List Input} {x : Input}
  {d : Delivery}

lemma not_inTime_nil : ¬ InTime good ends [] := by
  rintro ⟨before, x, after, hxs, -⟩
  cases before <;> cases hxs

lemma inTime_cons : InTime good ends (x :: xs) ↔ good x ∨ x ∉ ends ∧ InTime good ends xs := by
  constructor
  · rintro ⟨before, y, after, hxs, hgood, hends⟩
    -- what is good comes first, or something comes before it that does not end the wait
    cases before with
    | nil =>
      obtain ⟨rfl, rfl⟩ := List.cons.inj hxs
      exact .inl hgood
    | cons z before =>
      obtain ⟨rfl, rfl⟩ := List.cons.inj hxs
      refine .inr ⟨fun hx => hends x hx List.mem_cons_self, before, y, after, rfl, hgood, ?_⟩
      exact fun e he hmem => hends e he (List.mem_cons_of_mem x hmem)
  · rintro (hgood | ⟨hx, before, y, after, rfl, hgood, hends⟩)
    · exact ⟨[], x, xs, rfl, hgood, fun _ _ => List.not_mem_nil⟩
    · refine ⟨x :: before, y, after, rfl, hgood, fun e he hmem => ?_⟩
      rcases List.mem_cons.mp hmem with rfl | hmem
      · exact hx he
      · exact hends e he hmem

/-! ### Two matters to settle -/

def Publishes (d : Delivery) (xs : List Input) : Prop :=
  (∃ relay, d.publishing = .accepted relay) ∨ Taken xs

def Acknowledged (d : Delivery) (xs : List Input) : Prop :=
  d.acknowledgement = .received ∨ Confirmed (d.genuine ·) xs

lemma genuine_hear (d : Delivery) (x : Input) : (d.hear x).genuine = d.genuine := by
  funext e
  rw [genuine, genuine, filter_hear]

lemma hearAll_of_verdict (h : d.verdict?.isSome) (xs : List Input) : d.hearAll xs = d := by
  cases xs with
  | nil => rfl
  | cons x xs => rw [hearAll, if_pos h]

lemma hearAll_cons (h : d.verdict? = none) : d.hearAll (x :: xs) = (d.hear x).hearAll xs := by
  rw [hearAll, if_neg (by simp [h])]

lemma verdict?_eq_ok :
    d.verdict? = some (.ok ()) ↔
      (∃ relay, d.publishing = .accepted relay) ∧ d.acknowledgement = .received := by
  obtain ⟨event, filter, publishing, acknowledgement⟩ := d
  cases publishing <;> cases acknowledgement <;> simp [verdict?]

lemma taken_cons : Taken (x :: xs) ↔ (∃ a, x = .answer a ∧ a.refusal = none) ∨
    (x ≠ .answersEnd ∧ x ≠ .deadline) ∧ Taken xs := by
  simp only [Taken, inTime_cons, List.mem_cons, List.not_mem_nil, or_false, not_or]

lemma confirmed_cons : Confirmed confirms (x :: xs) ↔ (∃ ack, x = .reply ack ∧ confirms ack) ∨
    (x ≠ .repliesEnd ∧ x ≠ .deadline) ∧ Confirmed confirms xs := by
  simp only [Confirmed, inTime_cons, List.mem_cons, List.not_mem_nil, or_false, not_or]

def Lost (d : Delivery) : Prop :=
  (∃ reason, d.publishing = .failed reason) ∨ d.acknowledgement = .missed

lemma lost_iff : d.Lost ↔ ∃ e, d.verdict? = some (.error e) := by
  obtain ⟨event, filter, publishing, acknowledgement⟩ := d
  cases publishing <;> cases acknowledgement <;> simp [Lost, verdict?]

/-- As long as nothing is lost, what is heard settles the first matter ... -/
lemma publishes_hear (hlive : ¬ (d.hear x).Lost) :
    (d.hear x).Publishes xs ↔ d.Publishes (x :: xs) := by
  rw [Publishes, Publishes, taken_cons]
  cases x with
  | answer a =>
    cases hp : d.publishing with
    | pending reasons => cases ha : a.refusal <;> simp [hear, hp, Publishing.receive, ha]
    | accepted relay => simp [hear, hp, Publishing.receive]
    | failed reason => exact absurd (.inl ⟨reason, by simp [hear, hp, Publishing.receive]⟩) hlive
  | answersEnd =>
    cases hp : d.publishing with
    | pending reasons =>
      -- no relay is left to take the event
      exact absurd (.inl ⟨_, by simp only [hear, hp, Publishing.close]; rfl⟩) hlive
    | accepted relay => simp [hear, hp, Publishing.close]
    | failed reason => exact absurd (.inl ⟨reason, by simp [hear, hp, Publishing.close]⟩) hlive
  | reply e => simp only [hear]; split <;> simp
  | repliesEnd => simp only [hear]; split <;> simp
  | deadline => exact absurd (.inr rfl) hlive

/-- ... or the second. -/
lemma acknowledged_hear (hlive : ¬ (d.hear x).Lost) :
    (d.hear x).Acknowledged xs ↔ d.Acknowledged (x :: xs) := by
  have hmissed : (d.hear x).acknowledgement ≠ .missed := fun h => hlive (.inr h)
  rw [Acknowledged, Acknowledged, genuine_hear, confirmed_cons]
  cases x with
  | answer a => simp [hear]
  | answersEnd => simp [hear]
  | reply e =>
    cases ha : d.acknowledgement with
    | missed => simp [hear, ha] at hmissed
    | _ => cases hg : d.genuine e <;> simp [hear, ha, hg]
  | repliesEnd =>
    cases ha : d.acknowledgement with
    | received => simp [hear, ha]
    | _ => simp [hear, ha] at hmissed
  | deadline => exact absurd rfl hmissed

lemma unsettled_of_lost (h : d.verdict? = none) (hlost : (d.hear x).Lost) :
    ¬ (d.Publishes (x :: xs) ∧ d.Acknowledged (x :: xs)) := by
  have hlive : ¬ d.Lost := fun hd => by
    obtain ⟨e, he⟩ := lost_iff.mp hd
    rw [h] at he
    cases he
  have hopen : ¬ ((∃ relay, d.publishing = .accepted relay) ∧ d.acknowledgement = .received) :=
    fun hd => by
      rw [verdict?_eq_ok.mpr hd] at h
      cases h
  rw [Publishes, Acknowledged, taken_cons, confirmed_cons]
  cases x with
  | answer a =>
    -- an answer alone loses nothing: the reasons are only gathered
    refine absurd ?_ hlive
    rcases hlost with ⟨reason, hp⟩ | ha
    · cases hd : d.publishing with
      | failed reason => exact .inl ⟨reason, hd⟩
      | accepted relay => simp [hear, hd, Publishing.receive] at hp
      | pending reasons => cases ha : a.refusal <;> simp [hear, hd, Publishing.receive, ha] at hp
    · exact .inr ha
  | answersEnd =>
    cases hd : d.publishing with
    | pending reasons => simp
    | accepted relay =>
      rcases hlost with ⟨reason, hp⟩ | ha
      · simp [hear, hd, Publishing.close] at hp
      · exact absurd (.inr ha) hlive
    | failed reason => exact absurd (.inl ⟨reason, hd⟩) hlive
  | reply e =>
    refine absurd ?_ hlive
    simp only [hear] at hlost
    split at hlost
    · exact hlost.imp_right (by simp)
    · exact hlost
  | repliesEnd =>
    cases hd : d.acknowledgement with
    | awaited => simp
    | received =>
      simp only [hear, hd, reduceCtorEq, if_false] at hlost
      exact absurd hlost hlive
    | missed => exact absurd (.inr hd) hlive
  | deadline =>
    simp only [reduceCtorEq, false_and, exists_false, ne_eq, not_true_eq_false, and_false, or_false,
      not_and]
    exact fun hp ha => hopen ⟨hp, ha⟩

/-- **When a delivery succeeds.** -/
theorem verdict?_hearAll_iff (h : d.verdict? = none) (xs : List Input) :
    (d.hearAll xs).verdict? = some (.ok ()) ↔ d.Publishes xs ∧ d.Acknowledged xs := by
  induction xs generalizing d with
  | nil =>
    rw [verdict?_eq_ok, Publishes, Acknowledged, Taken, Confirmed]
    simp only [hearAll, not_inTime_nil, or_false]
  | cons x xs ih =>
    rw [hearAll_cons h]
    -- once the delivery is lost, what is still to come no longer counts
    by_cases hlost : (d.hear x).Lost
    · obtain ⟨e, he⟩ := lost_iff.mp hlost
      rw [hearAll_of_verdict (by simp [he]), he]
      exact iff_of_false (by simp) (unsettled_of_lost h hlost)
    · rw [← publishes_hear hlost, ← acknowledged_hear hlost]
      cases hv : (d.hear x).verdict? with
      | none => exact ih hv
      | some verdict =>
        cases verdict with
        | ok _ =>
          obtain ⟨haccepted, hreceived⟩ := verdict?_eq_ok.mp hv
          rw [hearAll_of_verdict (by simp [hv]), hv]
          exact iff_of_true rfl ⟨.inl haccepted, .inl hreceived⟩
        | error e => exact absurd (lost_iff.mpr ⟨e, hv⟩) hlost

/-! ### What is heard in vain -/

/-- The second list is the first with anything of a kind put in anywhere. -/
inductive Interspersed {α : Type} (kind : α → Prop) : List α → List α → Prop where
  | nil : Interspersed kind [] []
  | keep {xs ys : List α} (x : α) (h : Interspersed kind xs ys) :
    Interspersed kind (x :: xs) (x :: ys)
  | insert {y : α} {xs ys : List α} (hy : kind y) (h : Interspersed kind xs ys) :
    Interspersed kind xs (y :: ys)

def Junk (confirms : Event → Prop) (x : Input) : Prop := ∃ e, x = .reply e ∧ ¬ confirms e

lemma hear_junk (hgenuine : ∀ e, d.genuine e = true ↔ confirms e) (hx : Junk confirms x) :
    d.hear x = d := by
  obtain ⟨e, rfl, he⟩ := hx
  rw [← hgenuine e] at he
  exact if_neg fun h => he h.2

/-- **Events that do not confirm are heard in vain**, wherever they come in between. -/
theorem hearAll_interspersed (h : Interspersed (Junk confirms) xs ys)
    (hgenuine : ∀ e, d.genuine e = true ↔ confirms e) : d.hearAll ys = d.hearAll xs := by
  induction h generalizing d with
  | nil => rfl
  | keep x _ ih => rw [hearAll, hearAll, ih fun e => genuine_hear d x ▸ hgenuine e]
  | @insert y xs ys hy _ ih =>
    cases hv : d.verdict? with
    | none => rw [hearAll_cons hv, hear_junk hgenuine hy, ih hgenuine]
    | some verdict => rw [hearAll_of_verdict (by simp [hv]), hearAll_of_verdict (by simp [hv])]

lemma verdict?_start {relays : List String} (hrelays : relays.isEmpty = false) (shard : Event)
    (filter : Filter) : (start shard filter relays).verdict? = none := by
  simp [start, verdict?, Publishing.start, hrelays]

lemma publishes_start {relays : List String} (hrelays : relays.isEmpty = false) {shard : Event}
    {filter : Filter} : (start shard filter relays).Publishes xs ↔ Taken xs := by
  simp [start, Publishes, Publishing.start, hrelays]

lemma acknowledged_start {relays : List String} {shard : Event} {filter : Filter}
    (hgenuine : ∀ e, (start shard filter relays).genuine e = true ↔ confirms e) :
    (start shard filter relays).Acknowledged xs ↔ Confirmed confirms xs := by
  simp only [Acknowledged, hgenuine]
  exact or_iff_right nofun

/-- The phase of an attempt with a delivery that has come so far. -/
def phase (s : KeyShare) (d : Delivery) : Phase :=
  match d.verdict? with
  | none => .delivering s d
  | some (.ok ()) => .ended .accepted
  | some (.error e) => .ended (.failed e)

lemma phase_of_none (h : d.verdict? = none) (s : KeyShare) : d.phase s = .delivering s d := by
  rw [phase, h]

lemma hasEnded_phase (h : d.verdict? ≠ none) (s : KeyShare) : (d.phase s).hasEnded = true := by
  unfold phase
  split
  · next hnone => exact absurd hnone h
  · rfl
  · rfl

lemma phase_eq_accepted {s : KeyShare} :
    d.phase s = .ended .accepted ↔ d.verdict? = some (.ok ()) := by
  unfold phase
  split <;> simp_all

end Delivery

namespace Run

def hearings (i : Nat) (xs : List Stimulus) : List Delivery.Input :=
  xs.filterMap fun
    | .hear j input => if j = i then some input else none
    | _ => none

variable {dealer : KeyPair} {settings : Settings} {request : Request} {now : Timestamp}
  {shares : List KeyShare} {entropy : Entropy} {r₀ r : Run} {before xs : List Stimulus}
  {x : Stimulus} {i : Nat} {a : Attempt} {k : PublicKey} {s : KeyShare} {d : Delivery}
  {mined draft : Draft} {shard : Event}

@[simp] lemma hearings_hear (i : Nat) (input : Delivery.Input) (xs : List Stimulus) :
    hearings i (.hear i input :: xs) = input :: hearings i xs := by
  simp [hearings]

lemma hearings_of_ne (hx : ∀ input, x ≠ .hear i input) (xs : List Stimulus) :
    hearings i (x :: xs) = hearings i xs := by
  cases x with
  | hear j input =>
    have hij : j ≠ i := fun h => hx input (h ▸ rfl)
    simp [hearings, hij]
  | _ => rfl

/-! ### An attempt that delivers -/

lemma step_hear_delivering (hstage : r.stage = .delivering)
    (ha : r.attempts[i]? = some ⟨k, .delivering s d⟩) (input : Delivery.Input) :
    (r.step (.hear i input)).1.attempts[i]? = some ⟨k, (d.hear input).phase s⟩ := by
  rw [step_attempt hstage ha (.hear i input) rfl]
  simp only [stepAttempt, deliver, Delivery.phase]
  cases hv : (d.hear input).verdict? with
  | none => exact getElem?_setPhase ha _
  | some verdict => cases verdict <;> exact getElem?_setPhase ha _

lemma step_delivering (hstage : r.stage = .delivering)
    (ha : r.attempts[i]? = some ⟨k, .delivering s d⟩) (hx : ∀ input, x ≠ .hear i input) :
    (r.step x).1.attempts[i]? = r.attempts[i]? := by
  by_cases hfor : x.attempt? = some i
  · rw [step_attempt hstage ha x hfor]
    cases x with
    | hear j input =>
      obtain rfl : j = i := Option.some.inj hfor
      exact absurd rfl (hx input)
    | _ => rfl
  · exact attempts_step_of_ne hfor

/-- **An attempt that delivers is told by what it hears.** -/
theorem attempts_of_hearings (hsettled : r.Settled)
    (ha : r.attempts[i]? = some ⟨k, .delivering s d⟩) (hv : d.verdict? = none)
    (xs : List Stimulus) :
    (r.steps xs).1.attempts[i]? = some ⟨k, (d.hearAll (hearings i xs)).phase s⟩ := by
  -- The delivery is general: each hearing of the attempt's takes it one input further.
  induction xs generalizing r d with
  | nil => exact (Delivery.phase_of_none hv s) ▸ ha
  | cons x xs ih =>
    have hstage := hsettled.delivering ha rfl
    by_cases hx : ∃ input, x = .hear i input
    · obtain ⟨input, rfl⟩ := hx
      have hstep := step_hear_delivering hstage ha input
      rw [hearings_hear, Delivery.hearAll_cons hv]
      cases hv' : (d.hear input).verdict? with
      | none =>
        rw [Delivery.phase_of_none hv'] at hstep
        exact ih (hsettled.step _) hstep hv'
      | some verdict =>
        -- What has ended stays, and the delivery hears nothing more either.
        have hended : ((d.hear input).phase s).hasEnded = true :=
          Delivery.hasEnded_phase (by simp [hv']) s
        rw [Delivery.hearAll_of_verdict (by simp [hv'])]
        exact ended_steps hstep hended xs
    · have hne : ∀ input, x ≠ .hear i input := fun input h => hx ⟨input, h⟩
      rw [hearings_of_ne hne]
      exact ih (hsettled.step x) ((step_delivering hstage ha hne).trans ha) hv

lemma step_mined_signed (hstage : r.stage = .delivering)
    (ha : r.attempts[i]? = some ⟨k, .mining s draft⟩)
    (hsign : mined.sign r.dealer r.entropy.draw.1 = .ok shard) :
    let filter := Delivery.ackFilter r.settings.kinds.acknowledgement r.dealer.publicKey k shard
    (r.step (.mined i (.ok mined))).1.attempts[i]? =
        some ⟨k, .delivering s (Delivery.start shard filter (r.inbox k))⟩ ∧
      (r.step (.mined i (.ok mined))).2 =
        [.subscribe i r.listenRelays filter, .publish i (r.inbox k) shard] := by
  intro filter
  rw [step_attempt hstage ha (.mined i (.ok mined)) rfl]
  simp only [stepAttempt, minerDone, send, hsign]
  exact ⟨getElem?_setPhase ha _, rfl⟩

/-- **A share is accepted only on a genuine acknowledgement, and on any in time.** From the moment
that its event is signed and published, an attempt ends in acceptance just if a relay takes the
event and an event confirms it, each before anything ends the wait. Events that do not confirm
it, put in anywhere between what the attempt hears, change nothing. -/
theorem accepted_iff_confirmed (hstart : start dealer settings request now shares entropy = .ok r₀)
    (ha : (r₀.steps before).1.attempts[i]? = some ⟨k, .mining s draft⟩)
    (hsign : mined.sign dealer (r₀.steps before).1.entropy.draw.1 = .ok shard) :
    let confirms := Delivery.Confirms settings.kinds.acknowledgement dealer.publicKey k shard
    let after := fun xs => (r₀.steps (before ++ .mined i (.ok mined) :: xs)).1.attempts[i]?
    .publish i (r₀.inbox k) shard ∈ ((r₀.steps before).1.step (.mined i (.ok mined))).2 ∧
    ∀ xs,
      (after xs = some ⟨k, .ended .accepted⟩ ↔
        Delivery.Taken (hearings i xs) ∧ Delivery.Confirmed confirms (hearings i xs)) ∧
      ∀ ys, Delivery.Interspersed (Delivery.Junk confirms) (hearings i xs) (hearings i ys) →
        after ys = after xs := by
  intro confirms after
  obtain ⟨-, -, -, hstage₀, -⟩ := start_eq_ok hstart
  have hsettled : (r₀.steps before).1.Settled := Settled.steps (.inl hstage₀) before
  have hterms := terms_steps r₀ before
  have hgiven := hterms.trans (terms_start hstart)
  obtain ⟨hdealer, hsettings, -, -⟩ := Terms.mk.inj hgiven
  have hrelays : (r₀.inbox k).isEmpty = false :=
    (drafted_steps (idle_start hstart) ha (.inr rfl)).reachable
  obtain ⟨hbegun, hactions⟩ :=
    step_mined_signed (hsettled.delivering ha rfl) ha (hdealer.symm ▸ hsign)
  rw [inbox_eq hterms, hdealer, hsettings] at hbegun hactions
  -- From here on the attempt is its delivery, with both matters open.
  let d := Delivery.start shard
    (Delivery.ackFilter settings.kinds.acknowledgement dealer.publicKey k shard) (r₀.inbox k)
  have hgenuine : ∀ e, d.genuine e = true ↔ confirms e := fun e => Delivery.genuine_iff rfl
  have hopen : d.verdict? = none := Delivery.verdict?_start hrelays _ _
  have hafter : ∀ xs, after xs = some ⟨k, (d.hearAll (hearings i xs)).phase s⟩ := fun xs => by
    simp only [after, steps_append]
    exact attempts_of_hearings (hsettled.step _) hbegun hopen xs
  refine ⟨?_, fun xs => ⟨?_, fun ys hys => ?_⟩⟩
  · rw [hactions]
    exact List.mem_cons_of_mem _ List.mem_cons_self
  · have hverdict := Delivery.verdict?_hearAll_iff hopen (hearings i xs)
    rw [Delivery.publishes_start hrelays, Delivery.acknowledged_start hgenuine] at hverdict
    rw [hafter, ← hverdict, ← Delivery.phase_eq_accepted (s := s)]
    simp
  · rw [hafter, hafter, Delivery.hearAll_interspersed hys hgenuine]

/-- The signer's reply is accepted, whether or not the event itself is echoed before. -/
theorem echo_ignored : ∃ r draft shard ack,
    start Unanimity.dealer Unanimity.settings (Unanimity.request 1) 0
      ((List.range 1).map (Unanimity.share 1)) Unanimity.ones = .ok r ∧
    (r.steps [.advance 0]).1.attempts[0]? =
      some ⟨(Unanimity.signer 0).publicKey, .mining (Unanimity.share 1 0) draft⟩ ∧
    (Unanimity.visit Unanimity.single.draft 0).mined.sign Unanimity.dealer
      (r.steps [.advance 0]).1.entropy.draw.1 = .ok shard ∧
    ∀ echoes ∈ [[], [.hear 0 (.reply shard)]],
      (r.steps ([.advance 0] ++ .mined 0 (.ok (Unanimity.visit Unanimity.single.draft 0).mined) ::
        (.hear 0 (.answer ⟨"r", none⟩) :: echoes ++ [.hear 0 (.reply ack)]))).1.attempts[0]? =
        some ⟨(Unanimity.signer 0).publicKey, .ended .accepted⟩ := by
  obtain ⟨r, draft, shard, hstart, ha, hsign, hconfirms⟩ := Unanimity.single_mines
  obtain ⟨-, hmined⟩ := Draft.verify_of_sign hsign
  let ack := (Unanimity.visit Unanimity.single.draft 0).reply
  let silent : List Stimulus := [.hear 0 (.answer ⟨"r", none⟩), .hear 0 (.reply ack)]
  let echoing : List Stimulus :=
    [.hear 0 (.answer ⟨"r", none⟩), .hear 0 (.reply shard), .hear 0 (.reply ack)]
  -- The event is of its own kind, and so no acknowledgement.
  have hjunk : ¬ Delivery.Confirms Unanimity.settings.kinds.acknowledgement
      Unanimity.dealer.publicKey (Unanimity.signer 0).publicKey shard shard := fun h => by
    have hkind := h.kind
    rw [hmined] at hkind
    exact absurd hkind (by decide)
  obtain ⟨-, hall⟩ := accepted_iff_confirmed hstart ha hsign
  obtain ⟨haccepted, hechoes⟩ := hall silent
  have hheard := haccepted.mpr ⟨⟨[], _, _, rfl, ⟨_, rfl, rfl⟩, by simp⟩,
    ⟨[.answer ⟨"r", none⟩], _, _, rfl, ⟨ack, rfl, hconfirms⟩, by simp⟩⟩
  refine ⟨r, draft, shard, ack, hstart, ha, hsign, fun echoes hmem => ?_⟩
  rcases List.mem_pair.mp hmem with rfl | rfl
  · exact hheard
  · exact (hechoes echoing (.keep _ (.insert ⟨shard, rfl, hjunk⟩ (.keep _ .nil)))).trans hheard

end Run

end KeyQuorum
