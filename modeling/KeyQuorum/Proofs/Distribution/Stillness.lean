import Mathlib.Logic.Relation
import Mathlib.Tactic.Lemma
import KeyQuorum.Proofs.Distribution.Tally

/-!
No attempt is left waiting.

A run stands still when nothing that may happen moves an attempt on. Every small step brings an
attempt nearer to its end, so an attempt of a still run that has not ended waits, for a permit
or for the miner. By the tally there is nobody left to wait for: all attempts have ended.
-/

namespace KeyQuorum

namespace Standing

/-- How far an attempt has come. -/
def rank : Standing → Nat
  | .idle => 0
  | .queued => 1
  | .holding _ => 2
  | .ready _ => 3
  | .mining _ => 4
  | .sent _ => 5
  | .ended _ => 6

end Standing

/-- How far all attempts have come together. -/
def effort (l : List Standing) : Nat := l.foldr (fun x n => x.rank + n) 0

lemma effort_set {l : List Standing} {i : Nat} {x : Standing} (hx : l[i]? = some x)
    (y : Standing) : effort (l.set i y) + x.rank = effort l + y.rank := by
  -- Only the entry that is set counts anew, wherever it is.
  induction l generalizing i with
  | nil => simp at hx
  | cons z l ih =>
    cases i with
    | zero =>
      obtain rfl : z = x := by simpa using hx
      simp only [effort, List.set_cons_zero, List.foldr_cons]
      omega
    | succ i =>
      have := ih (i := i) (by simpa using hx)
      simp only [effort, List.set_cons_succ, List.foldr_cons] at this ⊢
      omega

namespace Floor

variable {f g : Floor}

lemma effort_lt_put {i : Nat} {x y : Standing} (hx : f.standings[i]? = some x)
    (hg : g.standings = f.standings.set i y) (hr : x.rank < y.rank) :
    effort f.standings < effort g.standings := by
  have hs := effort_set hx y
  rw [hg]
  omega

lemma Step.effort_lt (hs : f.Step g) : effort f.standings < effort g.standings := by
  cases hs with
  | wait hx => exact effort_lt_put hx rfl (by decide)
  | refuse hx _ => exact effort_lt_put hx rfl (by simp [Standing.rank])
  | take hx _ => exact effort_lt_put hx rfl (by simp [Standing.rank])
  | unreachable hx => exact effort_lt_put hx rfl (by simp [Standing.rank])
  | askTurn hx => exact effort_lt_put hx rfl (by simp [Standing.rank])
  | abandon hx _ _ => exact effort_lt_put hx rfl (by simp [Standing.rank])
  | mine hx _ _ => exact effort_lt_put hx rfl (by simp [Standing.rank])
  | mined hx => exact effort_lt_put hx rfl (by simp [Standing.rank])
  | fail e hx =>
    rcases hx with hx | hx <;> exact effort_lt_put hx rfl (by simp [Standing.rank])
  | accept hx _ => exact effort_lt_put hx rfl (by simp [Standing.rank])

lemma Progress.effort_lt (hp : f.Progress g) : effort f.standings < effort g.standings := by
  induction hp with
  | single hs => exact hs.effort_lt
  | tail _ hs ih => exact Nat.lt_trans ih hs.effort_lt

/-- Every attempt has ended or waits for a permit or for the miner. -/
def Blocked (f : Floor) : Prop :=
  ∀ (i : Nat) (x : Standing), f.standings[i]? = some x → (∃ how, x = .ended how) ∨
    (x = .queued ∧ i ∉ f.admission.permits.granted) ∨ ∃ s, x = .ready s ∧ i ∉ f.turn.granted

namespace Blocked

variable {i : Nat} {x : Standing}

lemma mining (h : f.Blocked) (hx : f.standings[i]? = some x) : x.isMining = false := by
  rcases h i x hx with ⟨how, rfl⟩ | ⟨rfl, -⟩ | ⟨s, rfl, -⟩ <;> rfl

/-- Nobody waits for the miner, for nobody has it. -/
lemma ready (h : f.Blocked) (ho : f.Orderly) (hx : f.standings[i]? = some x) :
    x.isReady = false := by
  have hmining : f.standings.countP Standing.isMining = 0 := by
    refine List.countP_eq_zero.mpr fun y hy => ?_
    obtain ⟨j, hj⟩ := List.mem_iff_getElem?.mp hy
    exact Bool.eq_false_iff.mp (h.mining hj)
  -- Nobody is blocked whose turn has come, so that no turn is held back.
  have hgranted : f.turn.granted = [] := by
    refine ho.ready.granted_eq_nil fun j z hz hready => ?_
    rcases h j z hz with ⟨how, rfl⟩ | ⟨rfl, -⟩ | ⟨s, rfl, hn⟩
    · exact absurd hready Bool.false_ne_true
    · exact absurd hready Bool.false_ne_true
    · exact hn
  have hone := ho.one
  rw [Permits.idle, hgranted, List.length_nil, hmining] at hone
  exact ho.ready.not_waiting ho.prompt hgranted (by omega) hx

/-- Nobody has a share. -/
lemma held (h : f.Blocked) (hs : f.Sound) (ho : f.Orderly) : f.admission.held = [] := by
  refine List.eq_nil_iff_forall_not_mem.mpr fun ⟨j, s⟩ hjs => ?_
  obtain ⟨z, hz, hzs⟩ := (hs.holds j s).mp hjs
  have hready := h.ready ho hz
  rcases h j z hz with ⟨how, rfl⟩ | ⟨rfl, -⟩ | ⟨t, rfl, -⟩
  · simp [Standing.share?] at hzs
  · simp [Standing.share?] at hzs
  · exact absurd hready.symm Bool.false_ne_true

/-- Nobody waits for a permit: with no share out, either permits are free, or all shares are
placed and the last acceptance has freed one. -/
lemma queued (h : f.Blocked) (hs : f.Sound) (ho : f.Orderly) (hpos : 0 < f.admission.required)
    (hx : f.standings[i]? = some x) : x.isQueued = false := by
  have hgranted : f.admission.permits.granted = [] := by
    refine hs.waiting.granted_eq_nil fun j z hz hqueued => ?_
    rcases h j z hz with ⟨how, rfl⟩ | ⟨rfl, hn⟩ | ⟨s, rfl, -⟩
    · exact absurd hqueued Bool.false_ne_true
    · exact hn
    · exact absurd hqueued Bool.false_ne_true
  have hidle := hs.accounts.idle
  have hcount := hs.accounts.count
  rw [h.held hs ho, List.length_nil] at hcount
  -- With no share out, the pool or the last acceptance has left a permit.
  have hfree : 0 < f.admission.permits.free := by
    rw [Permits.idle, hgranted, List.length_nil, Admission.spare] at hidle
    split at hidle <;> omega
  exact hs.waiting.not_waiting hs.accounts.prompt hgranted hfree hx

/-- **No deadlock**: where nobody can go on, everybody has ended. -/
theorem ended (h : f.Blocked) (hs : f.Sound) (ho : f.Orderly) (hpos : 0 < f.admission.required)
    (hx : f.standings[i]? = some x) : x.hasEnded = true := by
  rcases h i x hx with ⟨how, rfl⟩ | ⟨rfl, -⟩ | ⟨s, rfl, -⟩
  · rfl
  · exact absurd (h.queued hs ho hpos hx).symm Bool.false_ne_true
  · exact absurd (h.ready ho hx).symm Bool.false_ne_true

end Blocked

end Floor

namespace Run

variable {r : Run} {i : Nat} {k : PublicKey} {s : KeyShare}

/-- Nothing that may happen moves an attempt on. -/
def Still (r : Run) : Prop := ∀ x, (r.step x).1.attempts = r.attempts

/-! ### Attempts leave the stage alone -/

lemma stage_prepare (r : Run) (i : Nat) (k : PublicKey) (s : KeyShare) :
    (r.prepare i k s).1.stage = r.stage := by
  unfold prepare
  split
  · rfl
  · simp only
    split
    · rfl
    · unfold awaitTurn useTurn
      split
      · split <;> rfl
      · rfl

lemma stage_awaitShare (r : Run) (i : Nat) (k : PublicKey) :
    (r.awaitShare i k).1.stage = r.stage := by
  unfold awaitShare
  split
  · exact stage_prepare _ i k _
  · rfl
  · rfl

lemma stage_awaitTurn (r : Run) (i : Nat) (s : KeyShare) (draft : Draft) :
    (r.awaitTurn i s draft).1.stage = r.stage := by
  unfold awaitTurn useTurn
  split
  · split <;> rfl
  · rfl

lemma stage_minerDone (r : Run) (i : Nat) (k : PublicKey) (s : KeyShare)
    (result : Except MessageError Draft) : (r.minerDone i k s result).1.stage = r.stage := by
  unfold minerDone
  cases result with
  | ok mined =>
    simp only [send]
    split <;> rfl
  | error e => rfl

lemma stage_deliver (r : Run) (i : Nat) (k : PublicKey) (s : KeyShare) (d : Delivery)
    (input : Delivery.Input) : (r.deliver i k s d input).1.stage = r.stage := by
  unfold deliver
  simp only
  split <;> rfl

lemma stage_stepAttempt (r : Run) (i : Nat) (a : Attempt) (x : Stimulus) :
    (r.stepAttempt i a x).1.stage = r.stage := by
  unfold stepAttempt
  split
  · split
    · exact stage_awaitShare _ i _
    · exact stage_awaitShare r i _
    · exact stage_awaitTurn r i _ _
    · rfl
  · split <;> rfl
  · split
    · exact stage_minerDone r i _ _ _
    · rfl
  · split
    · exact stage_deliver r i _ _ _ _
    · rfl
  · rfl

/-! ### A run that stands still -/

/-- The shares are still being delivered, or all attempts have ended. -/
def Settled (r : Run) : Prop :=
  r.stage = .delivering ∨ ∀ z ∈ r.floor.standings, z.hasEnded = true

lemma hasEnded_standing (p : Phase) : p.standing.hasEnded = p.hasEnded := by
  cases p <;> rfl

lemma hasEnded_floor {r : Run} :
    (∀ z ∈ r.floor.standings, z.hasEnded = true) ↔ ∀ a ∈ r.attempts, a.phase.hasEnded = true := by
  simp [floor, hasEnded_standing]

lemma Settled.step (h : r.Settled) (x : Stimulus) : (r.step x).1.Settled := by
  cases r.step_effect x with
  | attempt hm hstage =>
    rw [hm]
    exact .inl ((stage_stepAttempt r _ _ x).trans hstage)
  | conclude hm _ _ hended =>
    refine .inr ?_
    rw [hm, floor_announce]
    exact hasEnded_floor.mpr hended
  | short hm _ _ hended =>
    rw [hm]
    exact .inr (hasEnded_floor.mpr hended)
  | taken hm hstage | refused hm hstage | unanswered hm hstage =>
    rw [hm]
    exact .inr (h.resolve_left (by simp [hstage]))
  | nothing hm => rwa [hm]

lemma Settled.steps (h : r.Settled) (xs : List Stimulus) : (r.steps xs).1.Settled :=
  kept_steps (fun _ h x => h.step x) h xs

lemma Settled.delivering (h : r.Settled) {a : Attempt} (ha : r.attempts[i]? = some a)
    (hlive : a.phase.hasEnded = false) : r.stage = .delivering := by
  refine h.resolve_right fun hended => ?_
  have hend := hasEnded_floor.mp hended a (List.mem_of_getElem? ha)
  rw [hlive] at hend
  exact absurd hend Bool.false_ne_true

lemma Still.not_progress (h : r.Still) (x : Stimulus) : ¬ r.floor.Progress (r.step x).1.floor := by
  intro hp
  have hlt := hp.effort_lt
  have hsame : (r.step x).1.floor.standings = r.floor.standings :=
    congrArg (List.map fun a : Attempt => a.phase.standing) (h x)
  rw [hsame] at hlt
  exact Nat.lt_irrefl _ hlt

lemma Still.blocked (h : r.Still) (hd : r.stage = .delivering) : r.floor.Blocked := by
  intro i z hz
  obtain ⟨a, ha, rfl⟩ : ∃ a, r.attempts[i]? = some a ∧ a.phase.standing = z := by
    simpa [floor] using hz
  have hk := signers_of_attempt ha
  -- A stimulus for each phase: to go on, to have been mined, to have waited too long.
  have hadvance := h.not_progress (.advance i)
  have hmined := h.not_progress (.mined i (.error .invalidEvent))
  have hhear := h.not_progress (.hear i .deadline)
  simp only [step, hd, ha] at hadvance hmined hhear
  simp only [stepAttempt] at hadvance hmined hhear
  cases hp : a.phase with
  | idle =>
    rw [hp] at hadvance hz
    exact absurd (floor_begin hz a.signer) hadvance
  | queued =>
    rw [hp] at hadvance hz
    exact .inr (.inl ⟨rfl, fun hi => hadvance (floor_awaitShare hz hi a.signer)⟩)
  | ready s draft =>
    rw [hp] at hadvance hz
    exact .inr (.inr ⟨s, rfl, fun hi => hadvance (.single (floor_awaitTurn hz hi draft))⟩)
  | mining s draft =>
    rw [hp] at hmined hz
    exact absurd (floor_minerDone hz a.signer _) hmined
  | delivering s d =>
    rw [hp] at hhear hz
    -- at the deadline the acknowledgement is missed, whatever the relays have answered
    have hverdict : (d.hear .deadline).verdict?.isSome := by
      cases hpub : d.publishing <;> simp [Delivery.hear, Delivery.verdict?, hpub]
    exact absurd (.single ((floor_deliver hz hk d .deadline).2 hverdict)) hhear
  | ended how => exact .inl ⟨how, rfl⟩

/-- **All attempts of a run that stands still have ended.** -/
theorem Still.ended (h : r.Still) (hset : r.Settled) (hs : r.floor.Sound) (ho : r.floor.Orderly)
    (hpos : 0 < r.admission.required) : ∀ a ∈ r.attempts, a.phase.hasEnded = true := by
  refine hasEnded_floor.mp ?_
  rcases hset with hd | hended
  · intro z hz
    obtain ⟨i, hi⟩ := List.mem_iff_getElem?.mp hz
    exact (h.blocked hd).ended hs ho hpos hi
  · exact hended

lemma stepAttempt_of_ended {a : Attempt} (h : a.phase.hasEnded = true) (i : Nat) (x : Stimulus) :
    r.stepAttempt i a x = (r, []) := by
  cases hp : a.phase with
  | ended how => cases x <;> simp only [stepAttempt, hp]
  | _ => simp [hp, Phase.hasEnded] at h

lemma still_of_ended (h : ∀ a ∈ r.attempts, a.phase.hasEnded = true) : r.Still := by
  intro x
  cases r.step_effect x with
  | attempt hm _ _ ha => rw [hm, stepAttempt_of_ended (h _ (List.mem_of_getElem? ha))]
  | conclude hm =>
    obtain ⟨entropy, stage, hannounce⟩ := r.exists_announce _
    rw [hm, hannounce]
  | short hm | taken hm | unanswered hm => rw [hm]; rfl
  | refused hm | nothing hm => rw [hm]

end Run

end KeyQuorum
