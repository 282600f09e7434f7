import Mathlib.Logic.Relation
import Mathlib.Tactic.Lemma
import KeyQuorum.Proofs.Distribution.Stillness

/-!
Whether the quorum is reached does not depend on the schedule.

Each candidate has a way to answer a share. However the attempts take turns, once nothing moves
any more all have ended, and the shares are placed just if enough candidates acknowledge: then
the others are too few to spend the budget of failures, and a candidate that acknowledges is
never sent away as long as a share is not placed.
-/

namespace KeyQuorum

/-- How a candidate answers the share it is to get. -/
inductive Reaction where
  /-- The candidate cannot be reached, and the share is given back. -/
  | unreachable
  | failing
  | acknowledging
  deriving DecidableEq

/-- Whether an attempt may end so. Anybody may find no share to be had, and whoever can be
reached may be stopped by the abort before its event is mined. -/
def Reaction.allows : Reaction → Ending → Bool
  | _, .refused => true
  | .unreachable, .unreachable => true
  | .failing, .failed _ => true
  | .failing, .abandoned => true
  | .acknowledging, .accepted => true
  | .acknowledging, .abandoned => true
  | _, _ => false

def Attempt.fits (reaction : PublicKey → Reaction) (a : Attempt) : Bool :=
  match a.phase with
  | .ended how => (reaction a.signer).allows how
  | _ => true

/-! ### What never changes during a run, or only once -/

namespace Admission

variable {α β : Type} {a b c : Admission α β} {slot : Nat}

/-- The terms are the same, and an abort has not been taken back. -/
structure Onward (a b : Admission α β) : Prop where
  required : b.required = a.required
  budget : b.budget = a.budget
  aborted : a.aborted = true → b.aborted = true

lemma Onward.refl (a : Admission α β) : a.Onward a := ⟨rfl, rfl, id⟩

lemma Onward.trans (h : a.Onward b) (h' : b.Onward c) : a.Onward c :=
  ⟨h'.required.trans h.required, h'.budget.trans h.budget, h'.aborted ∘ h.aborted⟩

lemma Keeps.onward (h : a.Keeps b) : a.Onward b :=
  ⟨h.required, h.budget, fun ha => h.aborted.trans ha⟩

lemma onward_fail (a : Admission α β) (slot : Nat) : a.Onward (a.fail slot).2 := by
  cases hs : a.held.lookup slot with
  | none => rw [fail_of_not_held hs]; exact .refl a
  | some s =>
    have hcharge : a.Onward a.charge := ⟨rfl, rfl, fun ha => by simp [charge, ha]⟩
    exact hcharge.trans (keeps_fail hs).onward

lemma onward_accept (a : Admission α β) (slot : Nat) (receipt : β) :
    a.Onward (a.accept slot receipt).2 := by
  cases hs : a.held.lookup slot with
  | none => rw [accept_of_not_held hs]; exact .refl a
  | some s =>
    have hplace : a.Onward (a.place slot receipt) := ⟨rfl, rfl, id⟩
    exact hplace.trans (keeps_accept hs receipt).onward

lemma finish_eq_ok {placed : List β} :
    a.finish = .ok placed ↔
      a.aborted = false ∧ a.pool = [] ∧ a.required ≤ a.accepted.length ∧ a.accepted = placed := by
  have hiff : (a.aborted || !a.pool.isEmpty || decide (a.accepted.length < a.required)) = false ↔
      a.aborted = false ∧ a.pool = [] ∧ a.required ≤ a.accepted.length := by
    simp [and_assoc]
  unfold finish
  cases h : (a.aborted || !a.pool.isEmpty || decide (a.accepted.length < a.required)) with
  | true =>
    rw [h] at hiff
    simp only [if_true, reduceCtorEq, false_iff]
    rintro ⟨ha, hp, hr, -⟩
    exact absurd (hiff.mpr ⟨ha, hp, hr⟩) (by simp)
  | false =>
    obtain ⟨ha, hp, hr⟩ := hiff.mp h
    simp [ha, hp, hr]

end Admission

namespace Floor

variable {f g : Floor}

lemma Step.onward (hs : f.Step g) : f.admission.Onward g.admission := by
  cases hs with
  | @refuse i a hx hr =>
    have := Admission.keeps_resume f.admission i i
    rw [hr] at this
    exact this.onward
  | @take i s a hx hr =>
    have := Admission.keeps_resume f.admission i i
    rw [hr] at this
    exact this.onward
  | unreachable hx => exact (Admission.keeps_giveBack _ _).onward
  | abandon hx ht ha => exact (Admission.keeps_giveBack _ _).onward
  | fail e hx => exact Admission.onward_fail _ _
  | accept hx hk => exact Admission.onward_accept _ _ _
  | _ => exact ⟨rfl, rfl, id⟩

lemma Steps.onward (hs : f.Steps g) : f.admission.Onward g.admission := by
  induction hs with
  | refl => exact .refl _
  | tail _ hs ih => exact ih.trans hs.onward

lemma Step.signers (hs : f.Step g) : g.signers = f.signers := by
  cases hs <;> rfl

lemma Steps.signers (hs : f.Steps g) : g.signers = f.signers := by
  induction hs with
  | refl => rfl
  | tail _ hs ih => exact hs.signers.trans ih

/-! ### The beginning of a run -/

lemma eq_idle {ks : List PublicKey} {j : Nat} {z : Standing}
    (h : (ks.map fun _ => Standing.idle)[j]? = some z) : z = .idle := by
  rw [List.getElem?_map] at h
  obtain ⟨k, -, rfl⟩ := Option.map_eq_some_iff.mp h
  rfl

lemma countP_start (ks : List PublicKey) {q : Standing → Bool} (hq : q .idle = false) :
    (ks.map fun _ => Standing.idle).countP q = 0 := by
  refine List.countP_eq_zero.mpr fun z hz => ?_
  obtain ⟨k, -, rfl⟩ := List.mem_map.mp hz
  exact Bool.eq_false_iff.mp hq

lemma listed_start (n : Nat) (ks : List PublicKey) {q : Standing → Bool} (hq : q .idle = false) :
    Listed ⟨n, [], []⟩ q (ks.map fun _ => .idle) := by
  refine ⟨List.nodup_nil, fun j => ?_⟩
  simp only [Permits.tickets, List.append_nil, List.not_mem_nil, false_iff]
  rintro ⟨z, hz, hqz⟩
  rw [eq_idle hz, hq] at hqz
  simp at hqz

lemma sound_start {shares : List KeyShare} {ks : List PublicKey} (h : shares.length ≤ ks.length)
    (turn : Permits) :
    Sound ⟨Admission.start shares ks.length, turn, ks, ks.map fun _ => .idle⟩ where
  accounts := Admission.sound_start shares ks.length
  holds := fun j s => by
    simp only [Admission.start, List.not_mem_nil, false_iff]
    rintro ⟨z, hz, hs⟩
    rw [eq_idle hz] at hs
    simp [Standing.share?] at hs
  waiting := listed_start _ ks rfl
  counted := by
    refine ⟨(countP_start ks rfl).symm, (countP_start ks rfl).symm, ?_, fun j hj => ?_,
      fun j hj => ?_⟩
    · simp [Admission.start, h]
    · simpa using eq_idle hj
    · simpa using eq_idle hj

lemma orderly_start (a : Admission KeyShare (PublicKey × String)) (ks : List PublicKey) :
    Orderly ⟨a, ⟨1, [], []⟩, ks, ks.map fun _ => .idle⟩ where
  prompt := fun h => absurd rfl h
  ready := listed_start 1 ks rfl
  one := by simp only [Permits.idle, countP_start ks (q := Standing.isMining) rfl]; rfl

end Floor

/-! ### Counting reactions -/

lemma Phase.eq_accepted {p : Phase} (h : p.standing.isAccepted = true) : p = .ended .accepted := by
  cases p with
  | ended how => cases how <;> simp [Phase.standing, Standing.isAccepted] at h ⊢
  | _ => simp [Phase.standing, Standing.isAccepted] at h

lemma Phase.eq_failed {p : Phase} (h : p.standing.isFailed = true) :
    ∃ e, p = .ended (.failed e) := by
  cases p with
  | ended how => cases how <;> simp [Phase.standing, Standing.isFailed] at h ⊢
  | _ => simp [Phase.standing, Standing.isFailed] at h

namespace Attempt

variable {reaction : PublicKey → Reaction} {a : Attempt}

lemma allows_of_ended (h : a.fits reaction = true) {how : Ending} (hp : a.phase = .ended how) :
    (reaction a.signer).allows how = true := by
  rwa [fits, hp] at h

lemma acknowledging_of_accepted (h : a.fits reaction = true)
    (ha : a.phase.standing.isAccepted = true) : reaction a.signer = .acknowledging := by
  have hallows := allows_of_ended h (Phase.eq_accepted ha)
  cases hr : reaction a.signer <;> simp [hr, Reaction.allows] at hallows ⊢

lemma failing_of_failed (h : a.fits reaction = true) (ha : a.phase.standing.isFailed = true) :
    reaction a.signer = .failing := by
  obtain ⟨e, hp⟩ := Phase.eq_failed ha
  have hallows := allows_of_ended h hp
  cases hr : reaction a.signer <;> simp [hr, Reaction.allows] at hallows ⊢

lemma accepted_of_acknowledging (h : a.fits reaction = true) (he : a.phase.hasEnded = true)
    (hr : reaction a.signer = .acknowledging) (hrefused : a.phase ≠ .ended .refused)
    (habandoned : a.phase ≠ .ended .abandoned) : a.phase.standing.isAccepted = true := by
  cases hp : a.phase with
  | ended how =>
    have hallows := allows_of_ended h hp
    rw [hr] at hallows
    rw [hp] at hrefused habandoned
    cases how <;> simp [Reaction.allows, Phase.standing, Standing.isAccepted] at *
  | _ => simp [hp, Phase.hasEnded] at he

end Attempt

namespace Run

variable {dealer : KeyPair} {settings : Settings} {request : Request} {now : Timestamp}
  {shares : List KeyShare} {entropy : Entropy} {r₀ r : Run} {reaction : PublicKey → Reaction}

/-- **A run starts** just if the parameters fit and there are candidates enough, one attempt for
each of them. -/
lemma start_eq_ok_iff : start dealer settings request now shares entropy = .ok r ↔
    request.threshold ≠ 0 ∧ request.threshold ≤ request.maxSigners ∧
      shares.length = request.maxSigners.toNat ∧
      request.maxSigners.toNat ≤ request.candidates.eraseDups.length ∧
      r = { dealer, settings, request, now, entropy
            admission := Admission.start shares request.candidates.eraseDups.length
            progress := Progress.start request.difficulty request.maxSigners.toNat
            attempts := request.candidates.eraseDups.map fun signer => { signer } } := by
  unfold start
  dsimp only
  split
  · next hunfit =>
    refine iff_of_false nofun fun ⟨hthreshold, hle, hshares, _⟩ => ?_
    rcases hunfit with hzero | hlt | hne
    · exact hthreshold hzero
    · exact UInt32.not_lt.mpr hle hlt
    · exact hne hshares
  · next hfit =>
    rw [not_or, not_or, UInt32.not_lt, Decidable.not_not] at hfit
    obtain ⟨hthreshold, hle, hshares⟩ := hfit
    split
    · next hfew => exact iff_of_false nofun fun h => absurd hfew (Nat.not_lt.mpr h.2.2.2.1)
    · next hmany =>
      rw [Except.ok.injEq, eq_comm]
      exact ⟨fun h => ⟨hthreshold, hle, hshares, Nat.not_lt.mp hmany, h⟩, fun h => h.2.2.2.2⟩

lemma start_eq_ok (h : start dealer settings request now shares entropy = .ok r) :
    let ks := request.candidates.eraseDups
    0 < shares.length ∧ shares.length = request.maxSigners.toNat ∧ shares.length ≤ ks.length ∧
      r.stage = .delivering ∧
      r.floor = ⟨Admission.start shares ks.length, ⟨1, [], []⟩, ks, ks.map fun _ => .idle⟩ := by
  obtain ⟨hthreshold, hle, hshares, hmany, rfl⟩ := start_eq_ok_iff.mp h
  have hpos : request.threshold.toNat ≠ 0 := fun h0 => hthreshold (UInt32.toNat_inj.mp h0)
  rw [UInt32.le_iff_toNat_le] at hle
  refine ⟨by omega, hshares, by omega, rfl, ?_⟩
  simp [floor, Phase.standing, Function.comp_def]

/-- What holds of a run at any time. -/
structure Underway (request : Request) (r : Run) : Prop where
  sound : r.floor.Sound
  orderly : r.floor.Orderly
  settled : r.Settled
  signers : r.attempts.map Attempt.signer = request.candidates.eraseDups
  required : r.admission.required = request.maxSigners.toNat
  pos : 0 < request.maxSigners.toNat
  budget : r.admission.budget + request.maxSigners.toNat = r.attempts.length

lemma underway_steps (h : start dealer settings request now shares entropy = .ok r)
    (xs : List Stimulus) : Underway request (r.steps xs).1 := by
  obtain ⟨hpos, hlen, hle, hstage, hfloor⟩ := start_eq_ok h
  have hsteps := floor_steps r xs
  have honward := hsteps.onward
  have hsigners := hsteps.signers
  have hsound := (Floor.sound_start hle _).steps (hfloor ▸ hsteps)
  have horderly := (Floor.orderly_start _ _).steps (hfloor ▸ hsteps)
  rw [hfloor] at hsigners honward
  refine ⟨hsound, horderly, Settled.steps (.inl hstage) xs, hsigners,
    honward.required.trans hlen, hlen ▸ hpos, ?_⟩
  -- There are as many attempts as candidates, and as much to spare as those leave.
  have hcount : (r.steps xs).1.attempts.length = request.candidates.eraseDups.length := by
    rw [← List.length_map (f := Attempt.signer)]
    exact congrArg List.length hsigners
  have hbudget : (r.steps xs).1.admission.budget =
      request.candidates.eraseDups.length - shares.length := honward.budget
  omega

lemma Underway.count (h : Underway request r) :
    r.admission.pool.length + r.admission.held.length + r.admission.accepted.length =
      r.admission.required :=
  h.sound.accounts.count

def willing (reaction : PublicKey → Reaction) (request : Request) : Nat :=
  request.candidates.eraseDups.countP fun k => reaction k = .acknowledging

lemma Underway.willing_eq (h : Underway request r) (reaction : PublicKey → Reaction) :
    willing reaction request = r.attempts.countP fun a => reaction a.signer = .acknowledging := by
  rw [willing, ← h.signers, List.countP_map]
  rfl

lemma Underway.accepted_le (h : Underway request r) (hfits : ∀ a ∈ r.attempts, a.fits reaction) :
    r.admission.accepted.length ≤ willing reaction request := by
  have hacc : r.admission.accepted.length = r.floor.standings.countP Standing.isAccepted :=
    h.sound.counted.accepted
  rw [hacc, h.willing_eq, floor, List.countP_map]
  refine List.countP_mono_left fun a ha hp => ?_
  simpa using a.acknowledging_of_accepted (hfits a ha) hp

lemma Underway.failures_le (h : Underway request r) (hfits : ∀ a ∈ r.attempts, a.fits reaction) :
    r.admission.failures + willing reaction request ≤ r.attempts.length := by
  have hfail : r.admission.failures = r.floor.standings.countP Standing.isFailed :=
    h.sound.counted.failures
  rw [hfail, h.willing_eq, floor, List.countP_map, Nat.add_comm,
    List.length_eq_countP_add_countP fun a => decide (reaction a.signer = .acknowledging)]
  refine Nat.add_le_add_left (List.countP_mono_left fun a ha hp => ?_) _
  have := a.failing_of_failed (hfits a ha) hp
  simp [this]

/-- With enough who acknowledge the run is not aborted, however many fail. -/
lemma Underway.not_aborted (h : Underway request r) (hfits : ∀ a ∈ r.attempts, a.fits reaction)
    (hw : request.maxSigners.toNat ≤ willing reaction request) :
    r.admission.aborted = false := by
  have haborted : r.admission.aborted = decide (r.admission.budget < r.admission.failures) :=
    h.sound.counted.aborted
  have hfail := h.failures_le hfits
  have hbudget := h.budget
  rw [haborted]
  exact decide_eq_false (by omega)

/-- With enough who acknowledge all shares are placed in the end. -/
lemma Underway.placed (h : Underway request r) (hended : ∀ a ∈ r.attempts, a.phase.hasEnded = true)
    (hfits : ∀ a ∈ r.attempts, a.fits reaction)
    (hw : request.maxSigners.toNat ≤ willing reaction request) :
    r.admission.accepted.length = r.admission.required := by
  have haborted := h.not_aborted hfits hw
  have hcount := h.count
  rcases Nat.lt_or_ge r.admission.accepted.length r.admission.required with hlt | hge
  · -- nobody has been sent away, so everybody who acknowledges has accepted
    have hall : willing reaction request ≤ r.floor.standings.countP Standing.isAccepted := by
      rw [h.willing_eq, floor, List.countP_map]
      refine List.countP_mono_left fun a ha hr => ?_
      obtain ⟨i, hi⟩ := List.mem_iff_getElem?.mp ha
      have hstanding := standings_of_attempt hi
      refine a.accepted_of_acknowledging (hfits a ha) (hended a ha) (by simpa using hr) ?_ ?_
      · intro hp
        rw [hp] at hstanding
        rcases h.sound.counted.refused i hstanding with hab | hfull
        · exact absurd (haborted.symm.trans hab) (by simp)
        · exact absurd hfull (Nat.ne_of_lt hlt)
      · intro hp
        rw [hp] at hstanding
        exact absurd (haborted.symm.trans (h.sound.counted.abandoned i hstanding)) (by simp)
    have hreq := h.required
    have hacc : r.admission.accepted.length = r.floor.standings.countP Standing.isAccepted :=
      h.sound.counted.accepted
    omega
  · omega

/-- **The outcome does not depend on the schedule.** Whatever has happened in whatever order, when
nothing moves any more all attempts have ended. The shares are placed just if there are enough
who acknowledge, and then the run was never aborted. -/
theorem quorum_iff_enough_acknowledge
    (hstart : start dealer settings request now shares entropy = .ok r₀) (xs : List Stimulus)
    (hstill : (r₀.steps xs).1.Still) :
    let r := (r₀.steps xs).1
    (∀ a ∈ r.attempts, a.phase.hasEnded = true) ∧
      ∀ reaction : PublicKey → Reaction, (∀ a ∈ r.attempts, a.fits reaction) →
        ((∃ placed, r.admission.finish = .ok placed) ↔
          request.maxSigners.toNat ≤ willing reaction request) ∧
        ∀ placed, r.admission.finish = .ok placed → placed.length = request.maxSigners.toNat ∧
          ∀ ys zs, xs = ys ++ zs → (r₀.steps ys).1.admission.aborted = false := by
  have h := underway_steps hstart xs
  have hended := hstill.ended h.settled h.sound h.orderly (h.required ▸ h.pos)
  refine ⟨hended, fun reaction hfits => ⟨⟨?_, fun hw => ?_⟩, fun placed hfin => ⟨?_, ?_⟩⟩⟩
  · rintro ⟨placed, hfin⟩
    obtain ⟨-, -, hge, -⟩ := Admission.finish_eq_ok.mp hfin
    exact h.required ▸ Nat.le_trans hge (h.accepted_le hfits)
  · -- enough acknowledge: all shares are placed, and so the pool is empty
    have hfull := h.placed hended hfits hw
    have hcount := h.count
    have hkept := h.not_aborted hfits hw
    refine ⟨_, Admission.finish_eq_ok.mpr ⟨hkept, ?_, Nat.le_of_eq hfull.symm, rfl⟩⟩
    exact List.eq_nil_of_length_eq_zero (by omega)
  · obtain ⟨-, -, hge, rfl⟩ := Admission.finish_eq_ok.mp hfin
    have hcount := h.count
    have hreq := h.required
    omega
  · rintro ys zs rfl
    obtain ⟨haborted, -⟩ := Admission.finish_eq_ok.mp hfin
    -- An abort at any time before would still stand at the end.
    have honward : (r₀.steps ys).1.admission.Onward (r₀.steps (ys ++ zs)).1.admission := by
      rw [steps_append]
      exact (floor_steps _ zs).onward
    refine Bool.eq_false_iff.mpr fun hab => ?_
    rw [honward.aborted hab] at haborted
    simp at haborted

/-! ### A run without a quorum -/

def dealerKeys : KeyPair := (KeyPair.ofScalar? 5).get (by decide +kernel)

def signerKeys : KeyPair := (KeyPair.ofScalar? 1).get (by decide +kernel)

def oneForTwo : Request where
  threshold := 1
  maxSigners := 1
  candidates := [dealerKeys.publicKey, signerKeys.publicKey]
  coordinator := "wss://relay.damus.io"
  difficulty := 0
  inboxes := [(signerKeys.publicKey, ["wss://relay.primal.net"])]
  ownInbox := []

def oneShare : List KeyShare := (Dealing.ofPolynomial [7] (Point.ofScalar 7) 1).shares

def oneForTwoRun : Run where
  dealer := dealerKeys
  settings := {}
  request := oneForTwo
  now := 0
  entropy := .ofBlocks [] .counting
  admission := Admission.start oneShare oneForTwo.candidates.eraseDups.length
  progress := Progress.start 0 1
  attempts := oneForTwo.candidates.eraseDups.map fun signer => { signer }

/-- The miner fails the candidate that can be reached, and no share is placed. -/
theorem nobody_acknowledges :
    let xs : List Stimulus := [.advance 0, .advance 1, .mined 1 (.error (.mining "stopped"))]
    let r := (oneForTwoRun.steps xs).1
    let reaction := fun k => if k = signerKeys.publicKey then Reaction.failing else .unreachable
    start dealerKeys {} oneForTwo 0 oneShare (.ofBlocks [] .counting) = .ok oneForTwoRun ∧
      r.Still ∧ (∀ a ∈ r.attempts, a.fits reaction) ∧
      ¬ ∃ placed, r.admission.finish = .ok placed := by
  have hstart : start dealerKeys {} oneForTwo 0 oneShare (.ofBlocks [] .counting) =
      .ok oneForTwoRun :=
    start_eq_ok_iff.mpr ⟨by decide, by decide, by decide, by decide +kernel, rfl⟩
  intro xs r reaction
  have hall : ∀ a ∈ r.attempts, a.phase.hasEnded ∧ a.fits reaction := by decide +kernel
  have hstill : r.Still := still_of_ended fun a ha => (hall a ha).1
  have hfits : ∀ a ∈ r.attempts, a.fits reaction := fun a ha => (hall a ha).2
  have hwilling : ¬ oneForTwo.maxSigners.toNat ≤ willing reaction oneForTwo := by decide +kernel
  have h := (quorum_iff_enough_acknowledge hstart xs hstill).2 reaction hfits
  exact ⟨hstart, hstill, hfits, fun hfin => hwilling (h.1.mp hfin)⟩

end Run

end KeyQuorum
