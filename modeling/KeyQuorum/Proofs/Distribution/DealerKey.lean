import Mathlib.Tactic.Lemma
import KeyQuorum.Proofs.Distribution.Announcement
import KeyQuorum.Proofs.Key.Agreement
import KeyQuorum.Proofs.Message.Encrypting

/-!
What is dealt is the dealer's own key.

The secret is made even before anything is derived from it, and a public key names the even one of
the two points of its secret. So the group's point is the point of the dealer's key, for secrets
of either sign, and a secret and its opposite are dealt alike. The check that compares the two
keys before a run starts never fails, and no later part of a run makes an error of the dealing.
-/

namespace KeyQuorum

lemma Point.evened_neg {n : Scalar} (hn : n ≠ 0) : evened (-n) = evened n := by
  have hparity : (-ofScalar n).oddY = !(ofScalar n).oddY := oddY_neg (ofScalar_ne_infinity.mpr hn)
  unfold evened
  rw [ofScalar_neg, hparity]
  cases (ofScalar n).oddY <;> simp

lemma PublicKey.ofPoint?_point (k : PublicKey) : ofPoint? k.point = some k := by
  have hlift : Point.lift? false k.x = some k.point := (Option.some_get k.lifts).symm
  obtain ⟨y, hxy, hpoint, -⟩ := Point.lift?_eq_some hlift
  rw [hpoint]
  exact ofX?_x k

namespace Dealing

variable {k : KeyPair} {secret : Scalar} {threshold maxSigners : UInt32} {e e' : Entropy}
  {d : Dealing} {fault : SharingError}

lemma group_of_pair (h : deal k.secret threshold maxSigners e = .ok (d, e')) :
    d.group = k.publicKey.point := by
  obtain ⟨-, -, rfl⟩ := deal_eq_ok h
  exact k.ofScalar_evenSecret

lemma oddY_group (h : deal secret threshold maxSigners e = .ok (d, e')) : d.group.oddY = false := by
  obtain ⟨-, -, rfl⟩ := deal_eq_ok h
  exact Point.oddY_evened secret

lemma head?_commitments (h : deal secret threshold maxSigners e = .ok (d, e')) :
    d.commitments.head? = some d.group := by
  obtain ⟨-, -, rfl⟩ := deal_eq_ok h
  rfl

lemma uniform_of_deal (h : deal secret threshold maxSigners e = .ok (d, e')) :
    ∀ s ∈ d.shares, s.group = d.group ∧ s.publicShare.commitments = d.commitments := by
  obtain ⟨-, -, rfl⟩ := deal_eq_ok h
  intro s hs
  obtain ⟨i, -, rfl⟩ := List.mem_map.mp hs
  exact ⟨rfl, rfl⟩

lemma deal_neg (hsecret : secret ≠ 0) (threshold maxSigners : UInt32) (e : Entropy) :
    deal (-secret) threshold maxSigners e = deal secret threshold maxSigners e := by
  have hcanonical : canonical (-secret) = canonical secret := Point.evened_neg hsecret
  simp only [deal, neg_eq_zero, hcanonical]

/-- Only its parameters can keep a secret from being dealt, if it is not zero. -/
lemma deal_eq_error (hsecret : secret ≠ 0)
    (h : deal secret threshold maxSigners e = .error fault) : fault = .invalidParameters := by
  by_cases hadmissible : Admissible threshold maxSigners
  · obtain ⟨rest, hdeal⟩ := deal_of_admissible hsecret hadmissible e
    rw [hdeal] at h
    cases h
  · rw [deal, if_pos hadmissible] at h
    exact (Except.error.inj h).symm

end Dealing

namespace Run

variable {dealer : KeyPair} {settings : Settings} {request : Request} {now : Timestamp}
  {shares : List KeyShare} {entropy : Entropy} {r : Run} {error : DistributionError}

/-! ### How a run over the dealer's own secret ends -/

def shard (dealer : KeyPair) (settings : Settings) (request : Request) (now : Timestamp)
    (entropy : Entropy) (xs : List Stimulus) : Option (Except DistributionError Record) :=
  match startDealing dealer settings request now entropy with
  | .error e => some (.error e)
  | .ok r => (r.steps xs).1.result?

lemma startDealing_eq (dealer : KeyPair) (settings : Settings) (request : Request)
    (now : Timestamp) (entropy : Entropy) :
    startDealing dealer settings request now entropy =
      match Dealing.deal dealer.secret request.threshold request.maxSigners entropy with
      | .error e => .error (.ofSharing e)
      | .ok (d, e') => start dealer settings request now d.shares e' := by
  unfold startDealing
  cases hdeal : Dealing.deal dealer.secret request.threshold request.maxSigners entropy with
  | error e => rfl
  | ok dealt =>
    obtain ⟨d, e'⟩ := dealt
    have hgroup : PublicKey.ofPoint? d.group = some dealer.publicKey := by
      rw [Dealing.group_of_pair hdeal, PublicKey.ofPoint?_point]
    exact if_pos hgroup

/-- The errors that a run can end with: bad parameters, too few signers, a record that cannot be
signed, and a coordinator that does not take it. -/
inductive EndsWith : DistributionError → Prop
  | parameters : EndsWith .invalidParameters
  | signers (accepted required : Nat) : EndsWith (.insufficientSigners accepted required)
  | unsigned : EndsWith (.crypto (.messaging (.key .signingFailed)))
  | refused (message : String) : EndsWith (.coordinatorPublishFailure message)

lemma endsWith_of_start (h : start dealer settings request now shares entropy = .error error) :
    EndsWith error := by
  rcases start_cases dealer settings request now shares entropy with
    ⟨-, hstart⟩ | ⟨-, -, hstart⟩ | ⟨-, -, r, hstart⟩ <;> rw [h] at hstart
  · obtain rfl := Except.error.inj hstart
    exact .parameters
  · obtain rfl := Except.error.inj hstart
    exact .signers 0 _
  · cases hstart

lemma endsWith_announce (h : (r.announce r.admission.accepted).1.stage = .finished (.error error)) :
    EndsWith error := by
  cases hdraw : r.drawUp with
  | error e =>
    obtain ⟨hstage, -⟩ := announce_of_error hdraw
    obtain rfl : e = error := by simpa [hstage] using h
    exact drawUp_eq_error hdraw ▸ .unsigned
  | ok record =>
    obtain ⟨hstage, -⟩ := announce_of_ok hdraw
    rw [hstage] at h
    cases h

def EndsSo (r : Run) : Prop := ∀ e, r.stage = .finished (.error e) → EndsWith e

lemma EndsSo.step (h : r.EndsSo) (x : Stimulus) : (r.step x).1.EndsSo := by
  intro error hend
  cases r.step_effect x with
  | attempt hm hstage =>
    rw [hm] at hend
    cases ((stage_stepAttempt r _ _ x).trans hstage).symm.trans hend
  | conclude hm _ _ _ hfinish =>
    obtain ⟨-, -, -, rfl⟩ := Admission.finish_eq_ok.mp hfinish
    rw [hm] at hend
    exact endsWith_announce hend
  | @short e hm _ _ _ hfinish =>
    rw [hm] at hend
    obtain rfl : e = error := by simpa [finish] using hend
    exact Admission.finish_eq_error hfinish ▸ .signers _ _
  | taken hm | refused hm =>
    rw [hm] at hend
    cases hend
  | unanswered hm =>
    rw [hm] at hend
    obtain rfl := Except.error.inj (Stage.finished.inj hend)
    exact .refused _
  | nothing hm =>
    rw [hm] at hend
    exact h error hend

lemma endsWith_steps (hstage : r.stage = .delivering) (xs : List Stimulus)
    (h : (r.steps xs).1.result? = some (.error error)) : EndsWith error := by
  have hdelivering : r.EndsSo := fun e he => absurd (hstage.symm.trans he) nofun
  have hends : (r.steps xs).1.EndsSo := kept_steps (fun _ h x => h.step x) hdelivering xs
  unfold result? at h
  split at h
  · next result hresult =>
    rw [Option.some.inj h] at hresult
    exact hends error hresult
  · cases h

lemma endsWith_shard {xs : List Stimulus}
    (h : shard dealer settings request now entropy xs = some (.error error)) :
    EndsWith error := by
  unfold shard at h
  rw [startDealing_eq] at h
  cases hdeal : Dealing.deal dealer.secret request.threshold request.maxSigners entropy with
  | error fault =>
    -- The secret of a pair is not zero, so the parameters are at fault.
    obtain rfl := Dealing.deal_eq_error dealer.secret_ne_zero hdeal
    simp only [hdeal] at h
    obtain rfl := Except.error.inj (Option.some.inj h)
    exact .parameters
  | ok dealt =>
    obtain ⟨d, e'⟩ := dealt
    simp only [hdeal] at h
    cases hstart : start dealer settings request now d.shares e' with
    | error e =>
      simp only [hstart] at h
      obtain rfl := Except.error.inj (Option.some.inj h)
      exact endsWith_of_start hstart
    | ok r =>
      simp only [hstart] at h
      obtain ⟨-, -, -, hstage, -⟩ := start_eq_ok hstart
      exact endsWith_steps hstage xs h

/-- **The dealer's own key is dealt.** A pair's secret, even or odd, is dealt as the group whose
point the pair's key names, with the commitment to it in front and the same for all shares; a run
over it never ends for a group that is not the dealer's or a secret that is zero; and a secret is
dealt as its opposite is. -/
theorem deals_own_key :
    (∀ (k : KeyPair) (threshold maxSigners : UInt32), Dealing.Admissible threshold maxSigners →
      ∀ e, ∃ d e', Dealing.deal k.secret threshold maxSigners e = .ok (d, e') ∧
        d.group = k.publicKey.point ∧ d.group.oddY = false ∧
        d.commitments.head? = some d.group ∧
        ∀ s ∈ d.shares, s.group = d.group ∧ s.publicShare.commitments = d.commitments) ∧
    (∀ dealer settings request now entropy xs,
      shard dealer settings request now entropy xs ≠ some (.error (.crypto .foreignGroup)) ∧
      shard dealer settings request now entropy xs ≠
        some (.error (.crypto (.sharing .zeroSecret)))) ∧
    ∀ (secret : Scalar), secret ≠ 0 → ∀ threshold maxSigners e,
      Dealing.deal (-secret) threshold maxSigners e =
        Dealing.deal secret threshold maxSigners e := by
  refine ⟨fun k threshold maxSigners h e => ?_, fun dealer settings request now entropy xs => ?_,
    fun secret hsecret threshold maxSigners e => Dealing.deal_neg hsecret threshold maxSigners e⟩
  · obtain ⟨e', hdeal⟩ := Dealing.deal_of_admissible k.secret_ne_zero h e
    exact ⟨_, e', hdeal, Dealing.group_of_pair hdeal, Dealing.oddY_group hdeal,
      Dealing.head?_commitments hdeal, Dealing.uniform_of_deal hdeal⟩
  · refine ⟨fun h => ?_, fun h => ?_⟩ <;> cases endsWith_shard h

/-- The secret six, whose point is odd, is dealt as minus six. -/
theorem six_dealt_as_minus_six :
    let k := KeyPair.ofUnit ⟨6, by decide⟩
    Dealing.Admissible 2 3 ∧ k.secret ≠ 0 ∧
      ∃ d e', Dealing.deal k.secret 2 3 (.ofBlocks [] .counting) = .ok (d, e') ∧
        Dealing.deal (-k.secret) 2 3 (.ofBlocks [] .counting) = .ok (d, e') ∧
        d.group = k.publicKey.point ∧ d.group = Point.ofScalar (-6) ∧
        d.commitments.head? = some d.group := by
  intro k
  have hadmissible : Dealing.Admissible 2 3 := by decide
  obtain ⟨hown, -, hsign⟩ := deals_own_key
  obtain ⟨d, e', hdeal, hgroup, heven, hhead, -⟩ :=
    hown k 2 3 hadmissible (.ofBlocks [] .counting)
  have hodd : (Point.ofScalar 6).oddY = true := by decide +kernel
  have hsix : d.group = Point.ofScalar (-6) := by
    rw [hgroup, ← k.ofScalar_evenSecret, KeyPair.evenSecret, KeyPair.secret_ofUnit, if_pos hodd]
  exact ⟨hadmissible, k.secret_ne_zero, d, e', hdeal,
    (hsign k.secret k.secret_ne_zero 2 3 _).trans hdeal, hgroup, hsix, hhead⟩

end Run

end KeyQuorum
