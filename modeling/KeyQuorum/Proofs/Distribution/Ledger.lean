import Mathlib.Tactic.Lemma
import KeyQuorum.Proofs.Distribution.Transitions
import KeyQuorum.Proofs.Distribution.Quorum

/-!
The ledger of a run: which share was placed at which signer, one entry for each acceptance.

What the admission has on record is the ledger, written out; the shares in the ledger and those
not placed yet are together the shares of the beginning; and no signer is in the ledger twice,
since an attempt that has placed its share has ended.
-/

namespace KeyQuorum

/-! ### Shares on the floor -/

namespace Floor

variable {f g : Floor}

/-- A small step records nothing and takes no share away, or makes the record longer. -/
lemma Step.recorded (h : f.Sound) (hs : f.Step g) :
    (g.admission.accepted = f.admission.accepted ∧
      g.admission.unplaced.Perm f.admission.unplaced) ∨
    f.admission.accepted.length < g.admission.accepted.length := by
  have hn := h.accounts.slots
  -- Only an acceptance makes the record longer; all other steps leave it, and move shares at most.
  cases hs with
  | @refuse i a hx hr =>
    have hacc := (Admission.keeps_resume f.admission i i).accepted
    have hperm := Admission.unplaced_resume f.admission i i
    rw [hr] at hacc hperm
    exact .inl ⟨hacc, hperm⟩
  | @take i s a hx hr =>
    have hacc := (Admission.keeps_resume f.admission i i).accepted
    have hperm := Admission.unplaced_resume f.admission i i
    rw [hr] at hacc hperm
    exact .inl ⟨hacc, hperm⟩
  | unreachable hx =>
    exact .inl ⟨(Admission.keeps_giveBack _ _).accepted, Admission.unplaced_giveBack hn _⟩
  | abandon hx ht ha =>
    exact .inl ⟨(Admission.keeps_giveBack _ _).accepted, Admission.unplaced_giveBack hn _⟩
  | fail e hx => exact .inl ⟨Admission.accepted_fail _ _, Admission.unplaced_fail hn _⟩
  | @accept i s k hx hk =>
    have hl := h.holds.lookup hn hx rfl
    refine .inr ?_
    show _ < (f.admission.accept i (k, s.publicShare.toHex)).2.accepted.length
    rw [(Admission.keeps_accept hl _).accepted]
    simp [Admission.place]
  | _ => exact .inl ⟨rfl, List.Perm.refl _⟩

lemma Steps.recorded (h : f.Sound) (hs : f.Steps g) :
    f.admission.accepted.length ≤ g.admission.accepted.length ∧
      (g.admission.accepted.length = f.admission.accepted.length →
        g.admission.unplaced.Perm f.admission.unplaced) := by
  -- A record that is as long at the end as before has not grown on the way.
  induction hs with
  | refl => exact ⟨Nat.le_refl _, fun _ => List.Perm.refl _⟩
  | tail hsteps hstep ih =>
    obtain ⟨hle, hperm⟩ := ih
    rcases hstep.recorded (h.steps hsteps) with ⟨hacc, hstay⟩ | hlt
    · rw [hacc]
      exact ⟨hle, fun heq => hstay.trans (hperm heq)⟩
    · exact ⟨by omega, fun heq => by omega⟩

end Floor

namespace Run

def receipt (p : PublicKey × KeyShare) : PublicKey × String := (p.1, p.2.publicShare.toHex)

def placements : Run → List Stimulus → List (PublicKey × KeyShare)
  | _, [] => []
  | r, x :: xs => (r.placement? x).toList ++ (r.step x).1.placements xs

variable {r : Run} {x : Stimulus} {k : PublicKey} {s : KeyShare}

lemma mem_placements {xs : List Stimulus} {p : PublicKey × KeyShare} :
    p ∈ r.placements xs ↔
      ∃ ys x zs, xs = ys ++ x :: zs ∧ (r.steps ys).1.placement? x = some p := by
  induction xs generalizing r with
  | nil => simp [placements]
  | cons y xs ih =>
    rw [placements, List.mem_append, Option.mem_toList, ih]
    constructor
    · rintro (hp | ⟨ys, x, zs, rfl, hp⟩)
      · exact ⟨[], y, xs, rfl, hp⟩
      · exact ⟨y :: ys, x, zs, rfl, hp⟩
    · rintro ⟨ys, x, zs, hxs, hp⟩
      cases ys with
      | nil =>
        obtain ⟨rfl, rfl⟩ := List.cons.inj hxs
        exact .inl hp
      | cons z ys =>
        obtain ⟨rfl, rfl⟩ := List.cons.inj hxs
        exact .inr ⟨ys, x, zs, rfl, hp⟩

/-! ### What runs keep -/

lemma terms_step (r : Run) (x : Stimulus) : (r.step x).1.terms = r.terms := by
  cases r.step_becomes x with
  | rest hterms => exact hterms
  | move _ _ henters => exact henters.terms
  | place _ _ _ _ hterms => exact hterms

lemma terms_steps (r : Run) (xs : List Stimulus) : (r.steps xs).1.terms = r.terms :=
  kept_steps (P := fun r' => r'.terms = r.terms) (fun r' h x => (terms_step r' x).trans h) rfl xs

lemma signers_step (r : Run) (x : Stimulus) :
    (r.step x).1.attempts.map Attempt.signer = r.attempts.map Attempt.signer :=
  (floor_step r x).signers

lemma signers_steps (r : Run) (xs : List Stimulus) :
    (r.steps xs).1.attempts.map Attempt.signer = r.attempts.map Attempt.signer :=
  (floor_steps r xs).signers

lemma Next.eq_of_ended {i : Nat} {p q : Phase} (h : r.Next x i k p q) (hp : p.hasEnded = true) :
    q = p := by
  cases h with
  | stay => rfl
  | wait hwaits _ => rcases hwaits with rfl | rfl <;> exact absurd hp Bool.false_ne_true
  | stop hlive _ => rw [hlive] at hp; exact absurd hp Bool.false_ne_true
  | _ => exact absurd hp Bool.false_ne_true

lemma ended_step {j : Nat} {b : Attempt} (hb : r.attempts[j]? = some b)
    (hended : b.phase.hasEnded = true) (x : Stimulus) : (r.step x).1.attempts[j]? = some b := by
  have hb' := fun i q =>
    List.getElem?_modify (fun a : Attempt => { a with phase := q }) i r.attempts j
  simp only [hb] at hb'
  cases r.step_becomes x with
  | rest _ hattempts => rw [hattempts, hb]
  | @move i a q ha hnext henters _ =>
    rw [henters.attempts, hb']
    by_cases hij : i = j
    · subst hij
      obtain rfl : b = a := Option.some.inj (hb.symm.trans ha)
      rw [hnext.eq_of_ended hended]
      simp
    · simp [hij]
  | @place i k s d input _ ha _ _ _ hattempts _ =>
    rw [hattempts, hb']
    by_cases hij : i = j
    · subst hij
      obtain rfl : b = ⟨k, .delivering s d⟩ := Option.some.inj (hb.symm.trans ha)
      exact absurd hended Bool.false_ne_true
    · simp [hij]

lemma ended_steps {i : Nat} {a : Attempt} (ha : r.attempts[i]? = some a)
    (hended : a.phase.hasEnded = true) (xs : List Stimulus) :
    (r.steps xs).1.attempts[i]? = some a :=
  kept_steps (P := fun r => r.attempts[i]? = some a) (fun _ ha x => ended_step ha hended x) ha xs

/-- Attempts of one signer are one attempt. -/
lemma eq_of_signer (hn : (r.attempts.map Attempt.signer).Nodup) {i j : Nat} {a b : Attempt}
    (ha : r.attempts[i]? = some a) (hb : r.attempts[j]? = some b) (hab : a.signer = b.signer) :
    i = j := by
  have hi := signers_of_attempt ha
  have hj := signers_of_attempt hb
  rw [hab] at hi
  obtain ⟨hlt, -⟩ := List.getElem?_eq_some_iff.mp hi
  exact (List.getElem?_inj hlt hn).mp (hi.trans hj.symm)

/-! ### The record is the ledger -/

lemma recorded_step (h : r.floor.Sound) (x : Stimulus) :
    (r.step x).1.admission.accepted = r.admission.accepted ++ (r.placement? x).toList.map receipt ∧
      r.admission.unplaced.Perm
        ((r.placement? x).toList.map Prod.snd ++ (r.step x).1.admission.unplaced) := by
  have hsteps := floor_step r x
  -- What the small steps do to the shares is known as soon as it is known whether the record grows.
  cases r.step_becomes x with
  | rest _ _ hadmission hnone =>
    rw [hnone, hadmission]
    simp
  | move _ _ henters hnone =>
    rw [hnone, henters.accepted]
    have hlen : (r.step x).1.floor.admission.accepted.length = r.floor.admission.accepted.length :=
      congrArg List.length henters.accepted
    exact ⟨by simp, ((Floor.Steps.recorded h hsteps).2 hlen).symm⟩
  | @place i k s d input _ ha _ hsome _ _ hadmission =>
    have hl : r.admission.held.lookup i = some s :=
      h.holds.lookup h.accounts.slots (standings_of_attempt ha) rfl
    have hunplaced := Admission.unplaced_accept h.accounts.slots hl (k, s.publicShare.toHex)
    rw [hsome, hadmission, (Admission.keeps_accept hl _).accepted]
    exact ⟨rfl, hunplaced⟩

/-- **The record is the ledger written out**, and the shares in the ledger are those that are
missing from the pool and the slots. -/
theorem recorded_steps (h : r.floor.Sound) (xs : List Stimulus) :
    (r.steps xs).1.admission.accepted = r.admission.accepted ++ (r.placements xs).map receipt ∧
      r.admission.unplaced.Perm
        ((r.placements xs).map Prod.snd ++ (r.steps xs).1.admission.unplaced) := by
  induction xs generalizing r with
  | nil => simp [placements, steps]
  | cons x xs ih =>
    obtain ⟨hacc, hperm⟩ := recorded_step h x
    obtain ⟨haccs, hperms⟩ := ih (h.steps (floor_step r x))
    constructor
    · rw [placements, List.map_append, ← List.append_assoc, ← hacc]
      exact haccs
    · rw [placements, List.map_append, List.append_assoc]
      exact hperm.trans (hperms.append_left _)

/-! ### Whose entries there are -/

/-- An entry is of an attempt that hears what its delivery was waiting for, and ends by it. -/
lemma placement?_eq_some (h : r.placement? x = some (k, s)) :
    ∃ i d input, x = .hear i input ∧ r.attempts[i]? = some ⟨k, .delivering s d⟩ ∧
      (d.hear input).verdict? = some (.ok ()) ∧
      (r.step x).1.attempts[i]? = some ⟨k, .ended .accepted⟩ := by
  cases r.step_becomes x with
  | rest _ _ _ hnone => rw [h] at hnone; cases hnone
  | move _ _ _ hnone => rw [h] at hnone; cases hnone
  | @place i k' s' d input hx ha hverdict hsome _ hattempts _ =>
    obtain ⟨rfl, rfl⟩ := Prod.mk.inj (Option.some.inj (h.symm.trans hsome))
    refine ⟨i, d, input, hx, ha, hverdict, ?_⟩
    rw [hattempts, List.getElem?_modify, ha]
    simp

lemma mem_signers_of_placement {xs : List Stimulus} (h : (k, s) ∈ r.placements xs) :
    ∃ (i : Nat) (p : Phase), r.attempts[i]? = some ⟨k, p⟩ ∧ p.hasEnded = false := by
  induction xs generalizing r with
  | nil => simp [placements] at h
  | cons x xs ih =>
    rcases List.mem_append.mp h with hx | hxs
    · obtain ⟨i, d, input, -, ha, -⟩ := placement?_eq_some (Option.mem_toList.mp hx)
      exact ⟨i, _, ha, rfl⟩
    · obtain ⟨i, p, ha, hlive⟩ := ih hxs
      -- Its attempt is still open after the stimulus, and so it was before.
      have hsigner : (r.attempts.map Attempt.signer)[i]? = some k := by
        rw [← signers_step r x, List.getElem?_map, ha]
        rfl
      obtain ⟨⟨k', p'⟩, ha', rfl⟩ : ∃ a, r.attempts[i]? = some a ∧ a.signer = k := by
        simpa using hsigner
      refine ⟨i, p', ha', Bool.eq_false_iff.mpr fun hended => ?_⟩
      rw [ended_step ha' hended x] at ha
      rw [(Attempt.mk.inj (Option.some.inj ha)).2, hlive] at hended
      exact absurd hended Bool.false_ne_true

/-- **No signer has two entries.** -/
theorem nodup_placements (hn : (r.attempts.map Attempt.signer).Nodup) (xs : List Stimulus) :
    ((r.placements xs).map Prod.fst).Nodup := by
  induction xs generalizing r with
  | nil => exact List.nodup_nil
  | cons x xs ih =>
    have hn' : ((r.step x).1.attempts.map Attempt.signer).Nodup := by rwa [signers_step]
    have hrest := ih hn'
    rw [placements, List.map_append]
    cases hp : r.placement? x with
    | none => simpa using hrest
    | some p =>
      obtain ⟨k, s⟩ := p
      obtain ⟨i, d, input, -, -, -, ha⟩ := placement?_eq_some hp
      -- Its attempt has ended, and the signer has no other.
      have hnew : k ∉ ((r.step x).1.placements xs).map Prod.fst := by
        intro hk
        obtain ⟨⟨k', s'⟩, hmem, rfl⟩ := List.mem_map.mp hk
        obtain ⟨j, p, hb, hlive⟩ := mem_signers_of_placement hmem
        obtain rfl : i = j := eq_of_signer hn' ha hb rfl
        rw [← (Attempt.mk.inj (Option.some.inj (ha.symm.trans hb))).2] at hlive
        exact absurd hlive nofun
      exact List.nodup_cons.mpr ⟨hnew, hrest⟩

end Run

end KeyQuorum
