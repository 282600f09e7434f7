import Mathlib.Tactic.Lemma
import KeyQuorum.Proofs.Distribution.Quorum

/-!
An admission after an abort.

No slot is filled any more, and shares only come back to the pool. The failure that
aborts has put its own share there, which is why the pool of an aborted admission is never empty;
and nobody comes to the miner who is not there yet.
-/

namespace KeyQuorum

def Claim.share? {α : Type} : Claim α → Option α
  | .share x => some x
  | _ => none

namespace Admission

variable {α β : Type} {a b c : Admission α β} {slot : Nat} {s : α}

/-! ### What comes of the pool -/

lemma pool_fill (a : Admission α β) (slot : Nat) :
    a.pool = (a.fill slot).1.share?.toList ++ (a.fill slot).2.pool := by
  rcases fill_cases a slot with ⟨x, rest, -, hpool, he⟩ | ⟨-, he⟩ <;> rw [he]
  · exact hpool
  · rfl

lemma pool_claim (a : Admission α β) (slot : Nat) :
    a.pool = (a.claim slot).1.share?.toList ++ (a.claim slot).2.pool := by
  unfold claim
  split
  · next permits _ => exact pool_fill { a with permits } slot
  · rfl

lemma pool_resume (a : Admission α β) (ticket slot : Nat) :
    a.pool = (a.resume ticket slot).1.share?.toList ++ (a.resume ticket slot).2.pool := by
  unfold resume
  split
  · next permits _ => exact pool_fill { a with permits } slot
  · rfl

lemma pool_giveBack (a : Admission α β) (slot : Nat) :
    (a.giveBack slot).pool = a.pool ++ (a.held.lookup slot).toList := by
  unfold giveBack
  split
  · next hs => simp [hs]
  · next hs => rw [hs]; rfl

lemma pool_fail (a : Admission α β) (slot : Nat) :
    (a.fail slot).2.pool = a.pool ++ (a.held.lookup slot).toList := by
  cases hs : a.held.lookup slot with
  | none => rw [fail_of_not_held hs]; simp
  | some s =>
    have hpool := pool_giveBack a.charge slot
    rw [show a.charge.held.lookup slot = some s from hs] at hpool
    rw [fail_of_held hs]
    exact hpool

lemma pool_accept (a : Admission α β) (slot : Nat) (receipt : β) :
    (a.accept slot receipt).2.pool = a.pool := by
  cases hs : a.held.lookup slot with
  | none => rw [accept_of_not_held hs]
  | some s =>
    rw [accept_of_held hs]
    split <;> rfl

/-! ### Nothing leaves the pool -/

/-- After an abort: the pool only grows, and no slot is filled. -/
structure Ebb (a b : Admission α β) : Prop where
  aborted : b.aborted = true
  pool : a.pool <+: b.pool
  held : b.held ⊆ a.held

lemma Ebb.refl (h : a.aborted = true) : a.Ebb a := ⟨h, List.prefix_rfl, fun _ => id⟩

lemma Ebb.trans (h : a.Ebb b) (h' : b.Ebb c) : a.Ebb c :=
  ⟨h'.aborted, h.pool.trans h'.pool, fun _ hx => h.held (h'.held hx)⟩

lemma held_vacate_subset (a : Admission α β) (slot : Nat) : (a.vacate slot).held ⊆ a.held :=
  List.filter_sublist.subset

lemma ebb_fill (h : a.aborted = true) (slot : Nat) : a.Ebb (a.fill slot).2 := by
  rcases fill_cases a slot with ⟨s, rest, hnot, -, -⟩ | ⟨-, he⟩
  · rw [h] at hnot
    cases hnot
  · rw [he]
    exact ⟨h, List.prefix_rfl, fun _ => id⟩

lemma ebb_claim (h : a.aborted = true) (slot : Nat) : a.Ebb (a.claim slot).2 := by
  unfold claim
  split
  · next permits _ =>
    exact { ebb_fill (a := { a with permits }) h slot with }
  · exact .refl h

lemma ebb_resume (h : a.aborted = true) (ticket slot : Nat) : a.Ebb (a.resume ticket slot).2 := by
  unfold resume
  split
  · next permits _ =>
    exact { ebb_fill (a := { a with permits }) h slot with }
  · exact .refl h

lemma ebb_giveBack (h : a.aborted = true) (slot : Nat) : a.Ebb (a.giveBack slot) := by
  refine ⟨(keeps_giveBack a slot).aborted.trans h, ?_, ?_⟩
  · rw [pool_giveBack]
    exact List.prefix_append _ _
  · rw [held_giveBack]
    exact held_vacate_subset a slot

lemma ebb_fail (h : a.aborted = true) (slot : Nat) : a.Ebb (a.fail slot).2 := by
  refine ⟨(onward_fail a slot).aborted h, ?_, ?_⟩
  · rw [pool_fail]
    exact List.prefix_append _ _
  · rw [held_fail]
    exact held_vacate_subset a slot

lemma ebb_accept (h : a.aborted = true) (slot : Nat) (receipt : β) :
    a.Ebb (a.accept slot receipt).2 := by
  refine ⟨(onward_accept a slot receipt).aborted h, ?_, ?_⟩
  · exact (pool_accept a slot receipt).symm ▸ List.prefix_rfl
  · rw [held_accept]
    exact held_vacate_subset a slot

lemma fill_of_aborted (h : a.aborted = true) (slot : Nat) : (a.fill slot).1 = .refused := by
  rcases fill_cases a slot with ⟨s, rest, hnot, -, -⟩ | ⟨-, he⟩
  · rw [h] at hnot
    cases hnot
  · rw [he]

lemma claim_of_aborted (h : a.aborted = true) (slot : Nat) (s : α) :
    (a.claim slot).1 ≠ .share s := by
  unfold claim
  split
  · next permits _ => rw [fill_of_aborted (a := { a with permits }) h]; nofun
  · nofun

lemma resume_of_aborted (h : a.aborted = true) (ticket slot : Nat) (s : α) :
    (a.resume ticket slot).1 ≠ .share s := by
  unfold resume
  split
  · next permits _ => rw [fill_of_aborted (a := { a with permits }) h]; nofun
  · nofun

/-! ### The pool after an abort -/

/-- An abort leaves a share in the pool. -/
def Backed (a : Admission α β) : Prop := a.aborted = true → a.pool ≠ []

lemma Ebb.pool_ne_nil (h : a.Ebb b) (hpool : a.pool ≠ []) : b.pool ≠ [] := fun hb =>
  hpool (List.prefix_nil.mp (hb ▸ h.pool))

/-- What does not abort leaves an aborted admission with its pool. -/
lemma Backed.of_ebb (h : a.Backed) (hab : b.aborted = a.aborted)
    (hebb : a.aborted = true → a.Ebb b) : b.Backed := fun hb => by
  have ha : a.aborted = true := hab ▸ hb
  exact (hebb ha).pool_ne_nil (h ha)

lemma Backed.claim (h : a.Backed) (slot : Nat) : (a.claim slot).2.Backed :=
  h.of_ebb (keeps_claim a slot).aborted fun ha => ebb_claim ha slot

lemma Backed.resume (h : a.Backed) (ticket slot : Nat) : (a.resume ticket slot).2.Backed :=
  h.of_ebb (keeps_resume a ticket slot).aborted fun ha => ebb_resume ha ticket slot

lemma Backed.giveBack (h : a.Backed) (slot : Nat) : (a.giveBack slot).Backed :=
  h.of_ebb (keeps_giveBack a slot).aborted fun ha => ebb_giveBack ha slot

/-- The failure that aborts has put its share into the pool. -/
lemma Backed.fail (h : a.Backed) (slot : Nat) : (a.fail slot).2.Backed := by
  intro hab
  cases hs : a.held.lookup slot with
  | none =>
    rw [fail_of_not_held hs] at hab ⊢
    exact h hab
  | some s =>
    rw [pool_fail, hs]
    exact List.append_ne_nil_of_right_ne_nil _ (List.cons_ne_nil _ _)

lemma Backed.accept (h : a.Backed) (slot : Nat) (receipt : β) :
    (a.accept slot receipt).2.Backed := by
  refine h.of_ebb ?_ fun ha => ebb_accept ha slot receipt
  cases hs : a.held.lookup slot with
  | none => rw [accept_of_not_held hs]
  | some s => exact (keeps_accept hs receipt).aborted

lemma finish_of_aborted (h : a.aborted = true) :
    a.finish = .error (.insufficientSigners a.accepted.length a.required) := by
  simp [finish, h]

lemma finish_eq_error {e : DistributionError} (h : a.finish = .error e) :
    e = .insufficientSigners a.accepted.length a.required := by
  unfold finish at h
  split at h
  · exact (Except.error.inj h).symm
  · cases h

end Admission

namespace Floor

variable {f g : Floor} {i : Nat} {s : KeyShare}

lemma Step.ebb (h : f.admission.aborted = true) (hs : f.Step g) : f.admission.Ebb g.admission := by
  -- A claim is refused, and all else only returns shares or leaves them where they are.
  cases hs with
  | @refuse i a hx hr =>
    have hebb := Admission.ebb_resume h i i
    rwa [hr] at hebb
  | @take i s a hx hr =>
    have hebb := Admission.ebb_resume h i i
    rwa [hr] at hebb
  | unreachable hx => exact Admission.ebb_giveBack h _
  | abandon hx ht ha => exact Admission.ebb_giveBack h _
  | fail e hx => exact Admission.ebb_fail h _
  | accept hx hk => exact Admission.ebb_accept h _ _
  | _ => exact ⟨h, List.prefix_rfl, fun _ => id⟩

lemma Steps.ebb (h : f.admission.aborted = true) (hs : f.Steps g) :
    f.admission.Ebb g.admission := by
  induction hs with
  | refl => exact .refl h
  | tail _ hstep ih => exact ih.trans (hstep.ebb ih.aborted)

lemma Step.backed (h : f.admission.Backed) (hs : f.Step g) : g.admission.Backed := by
  have hresume : ∀ {i c a}, f.admission.resume i i = (c, a) → a.Backed := by
    intro i c a hr
    have hbacked := h.resume i i
    rwa [hr] at hbacked
  cases hs with
  | refuse hx hr => exact hresume hr
  | take hx hr => exact hresume hr
  | unreachable hx => exact h.giveBack _
  | abandon hx ht ha => exact h.giveBack _
  | fail e hx => exact h.fail _
  | accept hx hk => exact h.accept _ _
  | _ => exact h

lemma Steps.backed (h : f.admission.Backed) (hs : f.Steps g) : g.admission.Backed := by
  induction hs with
  | refl => exact h
  | tail _ hstep ih => exact hstep.backed ih

lemma Step.mining_of_aborted (h : f.admission.aborted = true) (hs : f.Step g)
    (hg : g.standings[i]? = some (.mining s)) : f.standings[i]? = some (.mining s) := by
  -- A step that leaves its own attempt away from the miner brings none there.
  have hset : ∀ {j x y}, f.standings[j]? = some x → g.standings = f.standings.set j y →
      y.isMining = false → f.standings[i]? = some (.mining s) := by
    intro j x y hx hset hy
    rw [hset, getElem?_set_of_some hx] at hg
    split at hg
    · obtain rfl := Option.some.inj hg
      cases hy
    · exact hg
  cases hs with
  | mine hx ht ha =>
    rw [h] at ha
    cases ha
  | fail e hx => rcases hx with hx | hx <;> exact hset hx rfl rfl
  | wait hx => exact hset hx rfl rfl
  | refuse hx hr => exact hset hx rfl rfl
  | take hx hr => exact hset hx rfl rfl
  | unreachable hx => exact hset hx rfl rfl
  | askTurn hx => exact hset hx rfl rfl
  | abandon hx ht ha => exact hset hx rfl rfl
  | mined hx => exact hset hx rfl rfl
  | accept hx hk => exact hset hx rfl rfl

lemma Steps.mining_of_aborted (h : f.admission.aborted = true) (hs : f.Steps g)
    (hg : g.standings[i]? = some (.mining s)) : f.standings[i]? = some (.mining s) := by
  induction hs with
  | refl => exact hg
  | tail hsteps hstep ih => exact ih (hstep.mining_of_aborted (Steps.ebb h hsteps).aborted hg)

end Floor

lemma Run.backed_steps {dealer : KeyPair} {settings : Settings} {request : Request}
    {now : Timestamp} {shares : List KeyShare} {entropy : Entropy} {r : Run}
    (h : start dealer settings request now shares entropy = .ok r) (xs : List Stimulus) :
    (r.steps xs).1.admission.Backed := by
  obtain ⟨-, -, hle, -, hfloor⟩ := start_eq_ok h
  refine Floor.Steps.backed ?_ (floor_steps r xs)
  rw [hfloor]
  intro hab
  -- An abort from the start means fewer candidates than shares, so there are shares.
  have hshort : request.candidates.eraseDups.length < shares.length := of_decide_eq_true hab
  omega

end KeyQuorum
