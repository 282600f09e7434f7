import Mathlib.Tactic.Lemma
import KeyQuorum.Distribution.Admission
import KeyQuorum.Proofs.Distribution.Permits

/-!
How the shares and the permits of an admission stay in step.

A share lies in the pool, sits in a slot or is placed, and a slot holds a permit as long as it
holds a share. So the idle permits are as many as the shares in the pool, up to the moment of
the last acceptance, which frees one permit more. `Sound` states this for an admission with
some permits in hand, on their way to a slot or back; every operation starts and ends with none.
-/

namespace KeyQuorum.Admission

variable {α β : Type} {a : Admission α β} {slot ticket : Nat} {s : α}

/-- The shares that are not placed. -/
def unplaced (a : Admission α β) : List α := a.pool ++ a.held.map Prod.snd

/-- The permit that the last acceptance frees. -/
def spare (a : Admission α β) : Nat :=
  if 0 < a.accepted.length ∧ a.required ≤ a.accepted.length then 1 else 0

/-- The accounts of an admission with `inHand` permits on their way. -/
structure Sound (a : Admission α β) (inHand : Nat) : Prop where
  prompt : a.permits.Prompt
  slots : (a.held.map Prod.fst).Nodup
  count : a.pool.length + a.held.length + a.accepted.length = a.required
  idle : a.permits.idle + inHand = a.pool.length + a.spare

lemma sound_start (shares : List α) (candidates : Nat) :
    Sound (start shares candidates : Admission α β) 0 where
  prompt := fun h => absurd rfl h
  slots := List.nodup_nil
  count := by simp [start]
  idle := by simp [start, spare, Permits.idle]

lemma unplaced_start (shares : List α) (candidates : Nat) :
    (start shares candidates : Admission α β).unplaced = shares := by
  simp [start, unplaced]

/-! ### What single operations do -/

/-- A slot is filled with the front of the pool, or the permit goes back. -/
lemma fill_cases (a : Admission α β) (slot : Nat) :
    (∃ s rest, a.aborted = false ∧ a.pool = s :: rest ∧
      a.fill slot = (.share s, { a with pool := rest, held := a.held ++ [(slot, s)] })) ∨
    ((a.aborted = true ∨ a.pool = []) ∧ a.fill slot = (.refused, a.releasePermit)) := by
  unfold fill
  cases ha : a.aborted with
  | true => exact .inr ⟨.inl rfl, by simp⟩
  | false =>
    cases hp : a.pool with
    | nil => exact .inr ⟨.inr rfl, by simp⟩
    | cons s rest => exact .inl ⟨s, rest, rfl, rfl, by simp⟩

/-- The admission with one more failure charged. -/
def charge (a : Admission α β) : Admission α β :=
  { a with
    failures := a.failures + 1
    aborted := a.aborted || decide (a.budget < a.failures + 1) }

lemma fail_of_held (hs : a.held.lookup slot = some s) :
    a.fail slot = (decide (a.budget < a.failures + 1), a.charge.giveBack slot) := by
  unfold fail
  rw [hs]
  rfl

lemma fail_of_not_held (hs : a.held.lookup slot = none) : a.fail slot = (false, a) := by
  unfold fail
  rw [hs]

/-- The admission with a slot's share placed, while its permit is in hand. -/
def place (a : Admission α β) (slot : Nat) (receipt : β) : Admission α β :=
  { a.vacate slot with accepted := a.accepted ++ [receipt] }

lemma accept_of_held (hs : a.held.lookup slot = some s) (receipt : β) :
    a.accept slot receipt =
      if a.required ≤ a.accepted.length + 1 then (true, (a.place slot receipt).releasePermit)
      else (false, a.place slot receipt) := by
  unfold accept
  rw [hs]
  simp only [List.length_append, List.length_singleton]
  rfl

lemma accept_of_not_held (hs : a.held.lookup slot = none) (receipt : β) :
    a.accept slot receipt = (false, a) := by
  unfold accept
  rw [hs]

lemma lookup_perm {l : List (Nat × α)} (hn : (l.map Prod.fst).Nodup)
    (h : l.lookup slot = some s) : l.Perm ((slot, s) :: l.filter (·.1 ≠ slot)) := by
  induction l with
  | nil => simp at h
  | cons x l ih =>
    obtain ⟨k, y⟩ := x
    simp only [List.map_cons, List.nodup_cons] at hn
    by_cases hk : slot = k
    · subst hk
      -- the first one it is, and no other has its number
      have hy : y = s := by simpa using h
      have hrest : l.filter (·.1 ≠ slot) = l := by
        refine List.filter_eq_self.mpr fun z hz => ?_
        have hne : z.1 ≠ slot := fun he => hn.1 (he ▸ List.mem_map_of_mem hz)
        simpa using hne
      rw [List.filter_cons_of_neg (by simp), hrest, hy]
    · have hb : (slot == k) = false := by simpa using hk
      have hl : l.lookup slot = some s := by simpa [List.lookup_cons, hb] using h
      have hf : ((k, y) :: l).filter (·.1 ≠ slot) = (k, y) :: l.filter (·.1 ≠ slot) := by
        simp [Ne.symm hk]
      rw [hf]
      exact ((ih hn.2 hl).cons _).trans (List.Perm.swap _ _ _)

lemma held_perm (hn : (a.held.map Prod.fst).Nodup) (hs : a.held.lookup slot = some s) :
    a.held.Perm ((slot, s) :: (a.vacate slot).held) :=
  lookup_perm hn hs

lemma length_vacate (hn : (a.held.map Prod.fst).Nodup) (hs : a.held.lookup slot = some s) :
    (a.vacate slot).held.length + 1 = a.held.length := by
  simpa using (held_perm hn hs).length_eq.symm

lemma nodup_vacate (hn : (a.held.map Prod.fst).Nodup) (slot : Nat) :
    ((a.vacate slot).held.map Prod.fst).Nodup :=
  hn.sublist (List.filter_sublist.map _)

lemma Sound.accepted_lt {k : Nat} (h : a.Sound k) (hs : a.held.lookup slot = some s) :
    a.accepted.length < a.required := by
  have := length_vacate h.slots hs
  have := h.count
  omega

lemma spare_eq_zero (h : a.accepted.length < a.required) : a.spare = 0 :=
  if_neg fun hc => absurd hc.2 (by omega)

/-- A permit without a share to it is the one that the last acceptance freed. -/
lemma Sound.full_of_idle (h : a.Sound 0) (hi : 0 < a.permits.idle) (hp : a.pool = []) :
    a.accepted.length = a.required := by
  have hidle := h.idle
  have hcount := h.count
  rcases Nat.lt_or_ge a.accepted.length a.required with hlt | hge
  · rw [spare_eq_zero hlt, hp, List.length_nil] at hidle
    omega
  · omega

/-! ### Every operation keeps the accounts -/

lemma Sound.releasePermit {k : Nat} (h : a.Sound (k + 1)) : a.releasePermit.Sound k where
  prompt := h.prompt.release
  slots := h.slots
  count := h.count
  idle := by
    have hi := h.idle
    show a.permits.release.idle + k = a.pool.length + a.spare
    rw [Permits.idle_release]
    omega

lemma Sound.fill (h : a.Sound 1) (hnew : slot ∉ a.held.map Prod.fst) :
    (a.fill slot).2.Sound 0 := by
  rcases fill_cases a slot with ⟨s, rest, -, hp, he⟩ | ⟨-, he⟩
  · -- the share goes from the pool into a slot, and the permit in hand with it
    have hc := h.count
    have hi := h.idle
    rw [hp, List.length_cons] at hc hi
    rw [he]
    refine ⟨h.prompt, ?_, ?_, ?_⟩
    · rw [List.map_append]
      exact (List.perm_append_singleton slot _).nodup_iff.mpr (List.nodup_cons.mpr ⟨hnew, h.slots⟩)
    · simp only [List.length_append, List.length_singleton]
      omega
    · show a.permits.idle + 0 = rest.length + a.spare
      omega
  · rw [he]
    exact h.releasePermit

lemma Sound.claim (h : a.Sound 0) (hnew : slot ∉ a.held.map Prod.fst) :
    (a.claim slot).2.Sound 0 := by
  unfold Admission.claim
  split
  · next p hp =>
    refine Sound.fill ⟨h.prompt.take? hp, h.slots, h.count, ?_⟩ hnew
    exact (Permits.idle_take? hp).trans h.idle
  · exact h

lemma Sound.wait (h : a.Sound 0) (ticket : Nat) : (a.wait ticket).Sound 0 where
  prompt := h.prompt.request ticket
  slots := h.slots
  count := h.count
  idle := (congrArg (· + 0) (Permits.idle_request _ _)).trans h.idle

lemma Sound.resume (h : a.Sound 0) (ticket : Nat) (hnew : slot ∉ a.held.map Prod.fst) :
    (a.resume ticket slot).2.Sound 0 := by
  unfold Admission.resume
  split
  · next p hp =>
    refine Sound.fill ⟨h.prompt.takeUp? hp, h.slots, h.count, ?_⟩ hnew
    exact (Permits.idle_takeUp? hp).trans h.idle
  · exact h

lemma Sound.cancel (h : a.Sound 0) (ticket : Nat) : (a.cancel ticket).Sound 0 where
  prompt := h.prompt.withdraw ticket
  slots := h.slots
  count := h.count
  idle := (congrArg (· + 0) (Permits.idle_withdraw _ _)).trans h.idle

lemma Sound.giveBack (h : a.Sound 0) (slot : Nat) : (a.giveBack slot).Sound 0 := by
  unfold Admission.giveBack
  split
  · exact h
  · next s hs =>
    -- The share is in the pool before its permit is back, which is in hand until then.
    have hlen := length_vacate h.slots hs
    have hc := h.count
    have hi := h.idle
    refine Sound.releasePermit ⟨h.prompt, nodup_vacate h.slots slot, ?_, ?_⟩
    · show (a.pool ++ [s]).length + (a.vacate slot).held.length + a.accepted.length = a.required
      rw [List.length_append, List.length_singleton]
      omega
    · show a.permits.idle + (0 + 1) = (a.pool ++ [s]).length + a.spare
      rw [List.length_append, List.length_singleton]
      omega

lemma Sound.charge {k : Nat} (h : a.Sound k) : a.charge.Sound k :=
  ⟨h.prompt, h.slots, h.count, h.idle⟩

lemma Sound.fail (h : a.Sound 0) (slot : Nat) : (a.fail slot).2.Sound 0 := by
  cases hs : a.held.lookup slot with
  | none => rw [fail_of_not_held hs]; exact h
  | some s => rw [fail_of_held hs]; exact h.charge.giveBack slot

lemma Sound.place (h : a.Sound 0) (hs : a.held.lookup slot = some s) (receipt : β) :
    (a.place slot receipt).Sound (a.place slot receipt).spare := by
  have hlen := length_vacate h.slots hs
  -- Not all shares were placed before, so that no permit was to spare.
  have hlt := h.accepted_lt hs
  have hc := h.count
  have hi := h.idle
  rw [spare_eq_zero hlt] at hi
  refine ⟨h.prompt, nodup_vacate h.slots slot, ?_, ?_⟩
  · show a.pool.length + (a.vacate slot).held.length + (a.accepted ++ [receipt]).length = a.required
    rw [List.length_append, List.length_singleton]
    omega
  · show a.permits.idle + (a.place slot receipt).spare =
      a.pool.length + (a.place slot receipt).spare
    omega

lemma spare_place (a : Admission α β) (slot : Nat) (receipt : β) :
    (a.place slot receipt).spare = if a.required ≤ a.accepted.length + 1 then 1 else 0 := by
  simp [spare, Admission.place, vacate]

lemma Sound.accept (h : a.Sound 0) (slot : Nat) (receipt : β) :
    (a.accept slot receipt).2.Sound 0 := by
  cases hs : a.held.lookup slot with
  | none => rw [accept_of_not_held hs]; exact h
  | some s =>
    have hp := h.place hs receipt
    rw [spare_place] at hp
    rw [accept_of_held hs]
    -- The last acceptance frees the permit of its share; any other withholds it.
    by_cases hfull : a.required ≤ a.accepted.length + 1
    · rw [if_pos hfull] at hp ⊢
      exact hp.releasePermit
    · rw [if_neg hfull] at hp ⊢
      exact hp

/-! ### What stays as it is -/

/-- Nothing has changed but which shares and permits lie where. -/
structure Keeps (a b : Admission α β) : Prop where
  required : b.required = a.required
  budget : b.budget = a.budget
  accepted : b.accepted = a.accepted
  failures : b.failures = a.failures
  aborted : b.aborted = a.aborted

lemma Keeps.refl (a : Admission α β) : a.Keeps a := ⟨rfl, rfl, rfl, rfl, rfl⟩

lemma keeps_wait (a : Admission α β) (ticket : Nat) : a.Keeps (a.wait ticket) :=
  ⟨rfl, rfl, rfl, rfl, rfl⟩

lemma keeps_fill (a : Admission α β) (slot : Nat) : a.Keeps (a.fill slot).2 := by
  rcases fill_cases a slot with ⟨s, rest, -, -, he⟩ | ⟨-, he⟩ <;> rw [he] <;>
    exact ⟨rfl, rfl, rfl, rfl, rfl⟩

lemma keeps_claim (a : Admission α β) (slot : Nat) : a.Keeps (a.claim slot).2 := by
  unfold claim
  split
  · next p _ => exact { keeps_fill { a with permits := p } slot with }
  · exact .refl a

lemma keeps_resume (a : Admission α β) (ticket slot : Nat) : a.Keeps (a.resume ticket slot).2 := by
  unfold resume
  split
  · next p _ => exact { keeps_fill { a with permits := p } slot with }
  · exact .refl a

lemma keeps_giveBack (a : Admission α β) (slot : Nat) : a.Keeps (a.giveBack slot) := by
  unfold giveBack
  split <;> exact ⟨rfl, rfl, rfl, rfl, rfl⟩

lemma keeps_fail (hs : a.held.lookup slot = some s) : a.charge.Keeps (a.fail slot).2 := by
  rw [fail_of_held hs]
  exact keeps_giveBack a.charge slot

lemma required_fail (a : Admission α β) (slot : Nat) : (a.fail slot).2.required = a.required := by
  cases hs : a.held.lookup slot with
  | none => rw [fail_of_not_held hs]
  | some s => exact (keeps_fail hs).required

lemma accepted_fail (a : Admission α β) (slot : Nat) : (a.fail slot).2.accepted = a.accepted := by
  cases hs : a.held.lookup slot with
  | none => rw [fail_of_not_held hs]
  | some s => exact (keeps_fail hs).accepted

lemma keeps_accept (hs : a.held.lookup slot = some s) (receipt : β) :
    (a.place slot receipt).Keeps (a.accept slot receipt).2 := by
  rw [accept_of_held hs]
  split <;> exact ⟨rfl, rfl, rfl, rfl, rfl⟩

lemma required_accept (a : Admission α β) (slot : Nat) (receipt : β) :
    (a.accept slot receipt).2.required = a.required := by
  cases hs : a.held.lookup slot with
  | none => rw [accept_of_not_held hs]
  | some s => exact (keeps_accept hs receipt).required

/-! ### Which slots are held -/

lemma held_of_not_held (hs : a.held.lookup slot = none) : (a.vacate slot).held = a.held := by
  refine List.filter_eq_self.mpr fun x hx => ?_
  have := List.lookup_eq_none_iff.mp hs x hx
  simpa using Ne.symm (by simpa using this)

lemma held_giveBack (a : Admission α β) (slot : Nat) :
    (a.giveBack slot).held = (a.vacate slot).held := by
  unfold giveBack
  split
  · next hs => exact (held_of_not_held hs).symm
  · rfl

lemma held_fail (a : Admission α β) (slot : Nat) :
    (a.fail slot).2.held = (a.vacate slot).held := by
  cases hs : a.held.lookup slot with
  | none => rw [fail_of_not_held hs, held_of_not_held hs]
  | some s => rw [fail_of_held hs]; exact held_giveBack a.charge slot

lemma held_accept (a : Admission α β) (slot : Nat) (receipt : β) :
    (a.accept slot receipt).2.held = (a.vacate slot).held := by
  cases hs : a.held.lookup slot with
  | none => rw [accept_of_not_held hs, held_of_not_held hs]
  | some s =>
    rw [accept_of_held hs]
    split <;> rfl

lemma mem_held_vacate {x : Nat × α} :
    x ∈ (a.vacate slot).held ↔ x ∈ a.held ∧ x.1 ≠ slot := by
  simp [vacate]

lemma lookup_of_mem (hn : (a.held.map Prod.fst).Nodup) (hs : (slot, s) ∈ a.held) :
    a.held.lookup slot = some s := by
  cases hl : a.held.lookup slot with
  | none => simpa using List.lookup_eq_none_iff.mp hl _ hs
  | some t =>
    rcases List.mem_cons.mp ((held_perm hn hl).mem_iff.mp hs) with he | hv
    · rw [(Prod.mk.inj he).2]
    · exact absurd rfl (mem_held_vacate.mp hv).2

/-! ### Where the shares go -/

lemma unplaced_fill (a : Admission α β) (slot : Nat) :
    (a.fill slot).2.unplaced.Perm a.unplaced := by
  rcases fill_cases a slot with ⟨s, rest, -, hp, he⟩ | ⟨-, he⟩
  · rw [he]
    simp only [unplaced, hp, List.map_append, List.map_cons, List.map_nil, List.cons_append]
    rw [← List.append_assoc]
    exact List.perm_append_singleton s _
  · rw [he]
    rfl

lemma unplaced_claim (a : Admission α β) (slot : Nat) :
    (a.claim slot).2.unplaced.Perm a.unplaced := by
  unfold claim
  split
  · exact unplaced_fill _ slot
  · rfl

lemma unplaced_resume (a : Admission α β) (ticket slot : Nat) :
    (a.resume ticket slot).2.unplaced.Perm a.unplaced := by
  unfold resume
  split
  · exact unplaced_fill _ slot
  · rfl

lemma unplaced_vacate (hn : (a.held.map Prod.fst).Nodup) (hs : a.held.lookup slot = some s) :
    a.unplaced.Perm (s :: (a.vacate slot).unplaced) :=
  (((held_perm hn hs).map Prod.snd).append_left a.pool).trans List.perm_middle

lemma unplaced_giveBack (hn : (a.held.map Prod.fst).Nodup) (slot : Nat) :
    (a.giveBack slot).unplaced.Perm a.unplaced := by
  unfold giveBack
  split
  · rfl
  · next s hs =>
    refine List.Perm.trans ?_ (unplaced_vacate hn hs).symm
    simp only [unplaced, releasePermit, vacate, List.append_assoc]
    exact List.perm_middle

lemma unplaced_fail (hn : (a.held.map Prod.fst).Nodup) (slot : Nat) :
    (a.fail slot).2.unplaced.Perm a.unplaced := by
  cases hs : a.held.lookup slot with
  | none => rw [fail_of_not_held hs]
  | some s => rw [fail_of_held hs]; exact unplaced_giveBack (a := a.charge) hn slot

lemma unplaced_accept (hn : (a.held.map Prod.fst).Nodup) (hs : a.held.lookup slot = some s)
    (receipt : β) : a.unplaced.Perm (s :: (a.accept slot receipt).2.unplaced) := by
  refine (unplaced_vacate hn hs).trans (List.Perm.cons s ?_)
  rw [accept_of_held hs]
  split <;> rfl

/-! ### Closing -/

/-- What giving back keeps, closing keeps. -/
lemma kept_close {P : Admission α β → Prop} (h : P a)
    (hstep : ∀ b slot, P b → P (b.giveBack slot)) : P a.close := by
  have hfold : ∀ (slots : List Nat) (b : Admission α β), P b → P (slots.foldl giveBack b) := by
    intro slots
    induction slots with
    | nil => exact fun _ hb => hb
    | cons slot slots ih => exact fun b hb => ih _ (hstep b slot hb)
  exact hfold _ a h

lemma keeps_close (a : Admission α β) : a.Keeps a.close :=
  kept_close (.refl a) fun b slot h => by
    have hb := keeps_giveBack b slot
    exact ⟨hb.required.trans h.required, hb.budget.trans h.budget, hb.accepted.trans h.accepted,
      hb.failures.trans h.failures, hb.aborted.trans h.aborted⟩

lemma held_close (a : Admission α β) : a.close.held = [] := by
  -- Slots are closed one by one, and those not closed yet are left.
  have hfold : ∀ (slots : List Nat) (b : Admission α β),
      (slots.foldl giveBack b).held = b.held.filter (·.1 ∉ slots) := by
    intro slots
    induction slots with
    | nil => exact fun b => (List.filter_eq_self.mpr fun x _ => by simp).symm
    | cons slot slots ih =>
      intro b
      rw [List.foldl_cons, ih, held_giveBack, vacate, List.filter_filter]
      exact List.filter_congr fun x _ => by simp [Bool.and_comm]
  rw [close, hfold, List.filter_eq_nil_iff]
  exact fun x hx => by simpa using ⟨x.2, hx⟩

lemma pool_close (hn : (a.held.map Prod.fst).Nodup) :
    a.close.pool.Perm (a.pool ++ a.held.map Prod.snd) := by
  have hkept : (a.close.held.map Prod.fst).Nodup ∧ a.close.unplaced.Perm a.unplaced :=
    kept_close (P := fun b => (b.held.map Prod.fst).Nodup ∧ b.unplaced.Perm a.unplaced)
      ⟨hn, .refl _⟩ fun b slot hb => by
        rw [held_giveBack]
        exact ⟨nodup_vacate hb.1 slot, (unplaced_giveBack hb.1 slot).trans hb.2⟩
  have hperm := hkept.2
  rwa [unplaced, held_close, List.map_nil, List.append_nil] at hperm

/-! ### Waiting claims -/

lemma claim_eq_refused {b : Admission α β} (h : a.claim slot = (.refused, b)) :
    0 < a.permits.idle ∧ (a.aborted = true ∨ a.pool = []) := by
  unfold claim at h
  split at h
  · next p hp =>
    refine ⟨Permits.idle_take? hp ▸ Nat.succ_pos _, ?_⟩
    rcases fill_cases { a with permits := p } slot with ⟨s, rest, -, -, he⟩ | ⟨hnone, -⟩
    · rw [he] at h
      cases h
    · exact hnone
  · cases h

lemma tickets_fill (a : Admission α β) (slot : Nat) :
    (a.fill slot).2.permits.tickets.Perm a.permits.tickets := by
  rcases fill_cases a slot with ⟨s, rest, -, -, he⟩ | ⟨-, he⟩ <;> rw [he]
  exact Permits.tickets_release a.permits

lemma tickets_giveBack (a : Admission α β) (slot : Nat) :
    (a.giveBack slot).permits.tickets.Perm a.permits.tickets := by
  unfold giveBack
  split
  · exact List.Perm.refl _
  · exact Permits.tickets_release a.permits

lemma tickets_fail (a : Admission α β) (slot : Nat) :
    (a.fail slot).2.permits.tickets.Perm a.permits.tickets := by
  cases hs : a.held.lookup slot with
  | none => rw [fail_of_not_held hs]
  | some s => rw [fail_of_held hs]; exact tickets_giveBack a.charge slot

lemma tickets_accept (a : Admission α β) (slot : Nat) (receipt : β) :
    (a.accept slot receipt).2.permits.tickets.Perm a.permits.tickets := by
  cases hs : a.held.lookup slot with
  | none => rw [accept_of_not_held hs]
  | some s =>
    rw [accept_of_held hs]
    split
    · exact Permits.tickets_release a.permits
    · exact List.Perm.refl _

lemma resume_of_not_granted (ht : ticket ∉ a.permits.granted) (slot : Nat) :
    a.resume ticket slot = (.blocked, a) := by
  simp [resume, Permits.takeUp?, ht]

/-- A claim whose turn has come gets a share or is refused. -/
lemma resume_cases (ht : ticket ∈ a.permits.granted) (slot : Nat) :
    (∃ s b, a.aborted = false ∧ b.held = a.held ++ [(slot, s)] ∧
      a.resume ticket slot = (.share s, b)) ∨
    ((a.aborted = true ∨ a.pool = []) ∧ ∃ b, b.held = a.held ∧
      a.resume ticket slot = (.refused, b)) := by
  unfold resume
  rw [Permits.takeUp?, if_pos ht]
  rcases fill_cases
    { a with permits := { a.permits with granted := a.permits.granted.erase ticket } } slot
    with ⟨s, rest, ha, -, he⟩ | ⟨hnone, he⟩
  · refine .inl ⟨s, _, ha, ?_, he⟩
    rfl
  · refine .inr ⟨hnone, _, ?_, he⟩
    rfl

lemma granted_of_resume {c : Claim α} {b : Admission α β} (h : a.resume ticket slot = (c, b))
    (hc : c ≠ .blocked) : ticket ∈ a.permits.granted := by
  by_cases ht : ticket ∈ a.permits.granted
  · exact ht
  · rw [resume_of_not_granted ht] at h
    exact absurd (Prod.mk.inj h).1.symm hc

lemma resume_eq_refused {b : Admission α β} (h : a.resume ticket slot = (.refused, b)) :
    (a.aborted = true ∨ a.pool = []) ∧ b.held = a.held := by
  have ht := granted_of_resume h (by simp)
  rcases resume_cases ht slot with ⟨s, c, -, -, he⟩ | ⟨hnone, c, hc, he⟩ <;> rw [h] at he
  · simp at he
  · exact ⟨hnone, (Prod.mk.inj he).2 ▸ hc⟩

lemma resume_eq_share {b : Admission α β} (h : a.resume ticket slot = (.share s, b)) :
    a.aborted = false ∧ b.held = a.held ++ [(slot, s)] := by
  have ht := granted_of_resume h (by simp)
  rcases resume_cases ht slot with ⟨t, c, ha, hc, he⟩ | ⟨-, c, -, he⟩ <;> rw [h] at he
  · obtain ⟨hst, rfl⟩ := Prod.mk.inj he
    obtain rfl := Claim.share.inj hst
    exact ⟨ha, hc⟩
  · simp at he

lemma tickets_resume (ht : ticket ∈ a.permits.granted) (slot : Nat) :
    a.permits.tickets.Perm (ticket :: (a.resume ticket slot).2.permits.tickets) := by
  unfold resume
  cases hp : a.permits.takeUp? ticket with
  | none => exact absurd ht (Permits.takeUp?_eq_none hp)
  | some p =>
    have hfill := tickets_fill { a with permits := p } slot
    exact (Permits.tickets_takeUp? hp).trans (hfill.symm.cons _)

end KeyQuorum.Admission
