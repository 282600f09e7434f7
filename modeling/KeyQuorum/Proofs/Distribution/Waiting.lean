import KeyQuorum.Proofs.Distribution.Session

/-!
Nobody waits in vain, and nobody is sent away early.

While shares are left to be placed, a permit is idle for each one in the pool, and none is free
while somebody waits. So when all whose turn has come have gone on and somebody still waits, the
pool is empty, and the shares that are left are in slots: one of these will end the wait. A claim
that has a permit and finds the pool empty has the permit that the last acceptance freed.
-/

namespace KeyQuorum.Session

variable {α β : Type} {s : Session α β}

/-- No claim that waits can go on. -/
def Settled (s : Session α β) : Prop := ∀ ticket, (s.move (.goOn ticket)).1 = .blocked

lemma filled_eq_refused {x : Claim α × Admission α β} :
    (s.filled x).1 = .refused ↔ x.1 = .refused := by
  obtain ⟨c, a⟩ := x
  cases c <;> simp [filled]

lemma settled_iff : s.Settled ↔ s.admission.permits.granted = [] := by
  constructor
  · intro h
    refine List.eq_nil_iff_forall_not_mem.mpr fun ticket ht => ?_
    have hblocked := h ticket
    -- A ticket with a permit reserved for it would go on, to a share or away.
    rcases Admission.resume_cases ht s.slots with ⟨x, b, -, -, he⟩ | ⟨-, b, -, he⟩ <;>
      simp [move, he, filled] at hblocked
  · intro h ticket
    have ht : ticket ∉ s.admission.permits.granted := h ▸ List.not_mem_nil
    simp only [move, Admission.resume_of_not_granted ht]
    rfl

lemma settled_wake (s : Session α β) : (wake s.waiting s).2.Settled := by
  refine settled_iff.mpr (granted_wake _ s ?_)
  simp [waiting, Permits.tickets]

/-- Whoever still waits, waits for a slot that is held. -/
lemma Sound.held_of_waiting (h : s.Sound) (hpos : 0 < s.admission.required) (hs : s.Settled)
    (hw : 0 < s.waiting) : s.admission.held ≠ [] := by
  intro hheld
  have hgranted := settled_iff.mp hs
  have hqueue : s.admission.permits.queue ≠ [] := by
    intro hqueue
    simp [waiting, hqueue, hgranted] at hw
  have hidle : s.admission.permits.idle = 0 := by
    rw [Permits.idle, h.admission.prompt hqueue, hgranted]
    rfl
  have hcount := h.admission.count
  have hbalance := h.admission.idle
  rw [hheld, List.length_nil] at hcount
  -- An empty pool and no slot leave all shares placed, and then a permit is idle.
  have hfull : s.admission.spare = 1 := by
    refine if_pos ?_
    omega
  omega

lemma Sound.over_of_refused (h : s.Sound) {m : Move β} (hm : (s.move m).1 = .refused) :
    s.admission.aborted = true ∨ s.admission.accepted.length = s.admission.required := by
  -- Whoever is refused had a permit in hand, and found an abort or an empty pool.
  have hcase : 0 < s.admission.permits.idle ∧
      (s.admission.aborted = true ∨ s.admission.pool = []) := by
    cases m with
    | perform x =>
      cases x with
      | claim =>
        have hclaim := filled_eq_refused.mp hm
        exact Admission.claim_eq_refused (Prod.ext hclaim rfl)
      | _ => cases hm
    | goOn ticket =>
      have hresume := filled_eq_refused.mp hm
      have heq : s.admission.resume ticket s.slots =
          (.refused, (s.admission.resume ticket s.slots).2) := Prod.ext hresume rfl
      have ht := Admission.granted_of_resume heq (by simp)
      exact ⟨Permits.idle_pos ht, (Admission.resume_eq_refused heq).1⟩
  obtain ⟨hidle, hab | hpool⟩ := hcase
  · exact .inl hab
  · exact .inr (h.admission.full_of_idle hidle hpool)

/-- **No claim is stuck or sent away early**, whatever was done before in whatever order: one that
still waits when none can go on waits for a slot that is held, and one is refused only after an
abort or after the last acceptance. A slot is not held any more once its share is placed or has gone
back. Giving a claim up moves no permit but its own. -/
theorem waits_for_held_slot (shares : List α) (hshares : shares ≠ []) (candidates : Nat)
    (ms : List (Move β)) :
    let s := (start shares candidates : Session α β).after ms
    (wake s.waiting s).2.Settled ∧ (s.Settled → 0 < s.waiting → s.admission.held ≠ []) ∧
      (∀ x slot, x.emptied? = some slot →
        (s.move (.perform x)).2.admission.held = s.admission.held.filter (·.1 ≠ slot)) ∧
      (∀ m, (s.move m).1 = .refused →
        s.admission.aborted = true ∨ s.admission.accepted.length = s.admission.required) ∧
      ∀ ticket, ∃ permits, (s.move (.perform (.cancel ticket))).2 =
          { s with admission := { s.admission with permits } } ∧
        permits.free + permits.granted.length =
          s.admission.permits.free + s.admission.permits.granted.length ∧
        permits.tickets.Perm (s.admission.permits.tickets.erase ticket) := by
  intro s
  have hsound : s.Sound := (sound_start shares candidates).after ms
  have hpos : 0 < s.admission.required := by
    rw [required_after]
    exact List.length_pos_iff.mpr hshares
  refine ⟨settled_wake s, hsound.held_of_waiting hpos, fun x slot => held_of_emptied s,
    fun m => hsound.over_of_refused, fun ticket => ⟨_, rfl, ?_, ?_⟩⟩
  · exact Permits.idle_withdraw s.admission.permits ticket
  · exact Permits.tickets_withdraw s.admission.permits ticket

/-- One share and two claims: the second waits for the slot of the first, which is held. -/
theorem second_claim_waits : [7] ≠ ([] : List Nat) ∧
    let s := (start [7] 2).after [.perform .claim, .perform (.wait : Step Unit)]
    s.Settled ∧ 0 < s.waiting ∧ s.admission.held ≠ [] := by
  have hshares : [7] ≠ ([] : List Nat) := List.cons_ne_nil 7 []
  obtain ⟨-, hheld, -⟩ :=
    waits_for_held_slot [7] hshares 2 [.perform .claim, .perform (.wait : Step Unit)]
  have hsettled : ((start [7] 2).after [.perform .claim, .perform (.wait : Step Unit)]).Settled :=
    settled_iff.mpr rfl
  exact ⟨hshares, hsettled, by decide, hheld hsettled (by decide)⟩

end KeyQuorum.Session
