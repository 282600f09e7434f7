import Mathlib.Tactic.Lemma
import KeyQuorum.Distribution.Session
import KeyQuorum.Proofs.Distribution.Admission

/-!
Sessions taken apart into moves.

A step of a session is an operation after which every waiting claim whose turn has come goes on.
Here these are moves of their own, so that other operations may come in between. What every
move keeps, every order of moves keeps, and with it every run of steps.
-/

namespace KeyQuorum.Session

variable {α β : Type}

/-- An operation, or a waiting claim that goes on if its turn has come. -/
inductive Move (β : Type) where
  | perform (x : Step β)
  | goOn (ticket : Nat)

def move (s : Session α β) : Move β → Reply α × Session α β
  | .perform x => s.perform x
  | .goOn ticket => s.filled (s.admission.resume ticket s.slots)

def after (s : Session α β) (ms : List (Move β)) : Session α β :=
  ms.foldl (fun s m => (s.move m).2) s

@[simp] lemma after_nil (s : Session α β) : s.after [] = s := rfl

@[simp] lemma after_cons (s : Session α β) (m : Move β) (ms : List (Move β)) :
    s.after (m :: ms) = (s.move m).2.after ms := rfl

lemma after_append (s : Session α β) (ms ns : List (Move β)) :
    s.after (ms ++ ns) = (s.after ms).after ns := by
  simp [after, List.foldl_append]

/-- A share that was placed, and whether its acceptance was told to be the last. -/
structure Placement (α : Type) where
  share : α
  last : Bool

/-- The placement that a move makes: an acceptance takes the share of its slot. -/
def placement? (s : Session α β) (m : Move β) : Option (Placement α) :=
  match m, (s.move m).1 with
  | .perform (.accept slot _), .accepted last => (s.admission.held.lookup slot).map (⟨·, last⟩)
  | _, _ => none

lemma placement?_accept (s : Session α β) (slot : Nat) (receipt : β) :
    s.placement? (.perform (.accept slot receipt)) =
      (s.admission.held.lookup slot).map (⟨·, (s.admission.accept slot receipt).1⟩) := rfl

def placements : Session α β → List (Move β) → List (Placement α)
  | _, [] => []
  | s, m :: ms => (s.placement? m).toList ++ (s.move m).2.placements ms

/-! ### What a claim leaves behind -/

variable {s : Session α β}

@[simp] lemma admission_filled (s : Session α β) (x : Claim α × Admission α β) :
    (s.filled x).2.admission = x.2 := by
  obtain ⟨c, a⟩ := x
  cases c <;> rfl

/-- A move fills the next slot, or none. -/
lemma held_move (s : Session α β) (m : Move β) :
    (∃ x, (s.move m).2.admission.held = s.admission.held ++ [(s.slots, x)] ∧
      (s.move m).2.slots = s.slots + 1) ∨
    ((s.move m).2.admission.held.Sublist s.admission.held ∧ (s.move m).2.slots = s.slots) := by
  -- Both kinds of claim come to a slot filled with a permit in hand, or leave all as it was.
  have hfill : ∀ a : Admission α β, a.held = s.admission.held →
      (∃ x, (s.filled (a.fill s.slots)).2.admission.held = s.admission.held ++ [(s.slots, x)] ∧
        (s.filled (a.fill s.slots)).2.slots = s.slots + 1) ∨
      ((s.filled (a.fill s.slots)).2.admission.held.Sublist s.admission.held ∧
        (s.filled (a.fill s.slots)).2.slots = s.slots) := by
    intro a ha
    rcases Admission.fill_cases a s.slots with ⟨x, rest, -, -, he⟩ | ⟨-, he⟩ <;> rw [he]
    · exact .inl ⟨x, by rw [← ha]; rfl, rfl⟩
    · exact .inr ⟨ha ▸ List.Sublist.refl _, rfl⟩
  cases m with
  | goOn ticket =>
    unfold move Admission.resume
    dsimp only
    split
    · exact hfill _ rfl
    · exact .inr ⟨.refl _, rfl⟩
  | perform x =>
    cases x with
    | claim =>
      unfold move perform Admission.claim
      dsimp only
      split
      · exact hfill _ rfl
      · exact .inr ⟨.refl _, rfl⟩
    | wait => exact .inr ⟨.refl _, rfl⟩
    | cancel ticket => exact .inr ⟨.refl _, rfl⟩
    | fail slot => exact .inr ⟨Admission.held_fail _ slot ▸ List.filter_sublist, rfl⟩
    | giveBack slot => exact .inr ⟨Admission.held_giveBack _ slot ▸ List.filter_sublist, rfl⟩
    | accept slot receipt =>
      exact .inr ⟨Admission.held_accept _ slot receipt ▸ List.filter_sublist, rfl⟩

def Numbered (s : Session α β) : Prop := ∀ k ∈ s.admission.held.map Prod.fst, k < s.slots

lemma Numbered.next_notMem (h : s.Numbered) : s.slots ∉ s.admission.held.map Prod.fst :=
  fun hm => Nat.lt_irrefl _ (h _ hm)

lemma Numbered.move (h : s.Numbered) (m : Move β) : (s.move m).2.Numbered := by
  intro k hk
  rcases held_move s m with ⟨x, hheld, hslots⟩ | ⟨hheld, hslots⟩ <;> rw [hslots]
  · rw [hheld, List.map_append, List.mem_append] at hk
    rcases hk with hk | hk
    · exact Nat.lt_succ_of_lt (h k hk)
    · exact List.mem_singleton.mp hk ▸ Nat.lt_succ_self _
  · exact h k (hheld.map Prod.fst |>.subset hk)

/-! ### Slots that are emptied -/

/-- The slot that a step empties: its share is placed or goes back. -/
def Step.emptied? : Step β → Option Nat
  | .fail slot | .giveBack slot | .accept slot _ => some slot
  | _ => none

lemma held_of_emptied (s : Session α β) {x : Step β} {slot : Nat} (hx : x.emptied? = some slot) :
    (s.move (.perform x)).2.admission.held = s.admission.held.filter (·.1 ≠ slot) := by
  cases x with
  | fail k => exact Option.some.inj hx ▸ Admission.held_fail _ k
  | giveBack k => exact Option.some.inj hx ▸ Admission.held_giveBack _ k
  | accept k receipt => exact Option.some.inj hx ▸ Admission.held_accept _ k receipt
  | _ => cases hx

/-- The slot was there, and is empty. -/
structure Spent (s : Session α β) (slot : Nat) : Prop where
  old : slot < s.slots
  empty : slot ∉ s.admission.held.map Prod.fst

/-- A slot that has been emptied is not filled again: the next one has another number. -/
lemma Spent.move {slot : Nat} (h : s.Spent slot) (m : Move β) : (s.move m).2.Spent slot := by
  rcases held_move s m with ⟨x, hheld, hslots⟩ | ⟨hheld, hslots⟩
  · refine ⟨hslots ▸ Nat.lt_succ_of_lt h.old, ?_⟩
    rw [hheld, List.map_append, List.mem_append]
    rintro (hk | hk)
    · exact h.empty hk
    · exact Nat.ne_of_lt h.old (List.mem_singleton.mp hk)
  · exact ⟨hslots ▸ h.old, fun hk => h.empty (hheld.map Prod.fst |>.subset hk)⟩

lemma Spent.after {slot : Nat} (h : s.Spent slot) (ms : List (Move β)) :
    (s.after ms).Spent slot := by
  induction ms generalizing s with
  | nil => exact h
  | cons m ms ih => exact ih (h.move m)

lemma Numbered.spent_of_emptied (h : s.Numbered) {x : Step β} {slot : Nat}
    (hx : x.emptied? = some slot) (hslot : slot ∈ s.admission.held.map Prod.fst) :
    (s.move (.perform x)).2.Spent slot := by
  have hheld := held_of_emptied s hx
  have hslots : (s.move (.perform x)).2.slots = s.slots := by
    cases x <;> first | rfl | cases hx
  refine ⟨hslots ▸ h slot hslot, fun hk => ?_⟩
  rw [hheld] at hk
  obtain ⟨y, hy, rfl⟩ := List.mem_map.mp hk
  simpa using (List.mem_filter.mp hy).2

/-! ### What every move keeps -/

structure Sound (s : Session α β) : Prop where
  admission : s.admission.Sound 0
  numbered : s.Numbered

lemma sound_start (shares : List α) (candidates : Nat) :
    (start shares candidates : Session α β).Sound :=
  ⟨Admission.sound_start shares candidates, fun k hk => by simp [start, Admission.start] at hk⟩

lemma Sound.move (h : s.Sound) (m : Move β) : (s.move m).2.Sound := by
  refine ⟨?_, h.numbered.move m⟩
  obtain ⟨ha, hn⟩ := h
  cases m with
  | perform x =>
    cases x with
    | claim => simpa [Session.move, perform] using ha.claim hn.next_notMem
    | wait => exact ha.wait _
    | cancel ticket => exact ha.cancel ticket
    | fail slot => exact ha.fail slot
    | giveBack slot => exact ha.giveBack slot
    | accept slot receipt => exact ha.accept slot receipt
  | goOn ticket => simpa [Session.move] using ha.resume ticket hn.next_notMem

lemma required_move (s : Session α β) (m : Move β) :
    (s.move m).2.admission.required = s.admission.required := by
  cases m with
  | perform x =>
    cases x with
    | claim => simpa [move, perform] using (Admission.keeps_claim s.admission s.slots).required
    | wait => rfl
    | cancel ticket => rfl
    | fail slot => exact Admission.required_fail _ slot
    | giveBack slot => exact (Admission.keeps_giveBack _ slot).required
    | accept slot receipt => exact Admission.required_accept _ slot receipt
  | goOn ticket =>
    simpa [move] using (Admission.keeps_resume s.admission ticket s.slots).required

/-- What one move does to the shares: those not placed stay, but for the one it places. -/
structure Moved (s t : Session α β) (placed : List (Placement α)) : Prop where
  unplaced : s.admission.unplaced.Perm (placed.map Placement.share ++ t.admission.unplaced)
  accepted : t.admission.accepted.length = s.admission.accepted.length + placed.length
  last : ∀ p ∈ placed, p.last = decide (t.admission.accepted.length = s.admission.required)

lemma Moved.of_eq {t : Session α β} (hp : t.admission.unplaced.Perm s.admission.unplaced)
    (ha : t.admission.accepted = s.admission.accepted) : Moved s t [] :=
  ⟨hp.symm, by simp [ha], by simp⟩

lemma Sound.moved_accept (h : s.Sound) (slot : Nat) (receipt : β) :
    Moved s (s.move (.perform (.accept slot receipt))).2
      (s.placement? (.perform (.accept slot receipt))).toList := by
  have hadm : (s.move (.perform (.accept slot receipt))).2.admission =
      (s.admission.accept slot receipt).2 := rfl
  rw [placement?_accept]
  cases hs : s.admission.held.lookup slot with
  | none =>
    have he := Admission.accept_of_not_held hs receipt
    refine .of_eq ?_ ?_ <;> rw [hadm, he]
  | some x =>
    -- The quorum was not full before, so that the flag tells whether it is full now.
    have hlt := h.admission.accepted_lt hs
    have hacc := (Admission.keeps_accept hs receipt).accepted
    have hlast : (s.admission.accept slot receipt).1 =
        decide (s.admission.required ≤ s.admission.accepted.length + 1) := by
      rw [Admission.accept_of_held hs]
      split <;> simp_all
    rw [Option.map_some, Option.toList_some]
    refine ⟨?_, ?_, ?_⟩
    · exact Admission.unplaced_accept h.admission.slots hs receipt
    · rw [hadm, hacc]
      simp [Admission.place]
    · rw [hadm, hacc]
      simp only [List.mem_singleton, forall_eq, hlast, Admission.place, List.length_append,
        List.length_singleton]
      exact decide_eq_decide.mpr (by omega)

lemma Sound.moved (h : s.Sound) (m : Move β) : Moved s (s.move m).2 (s.placement? m).toList := by
  have hn := h.admission.slots
  cases m with
  | perform x =>
    cases x with
    | claim =>
      refine .of_eq ?_ ?_
      · simpa [Session.move, perform] using Admission.unplaced_claim s.admission s.slots
      · simpa [Session.move, perform] using (Admission.keeps_claim s.admission s.slots).accepted
    | wait => exact .of_eq (List.Perm.refl _) rfl
    | cancel ticket => exact .of_eq (List.Perm.refl _) rfl
    | fail slot =>
      exact .of_eq (Admission.unplaced_fail hn slot) (Admission.accepted_fail _ slot)
    | giveBack slot =>
      exact .of_eq (Admission.unplaced_giveBack hn slot) (Admission.keeps_giveBack _ slot).accepted
    | accept slot receipt => exact h.moved_accept slot receipt
  | goOn ticket =>
    refine .of_eq ?_ ?_
    · simpa [Session.move] using Admission.unplaced_resume s.admission ticket s.slots
    · simpa [Session.move] using (Admission.keeps_resume s.admission ticket s.slots).accepted

/-! ### What every list of moves keeps -/

lemma Sound.after (h : s.Sound) (ms : List (Move β)) : (s.after ms).Sound := by
  induction ms generalizing s with
  | nil => exact h
  | cons m ms ih => exact ih (h.move m)

lemma required_after (s : Session α β) (ms : List (Move β)) :
    (s.after ms).admission.required = s.admission.required := by
  induction ms generalizing s with
  | nil => rfl
  | cons m ms ih => exact (ih _).trans (required_move s m)

lemma Sound.unplaced_after (h : s.Sound) (ms : List (Move β)) :
    s.admission.unplaced.Perm
      ((s.placements ms).map Placement.share ++ (s.after ms).admission.unplaced) := by
  induction ms generalizing s with
  | nil => exact List.Perm.refl _
  | cons m ms ih =>
    refine (h.moved m).unplaced.trans ?_
    rw [placements, List.map_append, List.append_assoc]
    exact (ih (h.move m)).append_left _

lemma Sound.accepted_after (h : s.Sound) (ms : List (Move β)) :
    (s.after ms).admission.accepted.length =
      s.admission.accepted.length + (s.placements ms).length := by
  induction ms generalizing s with
  | nil => rfl
  | cons m ms ih =>
    rw [after_cons, ih (h.move m), (h.moved m).accepted, placements, List.length_append]
    omega

/-- The placement that completes the accepted ones is told to be the last, and no other. -/
lemma Sound.last_placements (h : s.Sound) (ms : List (Move β)) {k : Nat} {p : Placement α}
    (hp : (s.placements ms)[k]? = some p) :
    p.last = decide (s.admission.accepted.length + k + 1 = s.admission.required) := by
  -- Induction on the moves, with what is accepted already general: each placement adds one to it.
  induction ms generalizing s k with
  | nil => simp [placements] at hp
  | cons m ms ih =>
    have hm := h.moved m
    rw [placements] at hp
    cases hq : s.placement? m with
    | none =>
      rw [hq] at hp hm
      rw [ih (h.move m) hp, hm.accepted, required_move]
      rfl
    | some q =>
      rw [hq] at hp hm
      have hacc := hm.accepted
      rw [Option.toList_some, List.length_singleton] at hacc
      cases k with
      | zero =>
        obtain rfl : q = p := by simpa using hp
        rw [hm.last q (by simp), hacc]
      | succ k =>
        rw [ih (h.move m) (by simpa using hp), hacc, required_move]
        exact decide_eq_decide.mpr (by omega)

/-! ### Steps as moves -/

def goingOn (woken : List (Woken α)) : List (Move β) := woken.map fun w => .goOn w.ticket

/-- The moves that a list of steps comes to. -/
def movesOf : Session α β → List (Step β) → List (Move β)
  | _, [] => []
  | s, x :: xs => .perform x :: goingOn (s.step x).2.1 ++ movesOf (s.step x).2.2 xs

lemma wake_eq_after (count : Nat) (s : Session α β) :
    (wake count s).2 = s.after (goingOn (wake count s).1) := by
  induction count generalizing s with
  | zero => rfl
  | succ count ih =>
    cases hg : s.admission.permits.granted with
    | nil => simp [wake, hg, goingOn]
    | cons ticket rest =>
      simp only [wake, hg, goingOn, List.map_cons, after_cons]
      exact ih _

lemma granted_wake (count : Nat) (s : Session α β)
    (h : s.admission.permits.tickets.length ≤ count) :
    (wake count s).2.admission.permits.granted = [] := by
  -- Each claim that goes on takes its ticket from the open ones, and nobody joins them.
  induction count generalizing s with
  | zero =>
    simp only [Permits.tickets, List.length_append] at h
    exact List.eq_nil_of_length_eq_zero (by simp only [wake]; omega)
  | succ count ih =>
    cases hg : s.admission.permits.granted with
    | nil => simp [wake, hg]
    | cons ticket rest =>
      have ht : ticket ∈ s.admission.permits.granted := by
        rw [hg]
        exact List.mem_cons_self
      have hlen := (Admission.tickets_resume ht s.slots).length_eq
      rw [List.length_cons] at hlen
      simp only [wake, hg]
      refine ih _ ?_
      rw [admission_filled]
      omega

lemma run_eq_after (s : Session α β) (xs : List (Step β)) : s.run xs = s.after (s.movesOf xs) := by
  induction xs generalizing s with
  | nil => rfl
  | cons x xs ih =>
    rw [movesOf, List.cons_append, after_cons, after_append]
    have hstep : (s.step x).2.2 = ((s.move (.perform x)).2).after (goingOn (s.step x).2.1) :=
      wake_eq_after _ _
    rw [← hstep]
    exact ih _

lemma granted_step (s : Session α β) (x : Step β) :
    (s.step x).2.2.admission.permits.granted = [] := by
  refine granted_wake _ _ ?_
  simp [waiting, Permits.tickets]

lemma granted_run (hs : s.admission.permits.granted = []) (xs : List (Step β)) :
    (s.run xs).admission.permits.granted = [] := by
  induction xs generalizing s with
  | nil => exact hs
  | cons x xs ih => exact ih (granted_step s x)

end KeyQuorum.Session
