import KeyQuorum.Proofs.Distribution.AfterAbort
import KeyQuorum.Proofs.Distribution.Session

/-!
Shares and permits are given out in turn.

Shares leave the pool at the front and come back at its end. So what has been handed out, with the
pool behind it, is what there was at first with what has come back behind it. The open tickets form
a line in the same way: whoever has a permit reserved stands before whoever has not, and both stand
as they began to wait. Only a ticket that is given up leaves the line from within; as long as the
first of the line goes on first, the others leave it at the front.
-/

namespace KeyQuorum

namespace Permits

variable {p q : Permits} {t : Nat}

/-- The open tickets, those that a permit is reserved for before the others. -/
def line (p : Permits) : List Nat := p.granted ++ p.queue

lemma line_take? (h : p.take? = some q) : q.line = p.line := by
  obtain ⟨-, hqueue, hgranted⟩ := take?_eq_some h
  rw [line, line, hqueue, hgranted]

/-- A new ticket stands at the end: when its permit is free already, nobody waits. -/
lemma line_request (hp : p.Prompt) (t : Nat) : (p.request t).line = p.line ++ [t] := by
  unfold request line
  split
  · rw [List.append_assoc]
  · next n hfree =>
    have hqueue : p.queue = [] := by
      by_cases hne : p.queue = []
      · exact hne
      · have := hp hne
        omega
    simp [hqueue]

@[simp] lemma line_release (p : Permits) : p.release.line = p.line := by
  unfold release line
  split
  · rfl
  · next u rest hqueue => simp [hqueue]

lemma line_takeUp? (h : p.takeUp? t = some q) : q.line = p.line.erase t := by
  obtain ⟨ht, rfl⟩ := takeUp?_eq_some h
  exact (List.erase_append_left _ ht).symm

lemma line_withdraw (p : Permits) (t : Nat) : (p.withdraw t).line = p.line.erase t := by
  unfold withdraw
  cases h : p.takeUp? t with
  | some q => rw [line_release, line_takeUp? h]
  | none => exact (List.erase_append_right _ (takeUp?_eq_none h)).symm

end Permits

namespace Admission

variable {α β : Type} {a : Admission α β} {ticket : Nat}

lemma line_fill (a : Admission α β) (slot : Nat) :
    (a.fill slot).2.permits.line = a.permits.line := by
  rcases fill_cases a slot with ⟨x, rest, -, -, he⟩ | ⟨-, he⟩ <;> rw [he]
  exact Permits.line_release a.permits

lemma line_claim (a : Admission α β) (slot : Nat) :
    (a.claim slot).2.permits.line = a.permits.line := by
  unfold claim
  split
  · next permits h => exact (line_fill { a with permits } slot).trans (Permits.line_take? h)
  · rfl

lemma line_resume (ht : ticket ∈ a.permits.granted) (slot : Nat) :
    (a.resume ticket slot).2.permits.line = a.permits.line.erase ticket := by
  unfold resume
  split
  · next permits h => exact (line_fill { a with permits } slot).trans (Permits.line_takeUp? h)
  · next h => exact absurd ht (Permits.takeUp?_eq_none h)

lemma line_giveBack (a : Admission α β) (slot : Nat) :
    (a.giveBack slot).permits.line = a.permits.line := by
  unfold giveBack
  split
  · rfl
  · exact Permits.line_release a.permits

lemma line_fail (a : Admission α β) (slot : Nat) :
    (a.fail slot).2.permits.line = a.permits.line := by
  cases hs : a.held.lookup slot with
  | none => rw [fail_of_not_held hs]
  | some s => rw [fail_of_held hs]; exact line_giveBack a.charge slot

lemma line_accept (a : Admission α β) (slot : Nat) (receipt : β) :
    (a.accept slot receipt).2.permits.line = a.permits.line := by
  cases hs : a.held.lookup slot with
  | none => rw [accept_of_not_held hs]
  | some s =>
    rw [accept_of_held hs]
    split
    · exact Permits.line_release a.permits
    · rfl

end Admission

namespace Session

variable {α β : Type} {s : Session α β}

/-! ### What moves hand out and bring back -/

def Reply.share? : Reply α → Option α
  | .claimed _ x => some x
  | _ => none

@[simp] lemma share?_filled (s : Session α β) (x : Claim α × Admission α β) :
    (s.filled x).1.share? = x.1.share? := by
  obtain ⟨c, a⟩ := x
  cases c <;> rfl

/-- The share that a move hands out. -/
def handed? (s : Session α β) (m : Move β) : Option α := (s.move m).1.share?

/-- The share that a move brings back. -/
def returned? (s : Session α β) : Move β → Option α
  | .perform (.fail slot) | .perform (.giveBack slot) => s.admission.held.lookup slot
  | _ => none

def handed : Session α β → List (Move β) → List α
  | _, [] => []
  | s, m :: ms => (s.handed? m).toList ++ (s.move m).2.handed ms

def returned : Session α β → List (Move β) → List α
  | _, [] => []
  | s, m :: ms => (s.returned? m).toList ++ (s.move m).2.returned ms

lemma pool_move (s : Session α β) (m : Move β) :
    (s.handed? m).toList ++ (s.move m).2.admission.pool =
      s.admission.pool ++ (s.returned? m).toList := by
  -- A claim takes the front, a failure or a share given back joins the end; all else leaves the
  -- pool.
  cases m with
  | goOn ticket =>
    simpa [handed?, returned?, move] using (Admission.pool_resume s.admission ticket s.slots).symm
  | perform x =>
    cases x with
    | claim =>
      simpa [handed?, returned?, move, perform] using
        (Admission.pool_claim s.admission s.slots).symm
    | wait => exact (List.append_nil _).symm
    | cancel ticket => exact (List.append_nil _).symm
    | fail slot => exact Admission.pool_fail s.admission slot
    | giveBack slot => exact Admission.pool_giveBack s.admission slot
    | accept slot receipt =>
      exact (Admission.pool_accept s.admission slot receipt).trans (List.append_nil _).symm

/-- **The pool is a queue**, from any session on and through all moves. -/
theorem pool_after (s : Session α β) (ms : List (Move β)) :
    s.handed ms ++ (s.after ms).admission.pool = s.admission.pool ++ s.returned ms := by
  induction ms generalizing s with
  | nil => exact (List.append_nil _).symm
  | cons m ms ih =>
    rw [handed, returned, after_cons, List.append_assoc, ih, ← List.append_assoc, pool_move,
      List.append_assoc]

/-! ### Who waits, and who goes on -/

/-- The ticket of a claim that begins to wait. -/
def begun? (s : Session α β) (m : Move β) : Option Nat :=
  match (s.move m).1 with
  | .waiting ticket => some ticket
  | _ => none

/-- The ticket of a claim that waited and goes on. -/
def served? (s : Session α β) (m : Move β) : Option Nat :=
  match m, (s.move m).1 with
  | .goOn _, .blocked => none
  | .goOn ticket, _ => some ticket
  | _, _ => none

def begun : Session α β → List (Move β) → List Nat
  | _, [] => []
  | s, m :: ms => (s.begun? m).toList ++ (s.move m).2.begun ms

def served : Session α β → List (Move β) → List Nat
  | _, [] => []
  | s, m :: ms => (s.served? m).toList ++ (s.move m).2.served ms

/-- Of the claims whose turn has come the first goes on first. -/
def InTurn : Session α β → List (Move β) → Prop
  | _, [] => True
  | s, m :: ms =>
    (∀ ticket, m = .goOn ticket → s.admission.permits.granted.head? = some ticket) ∧
      (s.move m).2.InTurn ms

variable {m : Move β} {ticket : Nat}

lemma waiting_ne_filled (s : Session α β) (x : Claim α × Admission α β) :
    (s.filled x).1 ≠ .waiting ticket := by
  obtain ⟨c, a⟩ := x
  cases c <;> nofun

lemma begun?_filled {x : Claim α × Admission α β} (h : s.move m = s.filled x) :
    s.begun? m = none := by
  unfold begun?
  rw [h]
  split
  · next hwaiting => exact absurd hwaiting (waiting_ne_filled s x)
  · rfl

@[simp] lemma tickets_filled (s : Session α β) (x : Claim α × Admission α β) :
    (s.filled x).2.tickets = s.tickets := by
  obtain ⟨c, a⟩ := x
  cases c <;> rfl

lemma range_move (s : Session α β) (m : Move β) :
    List.range (s.move m).2.tickets = List.range s.tickets ++ (s.begun? m).toList := by
  cases m with
  | goOn ticket =>
    rw [begun?_filled rfl]
    simp [move]
  | perform x =>
    cases x with
    | claim =>
      rw [begun?_filled rfl]
      simp [move, perform]
    | wait => exact List.range_succ
    | _ => exact (List.append_nil _).symm

lemma served?_goOn (s : Session α β) (ticket : Nat) : s.served? (.goOn ticket) =
    if ticket ∈ s.admission.permits.granted then some ticket else none := by
  split
  · next ht =>
    rcases Admission.resume_cases ht s.slots with ⟨x, b, -, -, he⟩ | ⟨-, b, -, he⟩ <;>
      simp only [served?, move, he, filled]
  · next ht => simp only [served?, move, Admission.resume_of_not_granted ht, filled]

/-- Only a new ticket joins the line, at its end, and nobody is passed in it. -/
lemma Sound.line_move (h : s.Sound) (m : Move β) :
    (s.move m).2.admission.permits.line.Sublist
      (s.admission.permits.line ++ (s.begun? m).toList) := by
  cases m with
  | goOn ticket =>
    rw [begun?_filled rfl, Option.toList_none, List.append_nil, Session.move, admission_filled]
    by_cases ht : ticket ∈ s.admission.permits.granted
    · -- who goes on leaves the line, from wherever it stands
      rw [Admission.line_resume ht]
      exact List.erase_sublist
    · simp only [Admission.resume_of_not_granted ht, List.Sublist.refl]
  | perform x =>
    cases x with
    | claim =>
      rw [begun?_filled rfl, Session.move, perform, admission_filled, Admission.line_claim]
      exact List.sublist_append_left _ _
    | wait =>
      have hline := Permits.line_request h.admission.prompt s.tickets
      exact hline ▸ List.Sublist.refl _
    | cancel ticket =>
      have hline := Permits.line_withdraw s.admission.permits ticket
      exact (hline ▸ List.erase_sublist).trans (List.sublist_append_left _ _)
    | fail slot =>
      have hline := Admission.line_fail s.admission slot
      exact hline ▸ List.sublist_append_left _ _
    | giveBack slot =>
      have hline := Admission.line_giveBack s.admission slot
      exact hline ▸ List.sublist_append_left _ _
    | accept slot receipt =>
      have hline := Admission.line_accept s.admission slot receipt
      exact hline ▸ List.sublist_append_left _ _

/-- A claim that goes on in its turn leaves the line at the front. -/
lemma Sound.served?_append_line_move (h : s.Sound)
    (hturn : ∀ ticket, m = .goOn ticket → s.admission.permits.granted.head? = some ticket) :
    ((s.served? m).toList ++ (s.move m).2.admission.permits.line).Sublist
      (s.admission.permits.line ++ (s.begun? m).toList) := by
  cases m with
  | perform x => exact h.line_move (.perform x)
  | goOn ticket =>
    -- In its turn it stands first, so that nobody is passed when it leaves.
    obtain ⟨rest, hgranted⟩ := List.head?_eq_some_iff.mp (hturn ticket rfl)
    have ht : ticket ∈ s.admission.permits.granted := hgranted ▸ List.mem_cons_self
    have hline : s.admission.permits.line = ticket :: (rest ++ s.admission.permits.queue) := by
      rw [Permits.line, hgranted, List.cons_append]
    rw [served?_goOn, if_pos ht, Session.move, admission_filled, Admission.line_resume ht, hline,
      List.erase_cons_head]
    exact List.sublist_append_left _ _

/-! ### Turns in a list of moves -/

lemma range_after (s : Session α β) (ms : List (Move β)) :
    List.range (s.after ms).tickets = List.range s.tickets ++ s.begun ms := by
  induction ms generalizing s with
  | nil => exact (List.append_nil _).symm
  | cons m ms ih => rw [after_cons, ih, range_move, begun, List.append_assoc]

lemma Sound.line_after (h : s.Sound) (ms : List (Move β)) :
    (s.after ms).admission.permits.line.Sublist (s.admission.permits.line ++ s.begun ms) := by
  induction ms generalizing s with
  | nil => exact List.sublist_append_left _ _
  | cons m ms ih =>
    rw [after_cons, begun, ← List.append_assoc]
    exact (ih (h.move m)).trans ((h.line_move m).append_right _)

/-- What has gone on, with the line behind it, stands as it began to wait. -/
lemma Sound.served_append_line_after (h : s.Sound) {ms : List (Move β)} (hturn : s.InTurn ms) :
    (s.served ms ++ (s.after ms).admission.permits.line).Sublist
      (s.admission.permits.line ++ s.begun ms) := by
  -- Whatever has gone on stays in front while the line moves up behind it.
  induction ms generalizing s with
  | nil => exact List.sublist_append_left _ _
  | cons m ms ih =>
    obtain ⟨hm, hms⟩ := hturn
    rw [after_cons, served, begun, List.append_assoc, ← List.append_assoc _ (s.begun? m).toList]
    refine ((ih (h.move m) hms).append_left _).trans ?_
    rw [← List.append_assoc]
    exact (h.served?_append_line_move hm).append_right _

/-! ### Turns in a run of steps -/

lemma InTurn.append {ms ns : List (Move β)} (hms : s.InTurn ms) (hns : (s.after ms).InTurn ns) :
    s.InTurn (ms ++ ns) := by
  induction ms generalizing s with
  | nil => exact hns
  | cons m ms ih => exact ⟨hms.1, ih hms.2 hns⟩

/-- Waking lets the first of the line go on, again and again. -/
lemma inTurn_wake (count : Nat) (s : Session α β) : s.InTurn (goingOn (wake count s).1) := by
  induction count generalizing s with
  | zero => trivial
  | succ count ih =>
    cases hg : s.admission.permits.granted with
    | nil =>
      simp only [wake, hg]
      trivial
    | cons ticket rest =>
      simp only [wake, hg, goingOn, List.map_cons]
      refine ⟨fun t ht => ?_, ih _⟩
      obtain rfl := Move.goOn.inj ht
      rw [hg, List.head?_cons]

lemma inTurn_movesOf (s : Session α β) (xs : List (Step β)) : s.InTurn (s.movesOf xs) := by
  induction xs generalizing s with
  | nil => trivial
  | cons x xs ih =>
    refine InTurn.append (s := s) ⟨nofun, inTurn_wake _ _⟩ ?_
    have hstep : s.after (.perform x :: goingOn (s.step x).2.1) = (s.step x).2.2 :=
      (wake_eq_after _ _).symm
    rw [hstep]
    exact ih _

/-- **Shares and permits are given out in turn.** Whatever the moves, what has been handed out is
the front of what was there at first with what has come back behind it, so that a share that comes
back follows what lay in the pool before it. Waiting claims get their permits in the order they
began to wait, and as long as the first of them goes on first, which it does in a run of steps,
they go on in that order. -/
theorem handed_out_in_turn (shares : List α) (candidates : Nat) :
    let s₀ : Session α β := start shares candidates
    (∀ ms, let s := s₀.after ms
      let waiting := s.admission.permits.granted ++ s.admission.permits.queue
      s₀.handed ms ++ s.admission.pool = shares ++ s₀.returned ms ∧
      (∀ m x, s.returned? m = some x → ∀ ns, (s.move m).2.handed ns <+:
        s.admission.pool ++ x :: (s.move m).2.returned ns) ∧
      s₀.begun ms = List.range s.tickets ∧
      waiting.Sublist (s₀.begun ms) ∧
      (s₀.InTurn ms → (s₀.served ms ++ waiting).Sublist (s₀.begun ms))) ∧
    ∀ xs, s₀.run xs = s₀.after (s₀.movesOf xs) ∧ s₀.InTurn (s₀.movesOf xs) := by
  intro s₀
  have h₀ : s₀.Sound := sound_start shares candidates
  refine ⟨fun ms => ⟨pool_after s₀ ms, fun m x hx ns => ?_, ?_, h₀.line_after ms,
    h₀.served_append_line_after⟩, fun xs => ⟨run_eq_after s₀ xs, inTurn_movesOf s₀ xs⟩⟩
  · -- a move that brings a share back hands none out
    have hreturn : (s₀.after ms).handed? m = none := by
      cases m with
      | goOn ticket => cases hx
      | perform y => cases y <;> first | rfl | cases hx
    have hpool := pool_move (s₀.after ms) m
    rw [hreturn, hx, Option.toList_none, List.nil_append] at hpool
    exact ⟨_, (pool_after _ ns).trans (by rw [hpool]; simp)⟩
  · exact (range_after s₀ ms).symm

/-- Two claims wait while both shares are out. The failed share is handed out before the one that
is given back after it, and the claims go on as they began to wait. -/
theorem two_waiting_in_turn :
    let s₀ : Session Nat Unit := start [10, 20] 4
    let s := s₀.after [.perform .claim, .perform .claim, .perform .wait, .perform .wait]
    let ms := s₀.movesOf [.claim, .claim, .wait, .wait, .fail 1, .giveBack 0]
    (s.move (.perform (.fail 1))).2.handed [.goOn 0, .perform (.giveBack 0), .goOn 1] <+:
        [20, 10] ∧
      s₀.InTurn ms ∧ s₀.served ms = [0, 1] := by
  intro s₀ s ms
  obtain ⟨hmoves, hsteps⟩ := handed_out_in_turn [10, 20] 4
  have hfailed : s.returned? (.perform (.fail 1)) = some 20 := by decide
  obtain ⟨-, hbehind, -⟩ :=
    hmoves [.perform .claim, .perform .claim, .perform .wait, .perform .wait]
  obtain ⟨-, hturn⟩ := hsteps [.claim, .claim, .wait, .wait, .fail 1, .giveBack 0]
  exact ⟨hbehind _ _ hfailed [.goOn 0, .perform (.giveBack 0), .goOn 1], hturn, by decide⟩

end Session

end KeyQuorum
