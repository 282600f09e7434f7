import Mathlib.Tactic.Lemma
import KeyQuorum.Proofs.Distribution.AfterAbort
import KeyQuorum.Proofs.Distribution.Session

/-!
The verdict of an admission is the count of its acceptances.

The verdict looks at the abort, at the pool and at what is on record, and each of these is kept by
other operations. They never contradict one another: shares are conserved, so that with no slot
held the pool is empty just if as many are accepted as there were, and an abort leaves a share in
the pool. So a quorum that is complete is never discarded, and one that is not is never given out.
-/

namespace KeyQuorum.Session

variable {α β : Type} {s : Session α β}

/-! ### What is put on record -/

/-- The receipt that a move puts on record: the one that a slot is accepted with. -/
def receipt? (s : Session α β) : Move β → Option β
  | .perform (.accept slot receipt) => (s.admission.held.lookup slot).map fun _ => receipt
  | _ => none

def receipts : Session α β → List (Move β) → List β
  | _, [] => []
  | s, m :: ms => (s.receipt? m).toList ++ (s.move m).2.receipts ms

lemma accepted_move (s : Session α β) (m : Move β) :
    (s.move m).2.admission.accepted = s.admission.accepted ++ (s.receipt? m).toList := by
  cases m with
  | goOn ticket =>
    simpa [move, receipt?] using (Admission.keeps_resume s.admission ticket s.slots).accepted
  | perform x =>
    cases x with
    | claim =>
      simpa [move, perform, receipt?] using (Admission.keeps_claim s.admission s.slots).accepted
    | wait => exact (List.append_nil _).symm
    | cancel ticket => exact (List.append_nil _).symm
    | fail slot => exact (Admission.accepted_fail _ slot).trans (List.append_nil _).symm
    | giveBack slot =>
      exact (Admission.keeps_giveBack _ slot).accepted.trans (List.append_nil _).symm
    | accept slot receipt =>
      show (s.admission.accept slot receipt).2.accepted = _
      cases hs : s.admission.held.lookup slot with
      | none => simp [receipt?, hs, Admission.accept_of_not_held hs]
      | some x => simp [receipt?, hs, (Admission.keeps_accept hs receipt).accepted, Admission.place]

lemma accepted_eq_receipts (s : Session α β) (ms : List (Move β)) :
    (s.after ms).admission.accepted = s.admission.accepted ++ s.receipts ms := by
  induction ms generalizing s with
  | nil => exact (List.append_nil _).symm
  | cons m ms ih => rw [after_cons, ih, accepted_move, receipts, List.append_assoc]

/-! ### What an abort leaves behind -/

lemma backed_move (h : s.admission.Backed) (m : Move β) : (s.move m).2.admission.Backed := by
  cases m with
  | goOn ticket => simpa [move] using h.resume ticket s.slots
  | perform x =>
    cases x with
    | claim => simpa [move, perform] using h.claim s.slots
    | wait => exact h
    | cancel ticket => exact h
    | fail slot => exact h.fail slot
    | giveBack slot => exact h.giveBack slot
    | accept slot receipt => exact h.accept slot receipt

lemma backed_after (h : s.admission.Backed) (ms : List (Move β)) :
    (s.after ms).admission.Backed := by
  induction ms generalizing s with
  | nil => exact h
  | cons m ms ih => exact ih (backed_move h m)

/-- Too few candidates abort from the start, and then there are shares. -/
lemma backed_start (shares : List α) (candidates : Nat) :
    (start shares candidates : Session α β).admission.Backed := by
  intro hab hpool
  have hfew : candidates < shares.length := of_decide_eq_true hab
  have hnone : shares = [] := hpool
  rw [hnone] at hfew
  exact absurd hfew (Nat.not_lt_zero _)

/-! ### The verdict -/

section Verdict

variable {a : Admission α β}
  (hcount : a.pool.length + a.held.length + a.accepted.length = a.required)
include hcount

lemma pool_eq_nil_of_full (h : a.accepted.length = a.required) : a.pool = [] :=
  List.eq_nil_of_length_eq_zero (by omega)

lemma pool_eq_nil_iff_full (hheld : a.held = []) :
    a.pool = [] ↔ a.accepted.length = a.required := by
  refine ⟨fun hpool => ?_, pool_eq_nil_of_full hcount⟩
  rw [hpool, hheld] at hcount
  simpa using hcount

lemma not_aborted_of_full (hbacked : a.Backed) (h : a.accepted.length = a.required) :
    a.aborted = false :=
  Bool.eq_false_iff.mpr fun hab => hbacked hab (pool_eq_nil_of_full hcount h)

/-- With no slot held the three things that the verdict looks at come to one. -/
lemma finish_of_settled (hbacked : a.Backed) (hheld : a.held = []) :
    a.finish = if a.accepted.length = a.required then .ok a.accepted
      else .error (.insufficientSigners a.accepted.length a.required) := by
  split
  · next hfull =>
    exact Admission.finish_eq_ok.mpr ⟨not_aborted_of_full hcount hbacked hfull,
      pool_eq_nil_of_full hcount hfull, Nat.le_of_eq hfull.symm, rfl⟩
  · next hshort =>
    cases hfinish : a.finish with
    | ok placed =>
      -- A verdict in favour needs an empty pool, which with no slot held means that all are placed.
      obtain ⟨-, hpool, -⟩ := Admission.finish_eq_ok.mp hfinish
      exact absurd ((pool_eq_nil_iff_full hcount hheld).mp hpool) hshort
    | error e => rw [Admission.finish_eq_error hfinish]

end Verdict

/-- **The verdict is the count of the acceptances.** After any moves that leave no slot held, all
that was accepted is given out, in the order of the acceptances, if that is as many as there were
shares; otherwise the verdict tells how many they are. The pool is empty in the first case and in
no other. With all shares accepted there is no abort, whether slots are held or not. -/
theorem verdict_counts_acceptances (shares : List α) (candidates : Nat) (ms : List (Move β)) :
    let a := ((start shares candidates : Session α β).after ms).admission
    let recorded := (start shares candidates).receipts ms
    a.accepted = recorded ∧ a.required = shares.length ∧
      (recorded.length = shares.length → a.aborted = false) ∧
      (a.held = [] →
        a.finish = (if recorded.length = shares.length then .ok recorded
          else .error (.insufficientSigners recorded.length shares.length)) ∧
        (a.pool = [] ↔ recorded.length = shares.length)) := by
  intro a recorded
  have haccepted : a.accepted = recorded := accepted_eq_receipts _ ms
  have hrequired : a.required = shares.length := required_after _ ms
  have hcount : a.pool.length + a.held.length + a.accepted.length = a.required :=
    ((sound_start shares candidates).after ms).admission.count
  have hbacked : a.Backed := backed_after (backed_start shares candidates) ms
  rw [← haccepted, ← hrequired]
  exact ⟨rfl, rfl, not_aborted_of_full hcount hbacked, fun hheld =>
    ⟨finish_of_settled hcount hbacked hheld, pool_eq_nil_iff_full hcount hheld⟩⟩

/-- Two shares: a failure that can be borne leaves both to be accepted, one too many leaves one. -/
theorem failures_decide_verdict :
    let moves (slots : List (Step String)) : List (Move String) := slots.map .perform
    let borne := ((start [7, 8] 3).after (moves
      [.claim, .claim, .fail 0, .accept 1 "b", .claim, .accept 2 "a"])).admission
    let short := ((start [7, 8] 2).after (moves
      [.claim, .claim, .fail 0, .accept 1 "b", .claim])).admission
    borne.held = [] ∧ borne.finish = .ok ["b", "a"] ∧
      short.held = [] ∧ short.finish = .error (.insufficientSigners 1 2) := by
  intro moves borne short
  have hborne := verdict_counts_acceptances [7, 8] 3
    (moves [.claim, .claim, .fail 0, .accept 1 "b", .claim, .accept 2 "a"])
  have hshort := verdict_counts_acceptances [7, 8] 2
    (moves [.claim, .claim, .fail 0, .accept 1 "b", .claim])
  exact ⟨rfl, (hborne.2.2.2 rfl).1, rfl, (hshort.2.2.2 rfl).1⟩

end KeyQuorum.Session
