import Mathlib.Data.List.Nodup
import KeyQuorum.Proofs.Distribution.Session
import KeyQuorum.Sharing.Dealing

/-!
No share and no permit is lost or made.

However operations and waiting claims take turns, each share lies in the pool, sits in one slot
or was placed by one acceptance, and the permits that no slot holds are as many as the shares
in the pool until the last acceptance, which empties the pool and leaves one permit free.
-/

namespace KeyQuorum.Session

variable {β : Type}

/-- Every share is accounted for, with the given placements and `free` permits that no slot
holds. -/
structure Balance (shares : List KeyShare) (a : Admission KeyShare β)
    (ps : List (Placement KeyShare)) (free : Nat) : Prop where
  /-- A share is in one place, and there once. -/
  once : ∀ s ∈ shares,
    a.pool.count s + (a.held.map Prod.snd).count s + (ps.map Placement.share).count s = 1
  all : (a.pool ++ a.held.map Prod.snd ++ ps.map Placement.share).Perm shares
  slots : (a.held.map Prod.fst).Nodup
  placed : ps.length = a.accepted.length
  required : a.required = shares.length
  count : a.pool.length + a.held.length + a.accepted.length = a.required
  short : a.accepted.length < a.required →
    free = a.pool.length ∧ free + a.held.length + a.accepted.length = a.required
  full : a.accepted.length = a.required → 1 ≤ a.required →
    a.pool = [] ∧ a.held = [] ∧ free = 1
  /-- The acceptance that completes the quorum is told so, and no other. -/
  last : ∀ k p, ps[k]? = some p → p.last = decide (k + 1 = a.required)

lemma balance_after (shares : List KeyShare) (candidates : Nat)
    (hids : (shares.map KeyShare.id).Nodup) (ms : List (Move β)) :
    Balance shares ((start shares candidates).after ms).admission
      ((start shares candidates).placements ms)
      ((start shares candidates : Session KeyShare β).after ms).admission.permits.idle := by
  have h0 : (start shares candidates : Session KeyShare β).Sound := sound_start shares candidates
  have ha := (h0.after ms).admission
  have hreq : ((start shares candidates).after ms : Session KeyShare β).admission.required =
      shares.length := required_after _ ms
  have hacc := h0.accepted_after ms
  have hidle := ha.idle
  have hcount := ha.count
  have hall := (h0.unplaced_after ms).symm
  rw [show (start shares candidates : Session KeyShare β).admission.unplaced = shares from
    Admission.unplaced_start shares candidates] at hall
  have hperm := List.perm_append_comm.trans hall
  refine ⟨fun s hs => ?_, hperm, ha.slots, ?_, hreq, hcount, fun hlt => ?_, fun heq hpos => ?_, ?_⟩
  · -- each share is in one place, as its number tells it from the others
    have h1 : shares.count s = 1 := List.count_eq_one_of_mem (List.Nodup.of_map _ hids) hs
    rw [← hperm.count_eq s, List.count_append, Admission.unplaced, List.count_append] at h1
    exact h1
  · rw [hacc]
    simp [start, Admission.start]
  · rw [Admission.spare_eq_zero hlt] at hidle
    exact ⟨by omega, by omega⟩
  · -- with all placed there is one permit, the one that the last acceptance freed
    have hspare : ((start shares candidates).after ms : Session KeyShare β).admission.spare = 1 :=
      if_pos ⟨by omega, by omega⟩
    rw [hspare] at hidle
    exact ⟨List.eq_nil_of_length_eq_zero (by omega), List.eq_nil_of_length_eq_zero (by omega),
      by omega⟩
  · intro k p hp
    rw [h0.last_placements ms hp, hreq]
    simp [start, Admission.start]

/-- **Conservation of shares and permits.** The accounts balance after every list of moves, and
after every run of steps, where the free permits alone make up the balance. A slot whose share has
been placed or has gone back is not held any more and never again, while the others are; and when
all slots are closed, the pool has their shares. -/
theorem shares_and_permits_balance (shares : List KeyShare) (candidates : Nat)
    (hids : (shares.map KeyShare.id).Nodup) :
    let s : Session KeyShare β := start shares candidates
    (∀ ms : List (Move β),
      let a := (s.after ms).admission
      Balance shares a (s.placements ms) (a.permits.free + a.permits.granted.length)) ∧
    (∀ xs : List (Step β),
      let a := (s.run xs).admission
      Balance shares a (s.placements (s.movesOf xs)) a.permits.free) ∧
    (∀ (ms : List (Move β)) (x : Step β) (slot : Nat), x.emptied? = some slot →
      let t := s.after ms
      let t' := (t.move (.perform x)).2
      t'.admission.held = t.admission.held.filter (·.1 ≠ slot) ∧
      (slot ∈ t.admission.held.map Prod.fst →
        ∀ ns, slot ∉ (t'.after ns).admission.held.map Prod.fst)) ∧
    ∀ ms : List (Move β),
      let a := (s.after ms).admission
      a.close.held = [] ∧ a.close.pool.Perm (a.pool ++ a.held.map Prod.snd) := by
  intro s
  have hsound (ms : List (Move β)) : (s.after ms).Sound := (sound_start shares candidates).after ms
  refine ⟨balance_after shares candidates hids, fun xs => ?_, fun ms x slot hx => ?_, fun ms => ?_⟩
  · have hb := balance_after shares candidates hids (s.movesOf xs)
    have hg : (s.run xs).admission.permits.granted = [] := granted_run rfl xs
    rw [← run_eq_after, Permits.idle, hg] at hb
    exact hb
  · refine ⟨held_of_emptied _ hx, fun hslot ns => ?_⟩
    exact (((hsound ms).numbered.spent_of_emptied hx hslot).after ns).empty
  · exact ⟨Admission.held_close _, Admission.pool_close (hsound ms).admission.slots⟩

/-- Two shares, of which one is placed while two claims wait and one gives its share back. Its slot
is not held any more. -/
theorem two_shares_balance :
    let shares := (Dealing.ofPolynomial [11] (Point.ofScalar 11) 2).shares
    let xs : List (Step Unit) :=
      [.claim, .claim, .wait, .wait, .accept 0 (), .giveBack 1, .cancel 1]
    let s : Session KeyShare Unit := start shares 3
    let t := s.after [.perform .claim, .perform .claim]
    (shares.map KeyShare.id).Nodup ∧
      Balance shares (s.run xs).admission (s.placements (s.movesOf xs))
        (s.run xs).admission.permits.free ∧
      (t.move (.perform (.giveBack 1))).2.admission.held = t.admission.held.filter (·.1 ≠ 1) :=
  ⟨by decide, (shares_and_permits_balance _ 3 (by decide)).2.1 _,
    ((shares_and_permits_balance _ 3 (by decide)).2.2.1 _ (.giveBack 1) 1 rfl).1⟩

end KeyQuorum.Session
