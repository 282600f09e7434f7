import KeyQuorum.Proofs.Sharing.Interpolation

/-!
Recovery is refused for the numbers of the shares, and for nothing else.

A number is bad where it stands if it is zero or occurs again further on, and the first place with
a bad number decides the error. A share has no weight just if its number stands at another place
too: as scalars different numbers are different, and no product of their differences is zero. So
without a bad number every share has its weight. The weights depend on which numbers there are,
and the sum not on the order of its terms.
-/

namespace KeyQuorum.Recovery

/-- The number at a place is zero, or occurs again further on. -/
def Bad (ids : List UInt16) (i : ℕ) : Prop :=
  ∃ id, ids[i]? = some id ∧ (id = 0 ∨ id ∈ ids.drop (i + 1))

/-- The first place with a bad number, and the number. -/
structure FirstBad (ids : List UInt16) (i : ℕ) (id : UInt16) : Prop where
  number : ids[i]? = some id
  bad : id = 0 ∨ id ∈ ids.drop (i + 1)
  first : ∀ j < i, ¬ Bad ids j

/-- The error that a bad number makes. -/
def fault (id : UInt16) : SharingError := if id = 0 then .invalidId else .duplicateId id

variable {ids : List UInt16} {id a : UInt16} {i : ℕ} {shares others : List (UInt16 × Scalar)}

/-! ### The first bad number -/

lemma bad_zero : Bad (a :: ids) 0 ↔ a = 0 ∨ a ∈ ids := by simp [Bad]

lemma bad_succ : Bad (a :: ids) (i + 1) ↔ Bad ids i := by simp [Bad]

lemma badId?_cons_of_not_bad (h : ¬ Bad (a :: ids) 0) : badId? (a :: ids) = badId? ids := by
  obtain ⟨hzero, hnew⟩ := not_or.mp (mt bad_zero.mpr h)
  rw [badId?, if_neg hzero, if_neg hnew]

lemma exists_firstBad (h : Bad ids i) : ∃ j id, FirstBad ids j id := by
  classical
  obtain ⟨id, hid, hbad⟩ := Nat.find_spec ⟨i, h⟩
  exact ⟨_, id, hid, hbad, fun j hj => Nat.find_min ⟨i, h⟩ hj⟩

/-- The first bad number makes the error. -/
theorem FirstBad.badId?_eq (h : FirstBad ids i id) : badId? ids = some (fault id) := by
  induction ids generalizing i with
  | nil => cases h.number
  | cons a ids ih =>
    cases i with
    | zero =>
      obtain rfl : a = id := Option.some.inj h.number
      have hbad : a = 0 ∨ a ∈ ids := h.bad
      unfold badId? fault
      split
      · rfl
      · next hzero => rw [if_pos (hbad.resolve_left hzero)]
    | succ i =>
      -- The first number is good, and so the first bad one is found among the others.
      rw [badId?_cons_of_not_bad (h.first 0 i.succ_pos)]
      exact ih ⟨h.number, h.bad, fun j hj =>
        mt bad_succ.mpr (h.first (j + 1) (Nat.succ_lt_succ hj))⟩

lemma nodup_of_not_bad (h : ∀ i, ¬ Bad ids i) : (∀ id ∈ ids, id ≠ 0) ∧ ids.Nodup := by
  induction ids with
  | nil => exact ⟨fun _ hid => absurd hid List.not_mem_nil, List.nodup_nil⟩
  | cons a ids ih =>
    obtain ⟨hzero, hnew⟩ := not_or.mp (mt bad_zero.mpr (h 0))
    obtain ⟨hzeros, hn⟩ := ih fun i => mt bad_succ.mpr (h (i + 1))
    exact ⟨List.forall_mem_cons.mpr ⟨hzero, hzeros⟩, List.nodup_cons.mpr ⟨hnew, hn⟩⟩

lemma not_bad_of_badId?_eq_none (h : badId? ids = none) (i : ℕ) : ¬ Bad ids i := by
  intro hbad
  obtain ⟨j, id, hfirst⟩ := exists_firstBad hbad
  rw [hfirst.badId?_eq] at h
  cases h

/-! ### What recovery comes to -/

lemma FirstBad.recover_eq (h : FirstBad (shares.map Prod.fst) i id) :
    recover shares = .error (fault id) := by
  have hne : shares ≠ [] := by
    rintro rfl
    cases h.number
  rw [recover, if_neg (by simpa using hne), h.badId?_eq]

lemma fault_ne (id : UInt16) : fault id ≠ .insufficientShares := by
  unfold fault
  split <;> nofun

lemma weight_perm {xs ys : List Scalar} (h : xs.Perm ys) : weight xs = weight ys := by
  funext x
  rw [weight, weight, List.toFinset_eq_of_perm xs ys h]

lemma recover_perm (hne : shares ≠ []) (hbad : ∀ i, ¬ Bad (shares.map Prod.fst) i)
    (h : others.Perm shares) : recover others = recover shares := by
  obtain ⟨hids, hn⟩ := nodup_of_not_bad hbad
  have hzero : ∀ s ∈ shares, s.1 ≠ 0 := fun s hs => hids _ (List.mem_map_of_mem hs)
  have hfst : (others.map Prod.fst).Perm (shares.map Prod.fst) := h.map _
  have hne' : others ≠ [] := fun hnil => hne (List.nil_perm.mp (hnil ▸ h))
  rw [recover_eq hne' (fun s hs => hzero s (h.mem_iff.mp hs)) (hfst.nodup_iff.mpr hn),
    recover_eq hne hzero hn, weight_perm (hfst.map _), (h.map _).sum_eq]

lemma recover_of_not_bad (hne : shares ≠ []) (hbad : ∀ i, ¬ Bad (shares.map Prod.fst) i) :
    ∃ v, recover shares = .ok v := by
  obtain ⟨hids, hn⟩ := nodup_of_not_bad hbad
  exact ⟨_, recover_eq hne (fun s hs => hids _ (List.mem_map_of_mem hs)) hn⟩

/-- Only of no shares at all there are too few. -/
lemma recover_eq_insufficient : recover shares = .error .insufficientShares ↔ shares = [] := by
  constructor
  · intro hfew
    by_contra hne
    by_cases hbad : ∃ i, Bad (shares.map Prod.fst) i
    · obtain ⟨i, hbad⟩ := hbad
      obtain ⟨j, id, hfirst⟩ := exists_firstBad hbad
      exact fault_ne id (Except.error.inj (hfirst.recover_eq.symm.trans hfew))
    · obtain ⟨v, hv⟩ := recover_of_not_bad hne (not_exists.mp hbad)
      cases hv.symm.trans hfew
  · rintro rfl
    rfl

/-- Just a number that stands at another place too leaves its share without a weight. -/
lemma weight?_ofId_eq_none : weight? (ids.map Scalar.ofId) i (Scalar.ofId id) = none ↔
    id ∈ ids.eraseIdx i := by
  rw [weight?_eq_none, List.eraseIdx_map, List.mem_map_of_injective ofId_injective]

lemma weightedSum?_of_badId? (h : badId? (shares.map Prod.fst) = none) :
    let points := shares.map fun s => (Scalar.ofId s.1, s.2)
    ∃ v, weightedSum? (points.map Prod.fst) 0 points = some v := by
  intro points
  have hids : (shares.map Prod.fst).Nodup := (nodup_of_not_bad (not_bad_of_badId?_eq_none h)).2
  have hn : (points.map Prod.fst).Nodup := by
    rw [map_fst_points]
    exact hids.map ofId_injective
  exact ⟨_, weightedSum?_eq hn List.drop_zero⟩

/-- **Recovery is refused for bad numbers only.** It wants for shares just if there are none; of
the bad numbers the first decides the error. A share lacks a weight just if its number stands at
another place too, so that without a bad number the sum of the weighted shares is never wanting:
a value is recovered, the same in every order of the shares. -/
theorem refused_for_numbers (shares : List (UInt16 × Scalar)) :
    let ids := shares.map Prod.fst
    let points := shares.map fun s => (Scalar.ofId s.1, s.2)
    (recover shares = .error .insufficientShares ↔ shares = []) ∧
      ((∃ i, Bad ids i) → ∃ i id, FirstBad ids i id ∧
        recover shares = .error (if id = 0 then .invalidId else .duplicateId id)) ∧
      (∀ j id, weight? (points.map Prod.fst) j (Scalar.ofId id) = none ↔ id ∈ ids.eraseIdx j) ∧
      (badId? ids = none → ∃ v, weightedSum? (points.map Prod.fst) 0 points = some v) ∧
      (shares ≠ [] → (∀ i, ¬ Bad ids i) →
        ∃ v, recover shares = .ok v ∧ ∀ others, others.Perm shares → recover others = .ok v) := by
  intro ids points
  refine ⟨recover_eq_insufficient, fun ⟨i, hbad⟩ => ?_, fun j id => ?_, weightedSum?_of_badId?,
    fun hne hbad => ?_⟩
  · obtain ⟨j, id, hfirst⟩ := exists_firstBad hbad
    exact ⟨j, id, hfirst, hfirst.recover_eq⟩
  · rw [map_fst_points]
    exact weight?_ofId_eq_none
  · obtain ⟨v, hv⟩ := recover_of_not_bad hne hbad
    exact ⟨v, hv, fun others hperm => (recover_perm hne hbad hperm).trans hv⟩

/-- Two shares of different numbers are recovered in any order; a repeated number is refused, and
has no weight. -/
theorem repeated_number_refused :
    (∃ v, recover [(1, 2), (2, 4)] = .ok v ∧
      ∀ others, others.Perm [(1, 2), (2, 4)] → recover others = .ok v) ∧
    weight? [3, 1, 0, 1] 1 1 = none ∧
    ∃ i id, FirstBad [3, 1, 0, 1] i id ∧
      recover [(3, 5), (1, 2), (0, 9), (1, 4)] =
        .error (if id = 0 then .invalidId else .duplicateId id) := by
  have hgood : ∀ i, ¬ Bad [1, 2] i := not_bad_of_badId?_eq_none (by decide)
  have hbad : Bad [3, 1, 0, 1] 1 := ⟨1, rfl, .inr (by decide)⟩
  obtain ⟨-, -, -, -, hrecovered⟩ := refused_for_numbers [(1, 2), (2, 4)]
  obtain ⟨-, hrefused, hweight, -⟩ := refused_for_numbers [(3, 5), (1, 2), (0, 9), (1, 4)]
  exact ⟨hrecovered (List.cons_ne_nil _ _) hgood, (hweight 1 1).mpr (by decide),
    hrefused ⟨1, hbad⟩⟩

/-- A repeated number before a zero decides. -/
example : recover [(3, 5), (1, 2), (0, 9), (1, 4)] = .error (.duplicateId 1) := by decide

end KeyQuorum.Recovery
