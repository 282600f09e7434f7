import KeyQuorum.Proofs.Distribution.Abort

/-!
No share in the pool carries progress.

The progress has an entry for each share, and whoever mines for a share writes its entry. An
attempt that gives up on a share it has begun to prepare clears the entry before the share goes
back to the pool. So the entries of the pool are zero, and since no two attempts have shares of one
number, nobody writes or clears the entry of another.
-/

namespace KeyQuorum

/-- Whether an attempt that ends so clears the entry of its share. -/
def Ending.clears : Ending → Bool
  | .abandoned | .failed _ => true
  | _ => false

@[simp] lemma Progress.length_set (p : Progress) (entry difficulty : Nat) :
    (p.set entry difficulty).best.length = p.best.length :=
  List.length_set

lemma Progress.getElem?_set_of_ne {entry e : Nat} (h : entry ≠ e) (p : Progress)
    (difficulty : Nat) : (p.set entry difficulty).best[e]? = p.best[e]? :=
  List.getElem?_set_ne h

namespace Run

variable {dealer : KeyPair} {settings : Settings} {request : Request} {now : Timestamp}
  {shares : List KeyShare} {entropy : Entropy} {r₀ r r' m : Run} {x : Stimulus} {i : Nat}
  {a : Attempt} {s : KeyShare}

/-! ### What a stimulus does to the entries -/

/-- A stimulus other than a report leaves the entries as they are and brings no share to the pool,
or it ends an attempt, which clears the entry of the share that it has or has just been given. -/
inductive Clears (r : Run) (x : Stimulus) (r' : Run) : Prop where
  | keep (hprogress : r'.progress = r.progress) (hpool : r'.admission.pool ⊆ r.admission.pool)
  | clear {i : Nat} {k : PublicKey} {s : KeyShare} {how : Ending} (hx : x.attempt? = some i)
      (hs : (i, s) ∈ r.admission.held ∨ s ∈ r.admission.pool)
      (hended : r'.attempts[i]? = some ⟨k, .ended how⟩) (hhow : how.clears = true)
      (hprogress : r'.progress = r.progress.set (entry s) 0)
      (hpool : r'.admission.pool ⊆ s :: r.admission.pool) : Clears r x r'

/-- In the middle of a stimulus: an attempt has a share in hand, and no entry is touched yet. -/
structure InHand (r : Run) (i : Nat) (a : Attempt) (s : KeyShare) (m : Run) : Prop where
  had : (i, s) ∈ r.admission.held ∨ s ∈ r.admission.pool
  attempt : m.attempts[i]? = some a
  held : m.admission.held.lookup i = some s
  progress : m.progress = r.progress
  pool : m.admission.pool ⊆ r.admission.pool

lemma append_subset (h : m.admission.pool ⊆ r.admission.pool) :
    m.admission.pool ++ [s] ⊆ s :: r.admission.pool := by
  refine List.append_subset.mpr ⟨fun _ ht => List.mem_cons_of_mem _ (h ht), ?_⟩
  exact List.cons_subset.mpr ⟨List.mem_cons_self, List.nil_subset _⟩

namespace InHand

lemma aside (h : r.InHand i a s m) (entropy : Entropy) (turn : Permits) :
    r.InHand i a s { m with entropy, turn } :=
  ⟨h.had, h.attempt, h.held, h.progress, h.pool⟩

lemma setPhase (h : r.InHand i a s m) (q : Phase) :
    r.InHand i ⟨a.signer, q⟩ s (m.setPhase i q) :=
  ⟨h.had, getElem?_setPhase h.attempt q, h.held, h.progress, h.pool⟩

lemma fail (h : r.InHand i a s m) (hx : x.attempt? = some i) (k : PublicKey)
    (e : DistributionError) : r.Clears x (m.fail i k s e).1 := by
  refine .clear hx h.had (getElem?_setPhase h.attempt _) rfl ?_ ?_
  · exact congrArg (·.set (entry s) 0) h.progress
  · show (m.admission.fail i).2.pool ⊆ _
    rw [Admission.pool_fail, h.held]
    exact append_subset h.pool

lemma awaitTurn (h : r.InHand i a s m) (hx : x.attempt? = some i) (draft : Draft) :
    r.Clears x (m.awaitTurn i s draft).1 := by
  unfold Run.awaitTurn useTurn
  split
  · split
    · -- an abort: the share goes back, and the attempt clears its entry before
      refine .clear hx h.had (getElem?_setPhase h.attempt (.ended .abandoned)) rfl ?_ ?_
      · exact congrArg (·.set (entry s) 0) h.progress
      · show (m.admission.giveBack i).pool ⊆ _
        rw [Admission.pool_giveBack, h.held]
        exact append_subset h.pool
    · exact .keep h.progress h.pool
  · exact .keep h.progress h.pool

lemma prepare (h : r.InHand i a s m) (hx : x.attempt? = some i) (hs : s ∈ r.admission.pool)
    (k : PublicKey) : r.Clears x (m.prepare i k s).1 := by
  unfold Run.prepare
  split
  · refine .keep h.progress ?_
    show (m.admission.giveBack i).pool ⊆ _
    rw [Admission.pool_giveBack, h.held]
    exact List.append_subset.mpr ⟨h.pool, List.cons_subset.mpr ⟨hs, List.nil_subset _⟩⟩
  · simp only
    split
    · exact (h.aside _ _).fail hx k _
    · exact ((h.aside _ _).setPhase _).awaitTurn hx _

lemma minerDone (h : r.InHand i a s m) (hx : x.attempt? = some i) (k : PublicKey)
    (result : Except MessageError Draft) : r.Clears x (m.minerDone i k s result).1 := by
  unfold Run.minerDone send
  cases result with
  | error e => exact (h.aside _ _).fail hx k _
  | ok mined =>
    simp only
    split
    · exact (h.aside _ _).fail hx k _
    · exact .keep h.progress h.pool

lemma deliver (h : r.InHand i a s m) (hx : x.attempt? = some i) (k : PublicKey) (d : Delivery)
    (input : Delivery.Input) : r.Clears x (m.deliver i k s d input).1 := by
  unfold Run.deliver
  simp only
  split
  · exact .keep h.progress h.pool
  · refine .keep h.progress ?_
    show (m.admission.accept i _).2.pool ⊆ _
    rw [Admission.pool_accept]
    exact h.pool
  · exact h.fail hx k _

end InHand

lemma Clears.still (r : Run) (x : Stimulus) : r.Clears x r := .keep rfl (List.Subset.refl _)

lemma awaitShare_clears (hx : x.attempt? = some i) (ha : m.attempts[i]? = some a)
    (hfree : i ∉ m.admission.held.map Prod.fst) (hprogress : m.progress = r.progress)
    (hpool : m.admission.pool = r.admission.pool) (k : PublicKey) :
    r.Clears x (m.awaitShare i k).1 := by
  have hfill := Admission.pool_resume m.admission i i
  unfold awaitShare
  split
  · next s admission hr =>
    rw [hr, hpool] at hfill
    have hs : s ∈ r.admission.pool := hfill ▸ List.mem_cons_self
    -- The attempt had no slot before, so that the one it has now has this share.
    have hlookup : admission.held.lookup i = some s := by
      have hnone : m.admission.held.lookup i = none := by
        refine List.lookup_eq_none_iff.mpr fun p hp => ?_
        simpa using fun hi : i = p.1 => hfree (hi ▸ List.mem_map_of_mem hp)
      rw [(Admission.resume_eq_share hr).2, List.lookup_append, hnone]
      simp
    have hinHand : r.InHand i a s { m with admission } :=
      ⟨.inr hs, ha, hlookup, hprogress, hfill ▸ List.subset_cons_self s _⟩
    exact hinHand.prepare hx hs k
  · next admission hr =>
    rw [hr, hpool] at hfill
    exact .keep hprogress (hfill ▸ List.Subset.refl _)
  · exact .keep hprogress (hpool ▸ List.Subset.refl _)

lemma inHand (h : r.floor.Sound) (ha : r.attempts[i]? = some a)
    (hs : a.phase.standing.share? = some s) : r.InHand i a s r := by
  have hstanding := standings_of_attempt ha
  have hheld : (i, s) ∈ r.admission.held := (h.holds i s).mpr ⟨_, hstanding, hs⟩
  exact ⟨.inl hheld, ha, h.holds.lookup h.accounts.slots hstanding hs, rfl, List.Subset.refl _⟩

lemma stepAttempt_clears (h : r.floor.Sound) (ha : r.attempts[i]? = some a)
    (hx : x.attempt? = some i) (hwork : ∀ difficulty, x ≠ .work i difficulty) :
    r.Clears x (r.stepAttempt i a x).1 := by
  have hstanding := standings_of_attempt ha
  cases x with
  | advance j =>
    cases hp : a.phase with
    | idle =>
      -- An attempt that has not claimed yet holds nothing.
      have hfree := h.holds.notMem hstanding (hp ▸ rfl)
      simp only [stepAttempt, hp]
      let m : Run := { r with admission := r.admission.wait i }
      exact awaitShare_clears (r := r) (m := m.setPhase i .queued) hx
        (getElem?_setPhase (r := m) ha .queued) hfree rfl rfl a.signer
    | queued =>
      have hfree := h.holds.notMem hstanding (hp ▸ rfl)
      simp only [stepAttempt, hp]
      exact awaitShare_clears hx ha hfree rfl rfl a.signer
    | ready s draft =>
      simp only [stepAttempt, hp]
      exact (inHand h ha (hp ▸ rfl)).awaitTurn hx draft
    | _ => simp only [stepAttempt, hp]; exact .still r _
  | work j difficulty =>
    obtain rfl := Option.some.inj hx
    exact absurd rfl (hwork difficulty)
  | mined j result =>
    cases hp : a.phase with
    | mining s draft =>
      simp only [stepAttempt, hp]
      exact (inHand h ha (hp ▸ rfl)).minerDone hx a.signer result
    | _ => simp only [stepAttempt, hp]; exact .still r _
  | hear j input =>
    cases hp : a.phase with
    | delivering s d =>
      simp only [stepAttempt, hp]
      exact (inHand h ha (hp ▸ rfl)).deliver hx a.signer d input
    | _ => simp only [stepAttempt, hp]; exact .still r _
  | _ => cases hx

/-- **What a stimulus other than a report does to the entries.** -/
theorem step_clears (h : r.floor.Sound) (hwork : ∀ i difficulty, x ≠ .work i difficulty) :
    r.Clears x (r.step x).1 := by
  cases r.step_effect x with
  | attempt hm _ hx ha =>
    rw [hm]
    exact stepAttempt_clears h ha hx (hwork _)
  | conclude hm =>
    obtain ⟨entropy, stage, hannounce⟩ := r.exists_announce _
    rw [hm, hannounce]
    exact .keep rfl (List.Subset.refl _)
  | short hm | taken hm | refused hm | unanswered hm =>
    rw [hm]
    exact .keep rfl (List.Subset.refl _)
  | nothing hm =>
    rw [hm]
    exact .still r _

/-! ### Reports -/

lemma step_work (hstage : r.stage = .delivering) {k : PublicKey} {draft : Draft}
    (ha : r.attempts[i]? = some ⟨k, .mining s draft⟩) (difficulty : Nat) :
    (r.step (.work i difficulty)).1 =
      { r with progress := r.progress.set (entry s) difficulty } := by
  rw [step_attempt hstage ha (.work i difficulty) rfl]
  rfl

lemma step_work_of_not_mining (h : ∀ k s draft, r.attempts[i]? ≠ some ⟨k, .mining s draft⟩)
    (difficulty : Nat) : (r.step (.work i difficulty)).1 = r := by
  cases r.step_effect (.work i difficulty) with
  | @attempt j a hm _ hx ha =>
    obtain rfl := Option.some.inj hx
    obtain ⟨k, p⟩ := a
    rw [hm]
    cases p with
    | mining s draft => exact absurd ha (h k s draft)
    | _ => rfl
  | conclude _ _ hx | short _ _ hx | taken _ _ hx | refused _ _ hx | unanswered _ _ hx => cases hx
  | nothing hm => rw [hm]

/-! ### Entries that are in nobody's hands -/

/-- The shares that are not placed have entries of their own, and those in the pool are zero. -/
structure Fresh (r : Run) : Prop where
  apart : (r.admission.unplaced.map entry).Nodup
  within : ∀ s ∈ r.admission.unplaced, entry s < r.progress.best.length
  clean : ∀ s ∈ r.admission.pool, r.progress.best[entry s]? = some 0

namespace Fresh

lemma entry_ne_of_pool (h : r.Fresh) (hs : s ∈ r.admission.pool) {j : Nat} {t : KeyShare}
    (ht : (j, t) ∈ r.admission.held) : entry t ≠ entry s := by
  have hapart := h.apart
  rw [Admission.unplaced, List.map_append, List.map_map, List.nodup_append] at hapart
  exact (hapart.2.2 _ (List.mem_map_of_mem hs) _ (List.mem_map_of_mem ht)).symm

lemma entry_ne_of_held (h : r.Fresh) (hs : (i, s) ∈ r.admission.held) {j : Nat} {t : KeyShare}
    (ht : (j, t) ∈ r.admission.held) (hij : j ≠ i) : entry t ≠ entry s := by
  have hapart := h.apart
  rw [Admission.unplaced, List.map_append, List.map_map] at hapart
  intro heq
  have hsame : (j, t) = (i, s) :=
    List.inj_on_of_nodup_map (List.nodup_append.mp hapart).2.1 ht hs heq
  exact hij (Prod.mk.inj hsame).1

lemma mem_unplaced (hs : (i, s) ∈ r.admission.held ∨ s ∈ r.admission.pool) :
    s ∈ r.admission.unplaced := by
  rw [Admission.unplaced, List.mem_append]
  exact hs.symm.imp_right fun hs => List.mem_map_of_mem hs

lemma clears (h : r.Fresh) (hc : r.Clears x r') :
    r'.progress.best.length = r.progress.best.length ∧
      ∀ t ∈ r'.admission.pool, r'.progress.best[entry t]? = some 0 := by
  cases hc with
  | keep hprogress hpool =>
    rw [hprogress]
    exact ⟨rfl, fun t ht => h.clean t (hpool ht)⟩
  | @clear i k s how hx hs hended hhow hprogress hpool =>
    rw [hprogress]
    have hin := h.within s (mem_unplaced hs)
    have hcleared : (r.progress.set (entry s) 0).best[entry s]? = some 0 :=
      List.getElem?_set_self hin
    refine ⟨Progress.length_set _ _ _, fun t ht => ?_⟩
    -- The entry that is cleared is zero now, and the others are as they were.
    by_cases hentry : entry s = entry t
    · exact hentry ▸ hcleared
    · rw [Progress.getElem?_set_of_ne hentry]
      rcases List.mem_cons.mp (hpool ht) with rfl | ht
      · exact absurd rfl hentry
      · exact h.clean t ht

lemma step (h : r.Fresh) (hu : Underway request r) (x : Stimulus) : (r.step x).1.Fresh := by
  have hperm := (recorded_step hu.sound x).2
  -- Shares only leave those that are not placed, so that their entries stay apart.
  suffices hnext : (r.step x).1.progress.best.length = r.progress.best.length ∧
      ∀ t ∈ (r.step x).1.admission.pool, (r.step x).1.progress.best[entry t]? = some 0 by
    refine ⟨?_, fun t ht => ?_, hnext.2⟩
    · have hapart := (hperm.map entry).nodup_iff.mp h.apart
      rw [List.map_append] at hapart
      exact (List.nodup_append.mp hapart).2.1
    · exact hnext.1 ▸ h.within t (hperm.mem_iff.mpr (List.mem_append_right _ ht))
  by_cases hwork : ∃ i difficulty, x = .work i difficulty
  · obtain ⟨i, difficulty, rfl⟩ := hwork
    by_cases hmines : ∃ k s draft, r.attempts[i]? = some ⟨k, .mining s draft⟩
    · obtain ⟨k, s, draft, ha⟩ := hmines
      have hheld : (i, s) ∈ r.admission.held :=
        (hu.sound.holds i s).mpr ⟨_, standings_of_attempt ha, rfl⟩
      rw [step_work (hu.settled.delivering ha rfl) ha]
      refine ⟨Progress.length_set _ _ _, fun t ht => ?_⟩
      -- whoever mines has its share, so the pool has none of that entry
      rw [Progress.getElem?_set_of_ne (h.entry_ne_of_pool ht hheld)]
      exact h.clean t ht
    · rw [step_work_of_not_mining fun k s draft ha => hmines ⟨k, s, draft, ha⟩]
      exact ⟨rfl, h.clean⟩
  · exact h.clears (step_clears hu.sound fun i difficulty hx => hwork ⟨i, difficulty, hx⟩)

end Fresh

lemma fresh_start (h : start dealer settings request now shares entropy = .ok r)
    (hids : (shares.map (·.id.toNat)).Perm (List.range' 1 shares.length)) : r.Fresh := by
  obtain ⟨-, hlen, -, -, hfloor⟩ := start_eq_ok h
  have hadmission : r.admission = Admission.start shares request.candidates.eraseDups.length :=
    congrArg Floor.admission hfloor
  have hprogress : r.progress = Progress.start request.difficulty shares.length := by
    obtain ⟨-, -, -, -, rfl⟩ := start_eq_ok_iff.mp h
    rw [hlen]
  -- Numbers from one on make entries from zero on, each once.
  have hentries : (shares.map entry).Perm (List.range shares.length) := by
    have hpred := hids.map (· - 1)
    rwa [List.map_map, List.map_sub_range' (h := Nat.le_refl 1), Nat.sub_self,
      ← List.range_eq_range'] at hpred
  have hwithin : ∀ s ∈ shares, entry s < shares.length := fun s hs =>
    List.mem_range.mp (hentries.subset (List.mem_map_of_mem hs))
  refine ⟨?_, fun s hs => ?_, fun s hs => ?_⟩
  · rw [hadmission, Admission.unplaced_start]
    exact hentries.nodup_iff.mpr List.nodup_range
  · rw [hadmission, Admission.unplaced_start] at hs
    rw [hprogress, Progress.start, List.length_replicate]
    exact hwithin s hs
  · rw [hadmission] at hs
    rw [hprogress, Progress.start, List.getElem?_replicate, if_pos (hwithin s hs)]

lemma fresh_steps (h : start dealer settings request now shares entropy = .ok r₀)
    (hids : (shares.map (·.id.toNat)).Perm (List.range' 1 shares.length)) (xs : List Stimulus) :
    (r₀.steps xs).1.Fresh := by
  induction xs using List.reverseRecOn with
  | nil => exact fresh_start h hids
  | append_singleton xs x ih =>
    rw [steps_append]
    exact ih.step (underway_steps h xs) x

/-! ### Every run -/

/-- The entries of a run at a time, and at whatever happens next. -/
structure Tracked (r : Run) : Prop where
  pool : ∀ s ∈ r.admission.pool, r.progress.best[entry s]? = some 0
  /-- A report for an attempt that mines sets the entry of the share it has, and any other report
  does nothing. -/
  report : ∀ i difficulty,
    (∀ k s draft, r.attempts[i]? = some ⟨k, .mining s draft⟩ → (i, s) ∈ r.admission.held ∧
      (r.step (.work i difficulty)).1 =
        { r with progress := r.progress.set (entry s) difficulty }) ∧
    ((∀ k s draft, r.attempts[i]? ≠ some ⟨k, .mining s draft⟩) →
      (r.step (.work i difficulty)).1 = r)
  /-- Whatever else happens leaves the entries as they are, or it ends an attempt and clears the
  entry of its share, which is not the entry of a share that another attempt has. -/
  reset : ∀ x, (∀ i difficulty, x ≠ .work i difficulty) →
    (r.step x).1.progress = r.progress ∨
    ∃ i k s how, x.attempt? = some i ∧ ((i, s) ∈ r.admission.held ∨ s ∈ r.admission.pool) ∧
      (r.step x).1.attempts[i]? = some ⟨k, .ended how⟩ ∧ how.clears = true ∧
      (r.step x).1.progress = r.progress.set (entry s) 0 ∧
      ∀ j t, (j, t) ∈ r.admission.held → j ≠ i → entry t ≠ entry s ∧
        (r.step x).1.progress.best[entry t]? = r.progress.best[entry t]?

/-- **A share in the pool carries no progress**, whatever has happened in whatever order: its entry
is zero. Reports set the entry of the share that is mined, and nobody clears the entry of a share
that another attempt has. -/
theorem pooled_shares_carry_no_progress
    (hstart : start dealer settings request now shares entropy = .ok r₀)
    (hids : (shares.map (·.id.toNat)).Perm (List.range' 1 shares.length)) (xs : List Stimulus) :
    (r₀.steps xs).1.Tracked := by
  have hu := underway_steps hstart xs
  have hfresh := fresh_steps hstart hids xs
  refine ⟨hfresh.clean, fun i difficulty => ⟨fun k s draft ha => ⟨?_, ?_⟩, fun hnot => ?_⟩,
    fun x hx => ?_⟩
  · exact (hu.sound.holds i s).mpr ⟨_, standings_of_attempt ha, rfl⟩
  · exact step_work (hu.settled.delivering ha rfl) ha difficulty
  · exact step_work_of_not_mining hnot difficulty
  · cases step_clears hu.sound hx with
    | keep hprogress => exact .inl hprogress
    | @clear i k s how hi hs hended hhow hprogress =>
      refine .inr ⟨i, k, s, how, hi, hs, hended, hhow, hprogress, fun j t ht hij => ?_⟩
      have hne : entry t ≠ entry s :=
        hs.elim (fun hs => hfresh.entry_ne_of_held hs ht hij) (hfresh.entry_ne_of_pool · ht)
      exact ⟨hne, hprogress ▸ Progress.getElem?_set_of_ne hne.symm _ _⟩

/-- The miner fails the first candidate after it has reported, while the second waits for it. -/
theorem stopped_share_carries_no_progress :
    let reported : List Stimulus := [.advance 0, .advance 1, .work 0 5]
    let failed : List Stimulus := reported ++ [.mined 0 (.error (.mining "stopped"))]
    start dealerKeys {} twoForTwo 0 twoShares (.ofBlocks [] .counting) = .ok twoForTwoRun ∧
      (twoForTwoRun.steps reported).1.progress.best = [5, 0] ∧
      (twoForTwoRun.steps failed).1.admission.pool.map (·.id.toNat) = [1] ∧
      (twoForTwoRun.steps failed).1.Tracked := by
  intro reported failed
  have hids : (twoShares.map (·.id.toNat)).Perm (List.range' 1 twoShares.length) := by decide
  have hcleared : (twoForTwoRun.steps reported).1.progress.best = [5, 0] ∧
      (twoForTwoRun.steps failed).1.admission.pool.map (·.id.toNat) = [1] := by
    decide +kernel
  exact ⟨start_twoForTwo, hcleared.1, hcleared.2,
    pooled_shares_carry_no_progress start_twoForTwo hids failed⟩

end Run

end KeyQuorum
