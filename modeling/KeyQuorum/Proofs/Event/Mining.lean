import KeyQuorum.Event.Work
import KeyQuorum.Proofs.Event.Spelled

/-!
What mining finds and what it reports.

The search runs over the nonces in order, with the highest difficulty so far at hand. So it stops
at the first nonce that is sufficient, and what it has reported by then are the new heights that
the difficulty rose to on the way, the last of them cut down to the aim. Which ids are difficult
is up to the hash; nothing here depends on it.
-/

namespace KeyQuorum.Work

/-! ### The heights of a sequence -/

section Heights

variable {f : Nat → Nat} {k n v aim : Nat}

/-- The highest of the first values of a sequence. -/
def peak (f : Nat → Nat) : Nat → Nat
  | 0 => 0
  | n + 1 => max (peak f n) (f n)

/-- The positive values among the first of a sequence that are above all before them. -/
def heights (f : Nat → Nat) (n : Nat) : List Nat :=
  ((List.range n).filter fun k => decide (0 < f k ∧ ∀ j < k, f j < f k)).map f

lemma peak_lt_iff : peak f n < v ↔ 0 < v ∧ ∀ j < n, f j < v := by
  induction n with
  | zero => simp [peak]
  | succ n ih =>
    rw [peak, Nat.max_lt, ih, Nat.forall_lt_succ_right, and_assoc]

lemma heights_succ (f : Nat → Nat) (n : Nat) :
    heights f (n + 1) = heights f n ++ if peak f n < f n then [f n] else [] := by
  rw [heights, heights, List.range_succ, List.filter_append, List.map_append, List.filter_singleton]
  simp only [peak_lt_iff, Bool.cond_decide]
  split <;> rfl

lemma lt_of_mem_heights (h : ∀ j < n, f j < v) : ∀ x ∈ heights f n, x < v := by
  intro x hx
  obtain ⟨k, hk, rfl⟩ := List.mem_map.mp hx
  exact h k (List.mem_range.mp (List.mem_filter.mp hk).1)

lemma pairwise_heights (f : Nat → Nat) (n : Nat) : (heights f n).Pairwise (· < ·) := by
  induction n with
  | zero => exact .nil
  | succ n ih =>
    rw [heights_succ]
    split
    · next hpeak =>
      refine List.pairwise_append.mpr ⟨ih, List.pairwise_singleton _ _, fun x hx y hy => ?_⟩
      rw [List.mem_singleton.mp hy]
      exact lt_of_mem_heights (peak_lt_iff.mp hpeak).2 x hx
    · rwa [List.append_nil]

lemma map_heights_of_lt (h : ∀ j < n, f j < aim) :
    (heights f n).map (min · aim) = heights f n := by
  refine (List.map_congr_left fun x hx => ?_).trans (List.map_id _)
  exact Nat.min_eq_left (lt_of_mem_heights h x hx).le

/-- Where the aim is first reached, only the last height is cut down, and to the aim. -/
lemma map_heights_succ (hfirst : ∀ j < k, f j < aim) (hreached : aim ≤ f k) :
    (heights f (k + 1)).map (min · aim) =
      heights f k ++ if peak f k < f k then [aim] else [] := by
  rw [heights_succ, List.map_append, map_heights_of_lt hfirst]
  split
  · rw [List.map_singleton, Nat.min_eq_right hreached]
  · rfl

lemma peak_lt_of_first (hpos : 1 ≤ aim) (hfirst : ∀ j < k, f j < aim) (hreached : aim ≤ f k) :
    peak f k < f k :=
  peak_lt_iff.mpr ⟨by omega, fun j hj => (hfirst j hj).trans_le hreached⟩

lemma pairwise_map_heights (hfirst : ∀ j < k, f j < aim) (hreached : aim ≤ f k) :
    ((heights f (k + 1)).map (min · aim)).Pairwise (· < ·) := by
  rw [map_heights_succ hfirst hreached]
  refine List.pairwise_append.mpr ⟨pairwise_heights f k, ?_, fun x hx y hy => ?_⟩
  · split
    · exact List.pairwise_singleton _ _
    · exact .nil
  · split at hy
    · rw [List.mem_singleton.mp hy]
      exact lt_of_mem_heights hfirst x hx
    · cases hy

end Heights

/-! ### The search -/

variable {d : Draft} {aim count n : Nat} {m : Mined}

/-- The difficulty that a draft gets with a nonce. -/
def achieved (d : Draft) (aim nonce : Nat) : Nat := difficulty (stamp (unworked d) aim nonce).id

/-- The search goes on from a nonce when none before it is sufficient. It has the peak at hand and
has reported the heights. -/
lemma search_eq_some_iff (hlow : ∀ j < n, achieved d aim j < aim) :
    search (unworked d) aim count n (peak (achieved d aim) n)
        ((heights (achieved d aim) n).map (min · aim)).reverse = some m ↔
      ∃ k, n ≤ k ∧ k < n + count ∧ aim ≤ achieved d aim k ∧ (∀ j < k, achieved d aim j < aim) ∧
        m = ⟨stamp (unworked d) aim k, (heights (achieved d aim) (k + 1)).map (min · aim)⟩ := by
  -- By induction on the nonces left; what was reported goes along with the place.
  induction count generalizing n with
  | zero => exact iff_of_false nofun fun ⟨k, hle, hlt, _⟩ => by omega
  | succ count ih =>
    have hreports : (if difficulty (stamp (unworked d) aim n).id > peak (achieved d aim) n then
          min (difficulty (stamp (unworked d) aim n).id) aim ::
            ((heights (achieved d aim) n).map (min · aim)).reverse
        else ((heights (achieved d aim) n).map (min · aim)).reverse) =
        ((heights (achieved d aim) (n + 1)).map (min · aim)).reverse := by
      rw [heights_succ, List.map_append, List.reverse_append]
      show (if peak (achieved d aim) n < achieved d aim n then _ else _) = _
      split <;> rfl
    rw [search]
    simp only [hreports]
    split
    · next henough =>
      rw [Option.some.injEq, List.reverse_reverse]
      constructor
      · rintro rfl
        exact ⟨n, Nat.le_refl n, by omega, henough, hlow, rfl⟩
      · rintro ⟨k, hle, -, -, hfirst, rfl⟩
        obtain rfl : k = n := by
          by_contra hne
          exact absurd henough (Nat.not_le.mpr (hfirst n (by omega)))
        rfl
    · next hshort =>
      have hnext : ∀ j < n + 1, achieved d aim j < aim :=
        Nat.forall_lt_succ_right.mpr ⟨hlow, Nat.not_le.mp hshort⟩
      refine (ih hnext).trans ⟨?_, ?_⟩
      · rintro ⟨k, hle, hlt, hk⟩
        exact ⟨k, by omega, by omega, hk⟩
      · rintro ⟨k, hle, hlt, henough, hk⟩
        -- The first sufficient nonce is not this one, so it is found by the rest of the search.
        have hne : k ≠ n := fun h => hshort (h ▸ henough)
        exact ⟨k, by omega, by omega, henough, hk⟩

/-- What mining finds: the draft with the first nonce that is sufficient, and the heights up to
there, of which the last is cut down to the aim. -/
structure Finds (d : Draft) (aim : Nat) (m : Mined) (k : Nat) : Prop where
  nonce_lt : k < UInt64.size
  draft : m.draft = { d with tags :=
    (d.tags.filter fun t => !Tag.named "nonce" t) ++ [["nonce", toString k, toString aim]] }
  sufficient : aim ≤ difficulty m.draft.id
  first : ∀ j < k, achieved d aim j < aim
  reports : m.reports = (heights (achieved d aim) (k + 1)).map (min · aim)
  uncut : ∀ x ∈ heights (achieved d aim) k, x < aim
  rising : m.reports.Pairwise (· < ·)
  bounded : ∀ x ∈ m.reports, x ≤ aim
  last : 1 ≤ aim → m.reports.getLast? = some aim
  again : mine m.draft aim = .ok m

lemma mine_of_gt (h : 256 < aim) :
    mine d aim = .error (.mining ("difficulty " ++ toString aim ++ " exceeds 256")) :=
  if_pos h

lemma mine_eq_ok_iff : mine d aim = .ok m ↔ aim ≤ 256 ∧ ∃ k < UInt64.size,
    aim ≤ achieved d aim k ∧ (∀ j < k, achieved d aim j < aim) ∧
      m = ⟨stamp (unworked d) aim k, (heights (achieved d aim) (k + 1)).map (min · aim)⟩ := by
  have hsearch : search (unworked d) aim UInt64.size 0 0 [] = some m ↔ _ :=
    search_eq_some_iff nofun
  simp only [Nat.zero_le, Nat.zero_add, true_and] at hsearch
  -- The search starts with nothing reported, and so with the peak of no values.
  rw [← hsearch]
  unfold mine
  split
  · next hgt => exact iff_of_false nofun fun h => absurd h.1 (Nat.not_le.mpr hgt)
  · next hle =>
    refine Iff.trans ?_ (and_iff_right (Nat.not_lt.mp hle)).symm
    split
    · next found hfound => rw [hfound, Except.ok.injEq, Option.some.injEq]
    · next hnone => rw [hnone]; exact iff_of_false nofun nofun

lemma exists_mine_iff :
    (∃ m, mine d aim = .ok m) ↔ aim ≤ 256 ∧ ∃ k < UInt64.size, aim ≤ achieved d aim k := by
  simp only [mine_eq_ok_iff]
  constructor
  · rintro ⟨m, hle, k, hlt, henough, -⟩
    exact ⟨hle, k, hlt, henough⟩
  · rintro ⟨hle, hex⟩
    have hfind := Nat.find_spec hex
    refine ⟨_, hle, Nat.find hex, hfind.1, hfind.2, fun j hj => ?_, rfl⟩
    have hnot := Nat.find_min hex hj
    exact Nat.not_le.mp fun h => hnot ⟨hj.trans hfind.1, h⟩

/-- The work done before leaves no trace. -/
lemma unworked_stamp (d : Draft) (aim nonce : Nat) :
    unworked (stamp (unworked d) aim nonce) = unworked d := by
  simp [unworked, stamp, List.filter_append, Tag.named]

lemma mine_congr {d' : Draft} (h : unworked d' = unworked d) : mine d' aim = mine d aim := by
  rw [mine, mine, h]

lemma exists_finds (h : mine d aim = .ok m) : ∃ k, Finds d aim m k := by
  have hmine := h
  obtain ⟨-, k, hlt, henough, hfirst, rfl⟩ := mine_eq_ok_iff.mp h
  refine ⟨k, hlt, rfl, henough, hfirst, rfl, lt_of_mem_heights hfirst,
    pairwise_map_heights hfirst henough, fun x hx => ?bounded, fun hpos => ?last, ?again⟩
  case bounded =>
    obtain ⟨y, -, rfl⟩ := List.mem_map.mp hx
    exact Nat.min_le_right y aim
  case last =>
    rw [map_heights_succ hfirst henough, if_pos (peak_lt_of_first hpos hfirst henough),
      List.getLast?_concat]
  case again => rw [mine_congr (unworked_stamp d aim k), hmine]

/-- **Mining finds the first nonce that is sufficient.** It succeeds just if there is one and the
aim is no more than all the bits of an id. The draft found has this nonce in place of all the work
done before, the reports are the heights on the way, rising and never above the aim, and mining the
draft again finds it again. -/
theorem mines_first (d : Draft) (aim : Nat) :
    (256 < aim →
      mine d aim = .error (.mining ("difficulty " ++ toString aim ++ " exceeds 256"))) ∧
    ((∃ m, mine d aim = .ok m) ↔ aim ≤ 256 ∧ ∃ k < UInt64.size, aim ≤ achieved d aim k) ∧
    ∀ m, mine d aim = .ok m → ∃ k, Finds d aim m k :=
  ⟨mine_of_gt, exists_mine_iff, fun _ => exists_finds⟩

def reworked : Draft :=
  ⟨KeyPair.one.publicKey, 7376, 1, [["nonce", "5", "6"], ["p", "x"], ["nonce"]], ""⟩

def attempt (nonce : Nat) : Draft.Spelled where
  author := KeyPair.one.publicKey
  createdAt := 7376
  kind := 1
  tags := [[.letters "p".toList, .letters "x".toList],
    [.letters "nonce".toList, .letters (toString nonce).toList, .letters (toString 6).toList]]
  content := .letters []

lemma achieved_reworked (nonce : Nat) :
    achieved reworked 6 nonce = difficulty (attempt nonce).message.hash := by
  have hdraft : stamp (unworked reworked) 6 nonce = (attempt nonce).draft := by
    simp only [Draft.Spelled.draft, attempt, List.map_cons, List.map_nil, Spelling.text_letters,
      String.ofList_toList]
    rfl
  rw [achieved, hdraft, Draft.Spelled.id_draft]

/-- The difficulties with the first four nonces are one, zero, three and seven. -/
theorem fourth_nonce_found : ∃ m, mine reworked 6 = .ok m ∧
    m.draft.tags = [["p", "x"], ["nonce", "3", "6"]] ∧ m.reports = [1, 3, 6] ∧
    mine m.draft 6 = .ok m ∧
    mine reworked 257 = .error (.mining "difficulty 257 exceeds 256") := by
  have h0 : achieved reworked 6 0 = 1 := (achieved_reworked 0).trans (by decide +kernel)
  have h1 : achieved reworked 6 1 = 0 := (achieved_reworked 1).trans (by decide +kernel)
  have h2 : achieved reworked 6 2 = 3 := (achieved_reworked 2).trans (by decide +kernel)
  have h3 : achieved reworked 6 3 = 7 := (achieved_reworked 3).trans (by decide +kernel)
  obtain ⟨-, hexists, hfinds⟩ := mines_first reworked 6
  obtain ⟨m, hm⟩ := hexists.mpr ⟨by decide, 3, by decide, by omega⟩
  obtain ⟨k, hk⟩ := hfinds m hm
  have henough : 6 ≤ achieved reworked 6 k := by
    have hsufficient := hk.sufficient
    rwa [hk.draft] at hsufficient
  -- No nonce before the one found was sufficient, and the third is.
  have hle : k ≤ 3 := by
    by_contra hgt
    have := hk.first 3 (by omega)
    omega
  obtain rfl : k = 3 := by
    obtain rfl | rfl | rfl | rfl : k = 0 ∨ k = 1 ∨ k = 2 ∨ k = 3 := by omega
    all_goals omega
  refine ⟨m, hm, ?_, ?_, hk.again, (mines_first reworked 257).1 (by decide)⟩
  · rw [hk.draft]
    rfl
  · have hzero : heights (achieved reworked 6) 0 = [] := rfl
    rw [hk.reports]
    simp [heights_succ, peak, hzero, h0, h1, h2, h3]

end KeyQuorum.Work
