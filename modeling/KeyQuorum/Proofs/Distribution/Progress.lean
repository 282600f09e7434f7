import Mathlib.Data.List.DropRight
import Mathlib.Data.List.Infix
import Mathlib.Tactic.Lemma
import KeyQuorum.Distribution.Progress

/-!
What is told of the progress.

The entries are a function of the calls so far: each holds the difficulty last recorded for it since
it was last cleared. A call changes one entry, to what the call says, or none when there is no such
entry. So each record tells the progress of the entries as they then are, whatever calls came before
and however they were interleaved, and clearing tells nothing.
-/

namespace KeyQuorum.Progress

/-! ### The history of an entry -/

namespace Call

def entry : Call → Nat
  | .update entry _ => entry
  | .reset entry => entry

def value : Call → Nat
  | .update _ difficulty => difficulty
  | .reset _ => 0

def tells : Call → Bool
  | .update .. => true
  | .reset _ => false

def clears (entry : Nat) : Call → Bool
  | .update .. => false
  | .reset e => e = entry

def recorded? (entry : Nat) : Call → Option Nat
  | .update e difficulty => if e = entry then some difficulty else none
  | .reset _ => none

end Call

def sinceCleared (calls : List Call) (entry : Nat) : List Call :=
  calls.rtakeWhile fun c => !c.clears entry

/-- The difficulty last recorded for an entry since it was last cleared; zero if there is none. -/
def latest (calls : List Call) (entry : Nat) : Nat :=
  ((sinceCleared calls entry).filterMap (Call.recorded? entry)).getLast?.getD 0

def entries (shares : Nat) (calls : List Call) : List Nat :=
  (List.range shares).map (latest calls)

lemma latest_concat (calls : List Call) (c : Call) (entry : Nat) :
    latest (calls ++ [c]) entry = if c.entry = entry then c.value else latest calls entry := by
  unfold latest sinceCleared
  -- The history is read from its end, where the call stands: an update for the entry is the last
  -- one, and a call that clears it leaves nothing behind it.
  cases c with
  | update e difficulty =>
    rw [List.rtakeWhile_concat_pos _ _ _ rfl, List.filterMap_append]
    by_cases h : e = entry
    · simp [Call.recorded?, Call.entry, Call.value, h]
    · simp [Call.recorded?, Call.entry, h]
  | reset e =>
    by_cases h : e = entry
    · rw [List.rtakeWhile_concat_neg _ _ _ (by simp [Call.clears, h])]
      simp [Call.entry, Call.value, h]
    · rw [List.rtakeWhile_concat_pos _ _ _ (by simp [Call.clears, h]), List.filterMap_append]
      simp [Call.recorded?, Call.entry, h]

lemma entries_nil (shares : Nat) : entries shares [] = List.replicate shares 0 := by
  show (List.range shares).map (Function.const Nat 0) = _
  rw [List.map_const, List.length_range]

@[simp] lemma length_entries (shares : Nat) (calls : List Call) :
    (entries shares calls).length = shares := by
  rw [entries, List.length_map, List.length_range]

lemma entries_concat (shares : Nat) (calls : List Call) (c : Call) :
    entries shares (calls ++ [c]) = (entries shares calls).set c.entry c.value := by
  refine List.ext_getElem (by simp [entries]) fun i _ _ => ?_
  simp [entries, List.getElem_set, latest_concat]

/-! ### What a call does -/

lemma call_eq (p : Progress) (c : Call) :
    p.call c = (if c.tells then some (p.set c.entry c.value).percent else none,
      p.set c.entry c.value) := by
  cases c <;> rfl

section Missing

variable {p : Progress} {entry : Nat}

lemma set_of_le (h : p.best.length ≤ entry) (difficulty : Nat) : p.set entry difficulty = p := by
  rw [set, List.set_eq_of_length_le h]

lemma call_reset_of_le (h : p.best.length ≤ entry) : p.call (.reset entry) = (none, p) := by
  rw [call, set_of_le h]

lemma call_update_of_le (h : p.best.length ≤ entry) (difficulty : Nat) :
    p.call (.update entry difficulty) = (some p.percent, p) := by
  simp only [call, set_of_le h]

end Missing

/-- The progress after a list of calls. -/
def after (p : Progress) (calls : List Call) : Progress := calls.foldl (fun p c => (p.call c).2) p

lemma after_concat (p : Progress) (calls : List Call) (c : Call) :
    p.after (calls ++ [c]) = (p.after calls).set c.entry c.value := by
  rw [after, List.foldl_concat, call_eq]
  rfl

lemma told_concat (p : Progress) (calls : List Call) (c : Call) :
    p.told (calls ++ [c]) = p.told calls ++ ((p.after calls).call c).1.toList := by
  induction calls generalizing p with
  | nil => simp [told, after]
  | cons b calls ih =>
    rw [List.cons_append, told, told, ih, List.append_assoc]
    rfl

/-- **The entries are what the history says**; the target stays. -/
theorem after_start (target shares : Nat) (calls : List Call) :
    (start target shares).after calls = ⟨entries shares calls, target⟩ := by
  induction calls using List.reverseRecOn with
  | nil => rw [after, List.foldl_nil, start, entries_nil]
  | append_singleton calls c ih => rw [after_concat, ih, entries_concat, set]

/-! ### What is told -/

/-- The beginnings of a history that end with a call that tells. -/
def tellings (calls : List Call) : List (List Call) :=
  calls.inits.filter fun past => past.getLast?.any Call.tells

lemma tellings_concat (calls : List Call) (c : Call) :
    tellings (calls ++ [c]) = tellings calls ++ if c.tells then [calls ++ [c]] else [] := by
  have hinits : (calls ++ [c]).inits = calls.inits ++ [calls ++ [c]] := by
    simp [List.inits_append]
  rw [tellings, hinits, List.filter_append, List.filter_singleton]
  simp [tellings]

theorem told_start (target shares : Nat) (calls : List Call) :
    (start target shares).told calls =
      (tellings calls).map fun past => percentOf (entries shares past) target shares := by
  -- The history grows at its end, where what is told is told.
  induction calls using List.reverseRecOn with
  | nil => rfl
  | append_singleton calls c ih =>
    have hpercent : ((⟨entries shares calls, target⟩ : Progress).set c.entry c.value).percent =
        percentOf (entries shares (calls ++ [c])) target shares := by
      rw [percent, set, ← entries_concat, length_entries]
    rw [told_concat, ih, after_start, call_eq, tellings_concat, List.map_append, hpercent]
    cases c.tells <;> rfl

lemma length_tellings (calls : List Call) : (tellings calls).length = calls.countP Call.tells := by
  induction calls using List.reverseRecOn with
  | nil => rfl
  | append_singleton calls c ih =>
    rw [tellings_concat, List.length_append, ih, List.countP_append, List.countP_singleton]
    cases c.tells <;> rfl

/-- **The progress is told once for each difficulty recorded**, whether by an update or by a
reporter, and not when an entry is cleared. It is that of the entries as the calls so far have left
them: each has the difficulty last recorded for it since it was last cleared. A call for an entry
that does not exist changes nothing, but what it records is told all the same. -/
theorem tells_latest (target shares : Nat) (calls : List Call) :
    ((start target shares).after calls).best = (List.range shares).map (latest calls) ∧
    (start target shares).told calls = (tellings calls).map (fun past =>
      percentOf ((List.range shares).map (latest past)) target shares) ∧
    ((start target shares).told calls).length = calls.countP Call.tells ∧
    ∀ entry, shares ≤ entry → ∀ difficulty,
      let p := (start target shares).after calls
      p.call (.reset entry) = (none, p) ∧
      ∀ c ∈ [Call.update entry difficulty, reporter entry difficulty],
        p.call c = (some (percentOf p.best target shares), p) := by
  have hafter := after_start target shares calls
  refine ⟨congrArg best hafter, told_start target shares calls, ?count,
    fun entry hentry difficulty => ?missing⟩
  case count => rw [told_start, List.length_map, length_tellings]
  case missing =>
    intro p
    have hp : p = ⟨entries shares calls, target⟩ := hafter
    have hlength : p.best.length ≤ entry := by rwa [hp, length_entries]
    have hpercent : p.percent = percentOf p.best target shares := by
      rw [hp, percent, length_entries]
    refine ⟨call_reset_of_le hlength, fun c hc => ?_⟩
    obtain rfl : c = .update entry difficulty := by simpa [reporter] using hc
    rw [call_update_of_le hlength, hpercent]

/-- One miner reports twice and gives up, another one reports, and then an update is for an entry
that does not exist. -/
theorem reports_of_two_miners :
    let calls : List Call := [reporter 0 1, reporter 0 2, .reset 0, reporter 1 2, .update 9 2]
    (start 2 2).told calls =
      [percentOf [1, 0] 2 2, percentOf [2, 0] 2 2, percentOf [0, 2] 2 2, percentOf [0, 2] 2 2] ∧
    ((start 2 2).after calls).call (.reset 9) = (none, (start 2 2).after calls) := by
  intro calls
  obtain ⟨-, htold, -, hmissing⟩ := tells_latest 2 2 calls
  exact ⟨htold, (hmissing 9 (by decide) 0).1⟩

end KeyQuorum.Progress
