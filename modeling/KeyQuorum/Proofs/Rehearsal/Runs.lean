import KeyQuorum.Proofs.Distribution.Receipts
import KeyQuorum.Proofs.Distribution.Actions
import KeyQuorum.Rehearsal.Schedule

/-!
A rehearsal is a run.

All that a rehearsal does to its run is a stimulus, and whatever the run says is noted in the log.
So a rehearsed run is the run after some list of stimuli, and what holds of all of these holds of
it. The miner of a script works on the draft that it was called with, which is the draft of the
attempt that mines: unless it puts another author's key there, the mining is honest.
-/

namespace KeyQuorum

def LogEntry.ofAction (difficulty : Nat) : Action → LogEntry
  | .mine _ _ => .mine difficulty
  | .subscribe _ relays filter => .subscribe relays filter
  | .publish _ relays event | .announce relays event => .publish relays event
  | .progress percent => .progress percent
  | .outcome signer error => .outcome signer error

/-- Whether an entry is of what a run says, and not of what it hears. -/
def LogEntry.isSaid : LogEntry → Bool
  | .relay _ | .ack _ _ => false
  | _ => true

def ScriptedMiner.isHonest : ScriptedMiner → Bool
  | .stealing _ => false
  | _ => true

def MinerState.draft? : MinerState → Option Draft
  | .idle => none
  | .called draft | .gaveWay draft | .asleep _ draft => some draft

namespace Rehearsal

/-- What the log has of what the run has said, in order. -/
def said (h : Rehearsal) : List LogEntry := (h.log.map Prod.snd).filter (·.isSaid)

/-- The draft in hand for an attempt. -/
def inHand? (h : Rehearsal) (i : Nat) : Option Draft := h.feeds[i]?.bind (·.miner.draft?)

/-- Whatever mines, what the miner has in hand for it is its draft. -/
def Faithful (h : Rehearsal) : Prop :=
  ∀ i k s draft d, h.run.attempts[i]? = some ⟨k, .mining s draft⟩ → h.inHand? i = some d → d = draft

/-- The run has taken the stimuli, and the log has what it said at them. -/
structure Plays (h : Rehearsal) (xs : List Stimulus) (h' : Rehearsal) : Prop where
  script : h'.script = h.script
  run : h'.run = (h.run.steps xs).1
  said : h'.said = h.said ++ (h.run.steps xs).2.map (.ofAction h.run.request.difficulty)
  faithful : h.Faithful → h'.Faithful

/-- A rehearsal goes on, with honest mining if the script's miner is honest. -/
def GoesOn (h h' : Rehearsal) : Prop :=
  ∃ xs, h.Plays xs h' ∧ (h.Faithful → h.script.miner.isHonest = true → h.run.HonestMiner xs)

variable {h h' h'' : Rehearsal} {xs ys : List Stimulus} {i j : Nat} {d draft : Draft}

lemma Plays.goesOn (hp : h.Plays [] h') : h.GoesOn h' := ⟨[], hp, fun _ _ => trivial⟩

lemma Plays.trans (hp : h.Plays xs h') (hp' : h'.Plays ys h'') : h.Plays (xs ++ ys) h'' where
  script := hp'.script.trans hp.script
  run := by rw [hp'.run, hp.run, Run.steps_append]
  said := by
    have hrequest : h'.run.request = h.run.request := by
      rw [hp.run]
      exact congrArg Run.Terms.request (Run.terms_steps h.run xs)
    rw [hp'.said, hp.said, hrequest, hp.run, Run.said_append, List.map_append, List.append_assoc]
  faithful hf := hp'.faithful (hp.faithful hf)

lemma GoesOn.trans (hg : h.GoesOn h') (hg' : h'.GoesOn h'') : h.GoesOn h'' := by
  obtain ⟨xs, hp, hhonest⟩ := hg
  obtain ⟨ys, hp', hhonest'⟩ := hg'
  refine ⟨xs ++ ys, hp.trans hp', fun hf hh => ?_⟩
  rw [Run.honestMiner_append, ← hp.run]
  exact ⟨hhonest hf hh, hhonest' (hp.faithful hf) (hp.script ▸ hh)⟩

lemma plays_nil (hscript : h'.script = h.script) (hrun : h'.run = h.run) (hsaid : h'.said = h.said)
    (hhand : ∀ i d, h'.inHand? i = some d → h.inHand? i = some d) : h.Plays [] h' where
  script := hscript
  run := hrun
  said := by rw [hsaid]; exact (List.append_nil _).symm
  faithful hf i k s draft d ha hd := hf i k s draft d (hrun ▸ ha) (hhand i d hd)

lemma goesOn_idle (hscript : h'.script = h.script) (hrun : h'.run = h.run)
    (hsaid : h'.said = h.said) (hfeeds : h'.feeds = h.feeds) : h.GoesOn h' :=
  (plays_nil hscript hrun hsaid fun i d hd => by rwa [inHand?, hfeeds] at hd).goesOn

lemma GoesOn.refl (h : Rehearsal) : h.GoesOn h := goesOn_idle rfl rfl rfl rfl

/-! ### Notes and what is in hand -/

lemma said_note (h : Rehearsal) (e : LogEntry) :
    (h.note e).said = h.said ++ if e.isSaid then [e] else [] := by
  unfold said log note
  rw [List.reverse_cons, List.map_append, List.filter_append]
  cases he : e.isSaid <;> simp [he]

lemma plays_note {e : LogEntry} (he : e.isSaid = false) : h.Plays [] (h.note e) :=
  plays_nil rfl rfl (by rw [said_note, he]; exact List.append_nil _) fun _ _ => id

lemma inHand?_setFeed (h : Rehearsal) (i j : Nat) (f : Feed → Feed) :
    (h.setFeed i f).inHand? j =
      if i = j then h.feeds[j]?.bind fun x => (f x).miner.draft? else h.inHand? j := by
  unfold inHand? setFeed
  rw [List.getElem?_modify]
  split
  · cases h.feeds[j]? <;> rfl
  · cases h.feeds[j]? <;> rfl

/-- A feed may let go of its draft, or keep it. -/
lemma plays_setFeed {f : Feed → Feed}
    (hf : ∀ x, h.feeds[i]? = some x → ∀ d, (f x).miner.draft? = some d → x.miner.draft? = some d) :
    h.Plays [] (h.setFeed i f) := by
  refine plays_nil rfl rfl rfl fun j d hd => ?_
  rw [inHand?_setFeed] at hd
  split at hd
  · next hij =>
    subst hij
    obtain ⟨x, hx, hd⟩ := Option.bind_eq_some_iff.mp hd
    exact Option.bind_eq_some_iff.mpr ⟨x, hx, hf x hx d hd⟩
  · exact hd

/-! ### What is performed -/

lemma perform_run (h : Rehearsal) (a : Action) :
    (h.perform a).run = h.run ∧ (h.perform a).script = h.script := by
  cases a <;> exact ⟨rfl, rfl⟩

lemma said_perform (h : Rehearsal) (a : Action) :
    (h.perform a).said = h.said ++ [.ofAction h.run.request.difficulty a] := by
  cases a <;> exact said_note h _

/-- The miner has a draft in hand because it was just called with it, or it had it before. -/
lemma inHand?_perform {a : Action} (hd : (h.perform a).inHand? i = some d) :
    a = .mine i d ∨ (∀ d', a ≠ .mine i d') ∧ h.inHand? i = some d := by
  cases a with
  | mine j draft =>
    rw [perform, inHand?_setFeed] at hd
    split at hd
    · next hij =>
      subst hij
      obtain ⟨x, -, hx⟩ := Option.bind_eq_some_iff.mp hd
      exact .inl (congrArg (Action.mine j) (Option.some.inj hx))
    · next hij =>
      exact .inr ⟨fun d' he => hij (Action.mine.inj he).1, hd⟩
  | subscribe j relays filter =>
    refine .inr ⟨nofun, ?_⟩
    rw [perform, inHand?_setFeed] at hd
    split at hd <;> exact hd
  | publish j relays event =>
    refine .inr ⟨nofun, ?_⟩
    rw [perform, inHand?_setFeed] at hd
    split at hd <;> exact hd
  | _ => exact .inr ⟨nofun, hd⟩

lemma foldl_perform (h : Rehearsal) (actions : List Action) :
    (actions.foldl perform h).run = h.run ∧ (actions.foldl perform h).script = h.script ∧
      (actions.foldl perform h).said =
        h.said ++ actions.map (.ofAction h.run.request.difficulty) := by
  induction actions generalizing h with
  | nil => exact ⟨rfl, rfl, (List.append_nil _).symm⟩
  | cons a actions ih =>
    obtain ⟨hrun, hscript⟩ := h.perform_run a
    obtain ⟨hrun', hscript', hsaid⟩ := ih (h.perform a)
    refine ⟨hrun'.trans hrun, hscript'.trans hscript, ?_⟩
    rw [List.foldl_cons, hsaid, hrun, said_perform, List.map_cons, List.append_assoc]
    rfl

lemma inHand?_foldl_perform {actions : List Action}
    (hd : (actions.foldl perform h).inHand? i = some d) :
    .mine i d ∈ actions ∨ (∀ d', .mine i d' ∉ actions) ∧ h.inHand? i = some d := by
  induction actions generalizing h with
  | nil => exact .inr ⟨fun _ => List.not_mem_nil, hd⟩
  | cons a actions ih =>
    rcases ih hd with hmem | ⟨hnone, hd⟩
    · exact .inl (List.mem_cons_of_mem a hmem)
    · rcases inHand?_perform hd with rfl | ⟨hne, hd⟩
      · exact .inl List.mem_cons_self
      · exact .inr ⟨fun d' hmem => (List.mem_cons.mp hmem).elim (fun he => hne d' he.symm)
          (hnone d'), hd⟩

/-! ### Stimuli -/

lemma plays_stimulate (h : Rehearsal) (x : Stimulus) : h.Plays [x] (h.stimulate x) := by
  obtain ⟨hrun, hscript, hsaid⟩ := foldl_perform { h with run := (h.run.step x).1 } (h.run.step x).2
  have hrequest : (h.run.step x).1.request = h.run.request :=
    congrArg Run.Terms.request (Run.terms_step h.run x)
  have hrun' : (h.stimulate x).run = (h.run.step x).1 := hrun
  have hone : (h.run.steps [x]).2 = (h.run.step x).2 := List.append_nil _
  refine ⟨hscript, hrun, ?_, fun hf i k s draft d ha hd => ?_⟩
  · rw [hone, ← hrequest]
    exact hsaid
  · have ha' : (h.run.step x).1.attempts[i]? = some ⟨k, .mining s draft⟩ := by rwa [hrun'] at ha
    rcases inHand?_foldl_perform hd with hmem | ⟨hnone, hd⟩
    · -- The miner was called with the draft of an attempt that has just come to mine.
      obtain ⟨a, t, hentered⟩ := Run.entered_of_mine hmem
      have hafter := ha'.symm.trans hentered.after
      cases hafter
      rfl
    · -- Without a call, whatever mines has mined before, with the same draft.
      rcases Run.mining_step ha' with hbefore | hmem
      · exact hf i k s draft d hbefore hd
      · exact absurd hmem (hnone draft)

lemma goesOn_stimulate {x : Stimulus} (hx : h.run.Honest x) : h.GoesOn (h.stimulate x) :=
  ⟨[x], plays_stimulate h x, fun _ _ => ⟨hx, trivial⟩⟩

/-! ### The miner -/

lemma attempts_work (r : Run) (i difficulty : Nat) :
    (r.step (.work i difficulty)).1.attempts = r.attempts := by
  cases r.step_effect (.work i difficulty) with
  | attempt hm =>
    rw [hm, Run.stepAttempt]
    split <;> rfl
  | conclude _ _ hx | short _ _ hx | taken _ _ hx | refused _ _ hx | unanswered _ _ hx => cases hx
  | nothing hm => rw [hm]

lemma honest_works (r : Run) (i : Nat) (reports : List Nat) :
    (r.steps (reports.map (.work i))).1.attempts = r.attempts ∧
      r.HonestMiner (reports.map (.work i)) := by
  induction reports generalizing r with
  | nil => exact ⟨rfl, trivial⟩
  | cons n reports ih =>
    obtain ⟨hattempts, hhonest⟩ := ih (r.step (.work i n)).1
    exact ⟨hattempts.trans (attempts_work r i n), trivial, hhonest⟩

lemma plays_stimulateAll (h : Rehearsal) (xs : List Stimulus) : h.Plays xs (h.stimulateAll xs) := by
  induction xs generalizing h with
  | nil => exact plays_nil rfl rfl rfl fun _ _ => id
  | cons x xs ih => exact (plays_stimulate h x).trans (ih _)

/-- An honest miner ends with a draft that is mined from the attempt's. -/
lemma goesOn_minerEnds {reports : List Nat} {result : Except MessageError Draft}
    (hresult : h.Faithful → h.script.miner.isHonest = true → ∀ mined, result = .ok mined →
      ∀ k s draft, h.run.attempts[i]? = some ⟨k, .mining s draft⟩ → mined.MinedFrom draft) :
    h.GoesOn (h.minerEnds i reports result) := by
  have hfree : h.Plays [] (h.setFeed i fun f => { f with miner := .idle }) := plays_setFeed nofun
  refine ⟨_, hfree.trans (plays_stimulateAll _ _), fun hf hh => ?_⟩
  obtain ⟨hattempts, hworks⟩ := honest_works h.run i reports
  show h.run.HonestMiner (reports.map (.work i) ++ [.mined i result])
  refine Run.honestMiner_append.mpr ⟨hworks, ?_, trivial⟩
  cases result with
  | error e => trivial
  | ok mined =>
    intro k s draft ha
    rw [hattempts] at ha
    exact hresult hf hh mined rfl k s draft ha

lemma goesOn_minerPauses {state : MinerState} (hstate : state.draft? = h.inHand? i) :
    h.GoesOn (h.minerPauses i state) := by
  have hkeeps : h.Plays [] (h.setFeed i fun f => { f with miner := state }) := by
    refine plays_setFeed fun x hx d hd => ?_
    rw [hstate, inHand?, hx] at hd
    exact hd
  exact hkeeps.goesOn.trans (goesOn_stimulate trivial)

/-- The draft in hand is the attempt's, so what is mined from it is mined from that. -/
lemma goesOn_minedFrom (reports : List Nat) (hdraft : h.inHand? i = some draft) {mined : Draft}
    (hmined : mined.MinedFrom draft) : h.GoesOn (h.minerEnds i reports (.ok mined)) := by
  refine goesOn_minerEnds fun hf _ result hresult k s draft' ha => ?_
  obtain rfl := Except.ok.inj hresult
  exact hf i k s draft' draft ha hdraft ▸ hmined

lemma goesOn_minerStarts (signer : PublicKey) (hdraft : h.inHand? i = some draft) :
    h.GoesOn (h.minerStarts i signer draft) := by
  unfold minerStarts
  dsimp only
  -- One case for each miner of a script; all but the last keep the draft but for time and nonce.
  split
  · exact goesOn_minedFrom _ hdraft ⟨rfl, rfl, rfl, rfl⟩
  · split
    · next m hm => exact goesOn_minedFrom _ hdraft (Work.minedFrom_of_mine hm)
    · exact goesOn_minerEnds nofun
  · exact goesOn_minerPauses hdraft.symm
  · exact goesOn_minerPauses hdraft.symm
  · exact goesOn_minerEnds nofun
  · split
    · exact goesOn_minerEnds nofun
    · exact goesOn_minedFrom _ hdraft ⟨rfl, rfl, rfl, rfl⟩
  · next owner hminer =>
    split
    · exact goesOn_minerEnds fun _ hh => by rw [hminer] at hh; cases hh
    · exact goesOn_minerEnds nofun
    · exact goesOn_idle rfl rfl rfl rfl

/-! ### The schedule -/

lemma goesOn_note_stimulate {e : LogEntry} {f : Feed → Feed} (he : e.isSaid = false)
    (hf : ∀ x, (f x).miner = x.miner) {x : Stimulus} (hx : h.run.Honest x) :
    h.GoesOn (((h.note e).setFeed i f).stimulate x) := by
  have hfeed : (h.note e).Plays [] ((h.note e).setFeed i f) :=
    plays_setFeed fun y _ d hd => by rwa [hf y] at hd
  exact ((plays_note he).trans hfeed).goesOn.trans (goesOn_stimulate hx)

lemma goesOn_hearing? {d : Delivery} {f : Feed} (hh : h.hearing? i d f = some h') :
    h.GoesOn h' := by
  unfold hearing? at hh
  simp only [Option.orElse_eq_orElse, Option.orElse_eq_or, Option.or_eq_some_iff] at hh
  rcases hh with hrelays | ⟨-, hsigner | ⟨-, hlate⟩⟩
  · split at hrelays
    · split at hrelays
      · cases hrelays
        exact goesOn_stimulate trivial
      · split at hrelays
        · cases hrelays
          refine goesOn_note_stimulate ?_ (fun _ => ?_) ?_ <;> trivial
        · cases hrelays
    · cases hrelays
  · split at hsigner
    · split at hsigner
      · split at hsigner
        · cases hsigner
          exact goesOn_stimulate trivial
        · cases hsigner
      · split at hsigner
        · cases hsigner
          refine goesOn_note_stimulate ?_ (fun _ => ?_) ?_ <;> trivial
        · cases hsigner
    · cases hsigner
  · split at hlate
    · cases hlate
      exact goesOn_stimulate trivial
    · cases hlate

lemma goesOn_move? {fresh : Bool} (hm : h.move? i fresh = some h') : h.GoesOn h' := by
  unfold move? at hm
  split at hm
  · next a f ha hf =>
    dsimp only at hm
    -- What the miner has in hand is known from its feed.
    have hhand (state : MinerState) (hstate : f.miner = state) : h.inHand? i = state.draft? := by
      rw [inHand?, hf, ← hstate]
      rfl
    split at hm
    · cases hm
      exact goesOn_stimulate trivial
    · split at hm
      · cases hm
        exact goesOn_stimulate trivial
      · cases hm
    · split at hm
      · cases hm
        exact goesOn_stimulate trivial
      · cases hm
    · next hminer =>
      cases hm
      exact goesOn_minerStarts _ (hhand _ hminer)
    · next hminer =>
      split at hm
      · cases hm
        exact goesOn_minedFrom _ (hhand _ hminer) ⟨rfl, rfl, rfl, rfl⟩
      · cases hm
    · next hminer =>
      split at hm
      · cases hm
        exact goesOn_minedFrom _ (hhand _ hminer) ⟨rfl, rfl, rfl, rfl⟩
      · cases hm
    · cases hm
    · exact goesOn_hearing? hm
    · cases hm
  · cases hm

/-- Fuel bounds how far a rehearsal goes, and not what it does on the way. -/
lemma goesOn_go (h : Rehearsal) (i fuel : Nat) (fresh moved : Bool) :
    h.GoesOn (go i fuel fresh moved h).2 := by
  induction fuel generalizing h fresh moved with
  | zero => exact .refl h
  | succ fuel ih =>
    unfold go
    split
    · exact .refl h
    · split
      · next h' hm => exact (goesOn_move? hm).trans (ih h' _ _)
      · exact .refl h

lemma goesOn_foldl {f : Bool × Rehearsal → Nat → Bool × Rehearsal}
    (hf : ∀ (x : Bool × Rehearsal) i, x.2.GoesOn (f x i).2) (is : List Nat) (x : Bool × Rehearsal) :
    x.2.GoesOn (is.foldl f x).2 := by
  induction is generalizing x with
  | nil => exact .refl x.2
  | cons i is ih => exact (hf x i).trans (ih (f x i))

lemma goesOn_pass (h : Rehearsal) (fuel : Nat) : h.GoesOn (h.pass fuel).2 := by
  unfold pass
  exact goesOn_foldl (fun x i => goesOn_go x.2 i fuel true x.1) _ (false, h)

lemma goesOn_moveRun? (hm : h.moveRun? = some h') : h.GoesOn h' := by
  unfold moveRun? at hm
  split at hm
  · split at hm
    · cases hm
      exact goesOn_stimulate trivial
    · cases hm
  · split at hm
    · cases hm
      exact goesOn_stimulate trivial
    · split at hm
      · next answer rest _ _ =>
        cases hm
        have hnext : (h.note (.relay answer)).GoesOn { h.note (.relay answer) with
            coordinator := Stream.start h.clock rest } := goesOn_idle rfl rfl rfl rfl
        have hnote : h.Plays [] (h.note (.relay answer)) := plays_note rfl
        exact (hnote.goesOn.trans hnext).trans (goesOn_stimulate trivial)
      · cases hm
  · cases hm

lemma goesOn_play (h : Rehearsal) (moves fuel : Nat) : h.GoesOn (play moves fuel h) := by
  induction fuel generalizing h with
  | zero => exact .refl h
  | succ fuel ih =>
    unfold play
    split
    · exact .refl h
    · have hpass := goesOn_pass h moves
      split
      · next h' hp =>
        rw [hp] at hpass
        exact hpass.trans (ih h')
      · next h' hp =>
        -- Nobody can move on, so it is the run's own turn, or that of the clock.
        rw [hp] at hpass
        refine hpass.trans ?_
        split
        · next hm => exact (goesOn_moveRun? hm).trans (ih _)
        · split
          · next t ht =>
            have hclock : h'.GoesOn { h' with clock := t } := goesOn_idle rfl rfl rfl rfl
            exact hclock.trans (ih _)
          · exact .refl h'

end Rehearsal

/-- **A rehearsal is a run**: its run has taken some list of stimuli, and the log has all that the
run said at them, in order. Unless the script's miner steals, the mining is honest. -/
theorem Script.exists_steps_rehearse (s : Script) (run : Run) : ∃ xs,
    (s.rehearse run).run = (run.steps xs).1 ∧
    (s.rehearse run).said = (run.steps xs).2.map (.ofAction run.request.difficulty) ∧
    (s.miner.isHonest = true → run.HonestMiner xs) := by
  let h : Rehearsal := { script := s, run, feeds := run.attempts.map fun _ => {} }
  have hf : h.Faithful := by
    intro i k t draft d _ hd
    obtain ⟨f, hf, hd⟩ := Option.bind_eq_some_iff.mp hd
    rw [List.getElem?_map] at hf
    obtain ⟨a, -, rfl⟩ := Option.map_eq_some_iff.mp hf
    cases hd
  obtain ⟨xs, hplays, hhonest⟩ := Rehearsal.goesOn_play h _ _
  exact ⟨xs, hplays.run, hplays.said, hhonest hf⟩

theorem Script.exists_receipt_rehearse (s : Script) (hhonest : s.miner.isHonest = true) {run : Run}
    (hidle : ∀ a ∈ run.attempts, a.phase = .idle) : ∃ xs,
    (s.rehearse run).run = (run.steps xs).1 ∧
    ∀ k t, (k, t) ∈ run.placements xs → ∃ event ack, run.Receipt xs k t event ack := by
  obtain ⟨xs, hrun, -, hmining⟩ := s.exists_steps_rehearse run
  exact ⟨xs, hrun, fun k t hkt => Run.exists_receipt hidle (hmining hhonest) hkt⟩

end KeyQuorum
