import KeyQuorum.Rehearsal.Script

/-!
Rehearsing a run on a scripted network, in virtual time.

Time stands still while anything can move. A pass goes through the attempts in order and lets
each go on until it has to wait; when a pass moves nothing, the clock jumps to the next time at
which something is due. Everything the rehearsal does to the run is a stimulus, and the log
keeps what the run does and hears, with the time.
-/

namespace KeyQuorum

inductive LogEntry where
  | mine (difficulty : Nat)
  | progress (percent : Float)
  | subscribe (relays : List String) (filter : Filter)
  | publish (relays : List String) (event : Event)
  | relay (a : RelayAnswer)
  | ack (signer : Nat) (id : Block 32)
  | outcome (signer : PublicKey) (error : Option DistributionError)

/-- What the miner is at for an attempt. -/
inductive MinerState where
  | idle
  | called (draft : Draft)
  | gaveWay (draft : Draft)
  | asleep (wake : Nat) (draft : Draft)

/-- Items that come one after the other; `due` is when the first of them comes. -/
structure Stream (α : Type) where
  items : List (Nat × α) := []
  due : Nat := 0

def Stream.start {α : Type} (clock : Nat) (items : List (Nat × α)) : Stream α :=
  ⟨items, clock + (items.head?.map Prod.fst).getD 0⟩

/-- What the world holds ready for an attempt. -/
structure Feed where
  miner : MinerState := .idle
  answers : Stream RelayAnswer := {}
  replies : Stream Event := {}
  source : Nat := 0
  hangsUp : Bool := false
  deadline : Nat := 0

/-- A run on its network. The entries of the log are held latest first; it halts at a key of the
script that cannot be read and has no answer. -/
structure Rehearsal where
  script : Script
  run : Run
  feeds : List Feed
  coordinator : Stream RelayAnswer := {}
  clock : Nat := 0
  entries : List (Nat × LogEntry) := []
  halted : Bool := false

namespace Rehearsal

variable (h : Rehearsal)

def note (e : LogEntry) : Rehearsal := { h with entries := (h.clock, e) :: h.entries }

def setFeed (i : Nat) (f : Feed → Feed) : Rehearsal := { h with feeds := h.feeds.modify i f }

/-- Does what the run asks, and notes what it tells. -/
def perform (h : Rehearsal) : Action → Rehearsal
  | .mine i draft =>
    (h.note (.mine h.run.request.difficulty)).setFeed i fun f => { f with miner := .called draft }
  | .subscribe i relays filter =>
    let source := h.script.source? filter
    let signer := source.bind fun k => h.script.signers[k]?
    let replies := (signer.map fun s => s.acks.filterMap fun a =>
      (h.script.ackEvent? h.run.now h.run.settings.kinds.acknowledgement filter s a).map
        fun e => (a.after, e)).getD []
    (h.note (.subscribe relays filter)).setFeed i fun f => { f with
      replies := Stream.start h.clock replies
      source := source.getD 0
      hangsUp := (signer.map (·.hangsUp)).getD false
      deadline := h.clock + h.run.settings.ackTimeout }
  | .publish i relays event =>
    (h.note (.publish relays event)).setFeed i fun f =>
      { f with answers := Stream.start h.clock (h.script.answers relays) }
  | .announce relays event =>
    { h.note (.publish relays event) with
      coordinator := Stream.start h.clock (h.script.answers relays) }
  | .progress percent => h.note (.progress percent)
  | .outcome signer error => h.note (.outcome signer error)

def stimulate (h : Rehearsal) (x : Stimulus) : Rehearsal :=
  let (run, actions) := h.run.step x
  actions.foldl perform { h with run }

def stimulateAll (h : Rehearsal) (xs : List Stimulus) : Rehearsal := xs.foldl stimulate h

def minerEnds (i : Nat) (reports : List Nat) (result : Except MessageError Draft) : Rehearsal :=
  (h.setFeed i fun f => { f with miner := .idle }).stimulateAll
    (reports.map (.work i) ++ [.mined i result])

/-- The miner reports half the aim and goes on later. -/
def minerPauses (i : Nat) (state : MinerState) : Rehearsal :=
  (h.setFeed i fun f => { f with miner := state }).stimulate
    (.work i (h.run.request.difficulty / 2))

def minerStarts (i : Nat) (signer : PublicKey) (draft : Draft) : Rehearsal :=
  let aim := h.run.request.difficulty
  match h.script.miner with
  | .instant reports createdAt =>
    h.minerEnds i reports (.ok { draft with createdAt := createdAt.getD draft.createdAt })
  | .working =>
    match Work.mine draft aim with
    | .ok m => h.minerEnds i m.reports (.ok m.draft)
    | .error e => h.minerEnds i [] (.error e)
  | .yielding => h.minerPauses i (.gaveWay draft)
  | .slow delay => h.minerPauses i (.asleep (h.clock + delay) draft)
  | .failing reason => h.minerEnds i [] (.error (.mining reason))
  | .failingFor key reason =>
    if signer.hex = key then h.minerEnds i [] (.error (.mining reason))
    else h.minerEnds i [aim] (.ok draft)
  | .stealing owner =>
    match PublicKey.ofHex owner with
    | .ok author => h.minerEnds i [] (.ok { draft with author })
    | .error (.refused e) => h.minerEnds i [] (.error (.key e))
    | .error .halted => { h with halted := true }

/-- The next thing a delivery hears, if it is due. -/
def hearing? (i : Nat) (d : Delivery) (f : Feed) : Option Rehearsal :=
  let fromRelays := if d.publishing.isPending then
      match f.answers.items with
      | [] => some (h.stimulate (.hear i .answersEnd))
      | (_, a) :: rest =>
        if f.answers.due ≤ h.clock then
          some (((h.note (.relay a)).setFeed i fun f =>
            { f with answers := Stream.start h.clock rest }).stimulate (.hear i (.answer a)))
        else none
    else none
  let fromSigner := if d.acknowledgement = .awaited then
      match f.replies.items with
      | [] => if f.hangsUp then some (h.stimulate (.hear i .repliesEnd)) else none
      | (_, e) :: rest =>
        if f.replies.due ≤ h.clock then
          some (((h.note (.ack f.source e.id)).setFeed i fun f =>
            { f with replies := Stream.start h.clock rest }).stimulate (.hear i (.reply e)))
        else none
    else none
  let late := if f.deadline ≤ h.clock then some (h.stimulate (.hear i .deadline)) else none
  fromRelays <|> fromSigner <|> late

/-- One move of an attempt, unless it has to wait. An attempt that gave way goes on only when it
is `fresh` in the pass. -/
def move? (i : Nat) (fresh : Bool) : Option Rehearsal :=
  match h.run.attempts[i]?, h.feeds[i]? with
  | some a, some f =>
    let aim := h.run.request.difficulty
    match a.phase, f.miner with
    | .idle, _ => some (h.stimulate (.advance i))
    | .queued, _ =>
      if i ∈ h.run.admission.permits.granted then some (h.stimulate (.advance i)) else none
    | .ready _ _, _ => if i ∈ h.run.turn.granted then some (h.stimulate (.advance i)) else none
    | .mining _ _, .called draft => some (h.minerStarts i a.signer draft)
    | .mining _ _, .gaveWay draft => if fresh then some (h.minerEnds i [aim] (.ok draft)) else none
    | .mining _ _, .asleep wake draft =>
      if wake ≤ h.clock then some (h.minerEnds i [aim] (.ok draft)) else none
    | .mining _ _, .idle => none
    | .delivering _ d, _ => h.hearing? i d f
    | .ended _, _ => none
  | _, _ => none

/-- Lets an attempt go on until it has to wait, and tells whether it moved. -/
def go (i : Nat) : (fuel : Nat) → (fresh moved : Bool) → Rehearsal → Bool × Rehearsal
  | 0, _, moved, h => (moved, h)
  | fuel + 1, fresh, moved, h =>
    if h.halted then (moved, h)
    else
      match h.move? i fresh with
      | some h => go i fuel false true h
      | none => (moved, h)

def pass (fuel : Nat) : Bool × Rehearsal :=
  (List.range h.feeds.length).foldl (fun (moved, h) i => go i fuel true moved h) (false, h)

/-- One move of the run as a whole: it concludes, or the coordinator answers. -/
def moveRun? : Option Rehearsal :=
  match h.run.stage with
  | .delivering =>
    if h.run.attempts.all (·.phase.hasEnded) then some (h.stimulate .conclude) else none
  | .announcing _ _ =>
    match h.coordinator.items with
    | [] => some (h.stimulate .coordinatorEnd)
    | (_, a) :: rest =>
      if h.coordinator.due ≤ h.clock then
        some ({ h.note (.relay a) with coordinator := Stream.start h.clock rest }.stimulate
          (.coordinatorAnswer a))
      else none
  | .finished _ => none

def timers (a : Attempt) (f : Feed) : List Nat :=
  match a.phase, f.miner with
  | .mining _ _, .asleep wake _ => [wake]
  | .delivering _ d, _ =>
    f.deadline ::
      ((if d.publishing.isPending ∧ f.answers.items ≠ [] then [f.answers.due] else []) ++
        (if d.acknowledgement = .awaited ∧ f.replies.items.length ≠ 0 then [f.replies.due] else []))
  | _, _ => []

def nextTime? : Option Nat :=
  match h.run.stage with
  | .delivering => ((List.zipWith timers h.run.attempts h.feeds).flatten).min?
  | .announcing _ _ => some h.coordinator.due
  | .finished _ => none

/-- Plays until the run has finished or nothing is due any more. -/
def play (moves : Nat) : (fuel : Nat) → Rehearsal → Rehearsal
  | 0, h => h
  | fuel + 1, h =>
    if h.halted then h
    else
      match h.pass moves with
      | (true, h) => play moves fuel h
      | (false, h) =>
        match h.moveRun? with
        | some h => play moves fuel h
        | none =>
          match h.nextTime? with
          | some t => play moves fuel { h with clock := t }
          | none => h

def log : List (Nat × LogEntry) := h.entries.reverse

end Rehearsal

/-- Rehearses a run from its start to its end. -/
def Script.rehearse (s : Script) (run : Run) : Rehearsal :=
  let moves := s.moves run.attempts.length
  Rehearsal.play moves moves { script := s, run, feeds := run.attempts.map fun _ => {} }

end KeyQuorum
