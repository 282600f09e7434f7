import KeyQuorum.Distribution.Admission
import KeyQuorum.Distribution.Delivery
import KeyQuorum.Distribution.Progress
import KeyQuorum.Distribution.Record
import KeyQuorum.Distribution.Settings
import KeyQuorum.Event.Work
import KeyQuorum.Message.Payload
import KeyQuorum.Sharing.Dealing

/-!
A distribution run, as a machine that answers what happens with what is to be done.

Every candidate makes one attempt. It waits for a permit and takes a share, encrypts it for its
signer, waits its turn with the miner, has the event mined, signs and publishes it and listens
for the acknowledgement. When all attempts have ended and every share is placed, the record is
built and announced to the coordinator.

The order of what happens is left open: a stimulus says which attempt may move or what one of
them hears, and one that does not fit the attempt's phase changes nothing. So a run is a list
of stimuli, and whatever is true after every list of stimuli is true under every schedule.
-/

namespace KeyQuorum

/-- How an attempt ended: it was refused when there was no share to be had, and abandoned when the
run was aborted while it waited for the miner. -/
inductive Ending where
  | refused
  | unreachable
  | abandoned
  | failed (e : DistributionError)
  | accepted

/-- What an attempt is at. It is queued while it waits for a permit, and ready once it holds a share
and waits for the miner with its draft. -/
inductive Phase where
  | idle
  | queued
  | ready (share : KeyShare) (draft : Draft)
  | mining (share : KeyShare) (draft : Draft)
  | delivering (share : KeyShare) (d : Delivery)
  | ended (how : Ending)

def Phase.hasEnded : Phase → Bool
  | .ended _ => true
  | _ => false

structure Attempt where
  signer : PublicKey
  phase : Phase := .idle

/-- A record that is announced comes with what the coordinator last said against it. -/
inductive Stage where
  | delivering
  | announcing (record : Record) (refusal : Option String)
  | finished (result : Except DistributionError Record)

/-- The state of a run. `turn` says whose turn it is with the miner. -/
structure Run where
  dealer : KeyPair
  settings : Settings
  request : Request
  /-- The time that all drafts and the record bear, from one reading of the clock. A dealer who
  reads it for each of them anew gives later ones later times. -/
  now : Timestamp
  entropy : Entropy
  admission : Admission KeyShare (PublicKey × String)
  turn : Permits := ⟨1, [], []⟩
  progress : Progress
  attempts : List Attempt
  stage : Stage := .delivering

/-- What a run asks of the world, or tells it. -/
inductive Action where
  | mine (attempt : Nat) (draft : Draft)
  | subscribe (attempt : Nat) (relays : List String) (filter : Filter)
  | publish (attempt : Nat) (relays : List String) (event : Event)
  | announce (relays : List String) (event : Event)
  | progress (percent : Float)
  | outcome (signer : PublicKey) (error : Option DistributionError)

/-- What happens to a run. An attempt may `advance` as far as it can, and the run may `conclude`
once all attempts have ended; `work` is a difficulty that the miner reports for an attempt. -/
inductive Stimulus where
  | advance (attempt : Nat)
  | work (attempt difficulty : Nat)
  | mined (attempt : Nat) (result : Except MessageError Draft)
  | hear (attempt : Nat) (x : Delivery.Input)
  | conclude
  | coordinatorAnswer (a : RelayAnswer)
  | coordinatorEnd

namespace Run

/-- A run that has moved, and what it asks and tells. -/
abbrev Moved := Run × List Action

variable (r : Run)

def setPhase (i : Nat) (phase : Phase) : Run :=
  { r with attempts := r.attempts.modify i fun a => { a with phase } }

def entry (s : KeyShare) : Nat := s.id.toNat - 1

def tell (signer : PublicKey) (error : Option DistributionError) : List Action :=
  if r.settings.reporting then [.outcome signer error] else []

def inbox (signer : PublicKey) : List String := (r.request.inboxes.lookup signer).getD []

def listenRelays : List String := (r.request.ownInbox ++ r.settings.replyRelays).eraseDups

def shardDraft (signer : PublicKey) (payload : String) : Draft where
  author := r.dealer.publicKey
  createdAt := r.now
  kind := r.settings.kinds.shard
  tags := [["p", signer.hex], ["coordinator", r.request.coordinator],
    "reply" :: r.settings.replyRelays]
  content := payload

/-- The attempt fails: its share goes back and a failure is charged. -/
def fail (i : Nat) (signer : PublicKey) (s : KeyShare) (e : DistributionError) : Moved :=
  ({ r with
      progress := (r.progress.call (.reset (entry s))).2
      admission := (r.admission.fail i).2 }.setPhase i (.ended (.failed e)),
    r.tell signer (some e))

/-- The attempt succeeds, and its share is placed. -/
def succeed (i : Nat) (signer : PublicKey) (s : KeyShare) : Moved :=
  ({ r with admission := (r.admission.accept i (signer, s.publicShare.toHex)).2 }.setPhase i
      (.ended .accepted),
    r.tell signer none)

/-- Uses the miner, whose turn is in hand, unless the run has been aborted. -/
def useTurn (i : Nat) (s : KeyShare) (draft : Draft) : Moved :=
  if r.admission.aborted then
    ({ r with
        turn := r.turn.release
        progress := (r.progress.call (.reset (entry s))).2
        admission := r.admission.giveBack i }.setPhase i (.ended .abandoned), [])
  else (r.setPhase i (.mining s draft), [.mine i draft])

def awaitTurn (i : Nat) (s : KeyShare) (draft : Draft) : Moved :=
  match r.turn.takeUp? i with
  | some turn => { r with turn }.useTurn i s draft
  | none => (r, [])

def prepare (i : Nat) (signer : PublicKey) (s : KeyShare) : Moved :=
  if (r.inbox signer).isEmpty then
    ({ r with admission := r.admission.giveBack i }.setPhase i (.ended .unreachable),
      r.tell signer (some .signerUnreachable))
  else
    let (nonce, entropy) := r.entropy.draw
    let r := { r with entropy }
    match Payload.encrypt r.dealer signer nonce s.toHex.toUTF8.data.toList with
    | .error e => r.fail i signer s (.ofMessage e)
    | .ok payload =>
      let draft := r.shardDraft signer payload
      { r with turn := r.turn.request i }.setPhase i (.ready s draft) |>.awaitTurn i s draft

def awaitShare (i : Nat) (signer : PublicKey) : Moved :=
  match r.admission.resume i i with
  | (.share s, admission) => { r with admission }.prepare i signer s
  | (.refused, admission) => ({ r with admission }.setPhase i (.ended .refused), [])
  | (.blocked, _) => (r, [])

/-- Signs, publishes and listens, once the miner is done. -/
def send (i : Nat) (signer : PublicKey) (s : KeyShare) (mined : Draft) : Moved :=
  let (random, entropy) := r.entropy.draw
  let r := { r with entropy }
  match mined.sign r.dealer random with
  | .error e => r.fail i signer s (.ofMessage e)
  | .ok event =>
    let kind := r.settings.kinds.acknowledgement
    let filter := Delivery.ackFilter kind r.dealer.publicKey signer event
    let relays := r.inbox signer
    (r.setPhase i (.delivering s (Delivery.start event filter relays)),
      [.subscribe i r.listenRelays filter, .publish i relays event])

def minerDone (i : Nat) (signer : PublicKey) (s : KeyShare) (result : Except MessageError Draft) :
    Moved :=
  let r := { r with turn := r.turn.release }
  match result with
  | .ok mined => r.send i signer s mined
  | .error e => r.fail i signer s (.ofMessage e)

def deliver (i : Nat) (signer : PublicKey) (s : KeyShare) (d : Delivery) (x : Delivery.Input) :
    Moved :=
  let d := d.hear x
  match d.verdict? with
  | none => (r.setPhase i (.delivering s d), [])
  | some (.ok ()) => r.succeed i signer s
  | some (.error e) => r.fail i signer s e

def stepAttempt (i : Nat) (a : Attempt) : Stimulus → Moved
  | .advance _ =>
    match a.phase with
    | .idle =>
      { r with admission := r.admission.wait i }.setPhase i .queued |>.awaitShare i a.signer
    | .queued => r.awaitShare i a.signer
    | .ready s draft => r.awaitTurn i s draft
    | _ => (r, [])
  | .work _ difficulty =>
    match a.phase with
    | .mining s _ =>
      let (percent, progress) := r.progress.call (.update (entry s) difficulty)
      ({ r with progress },
        if r.settings.reporting then percent.toList.map Action.progress else [])
    | _ => (r, [])
  | .mined _ result =>
    match a.phase with
    | .mining s _ => r.minerDone i a.signer s result
    | _ => (r, [])
  | .hear _ x =>
    match a.phase with
    | .delivering s d => r.deliver i a.signer s d x
    | _ => (r, [])
  | _ => (r, [])

def finish (result : Except DistributionError Record) : Moved :=
  ({ r with stage := .finished result }, [])

def announce (placed : List (PublicKey × String)) : Moved :=
  match KeyPair.generate r.entropy with
  | (none, _) => r.finish (.error (.ofKey .invalidSecret))
  | (some handler, entropy) =>
    let (random, entropy) := entropy.draw
    let r := { r with entropy }
    match Record.build r.dealer r.now r.settings.kinds.registration placed r.request.threshold
        handler random with
    | .error e => r.finish (.error e)
    | .ok record =>
      ({ r with stage := .announcing record none },
        [.announce [r.request.coordinator] record.event])

/-- What the dealer is told when the coordinator does not take the record. -/
def refusalMessage (refusal : Option String) : String :=
  let reason := refusal.getD "coordinator did not respond"
  if "Error:".toList.isPrefixOf reason.toList then reason else "Error: " ++ reason

def step (x : Stimulus) : Moved :=
  match r.stage, x with
  | .delivering, .conclude =>
    if r.attempts.all (·.phase.hasEnded) then
      match r.admission.finish with
      | .ok placed => r.announce placed
      | .error e => r.finish (.error e)
    else (r, [])
  | .delivering, .advance i | .delivering, .work i _ | .delivering, .mined i _
  | .delivering, .hear i _ =>
    match r.attempts[i]? with
    | some a => r.stepAttempt i a x
    | none => (r, [])
  | .announcing record _, .coordinatorAnswer a =>
    match a.refusal with
    | none => r.finish (.ok record)
    | some reason => ({ r with stage := .announcing record (some reason) }, [])
  | .announcing _ refusal, .coordinatorEnd =>
    r.finish (.error (.coordinatorPublishFailure (refusalMessage refusal)))
  | _, _ => (r, [])

/-- The run after a list of stimuli, and all it asked and told on the way. -/
def steps : Run → List Stimulus → Moved
  | r, [] => (r, [])
  | r, x :: rest =>
    let (r, actions) := r.step x
    let (r, more) := r.steps rest
    (r, actions ++ more)

def result? : Option (Except DistributionError Record) :=
  match r.stage with
  | .finished result => some result
  | _ => none

def start (dealer : KeyPair) (settings : Settings) (request : Request) (now : Timestamp)
    (shares : List KeyShare) (entropy : Entropy) : Except DistributionError Run :=
  let required := request.maxSigners.toNat
  let candidates := request.candidates.eraseDups
  if request.threshold = 0 ∨ request.maxSigners < request.threshold ∨ shares.length ≠ required then
    .error .invalidParameters
  else if candidates.length < required then
    .error (.insufficientSigners 0 required)
  else .ok {
    dealer, settings, request, now, entropy
    admission := Admission.start shares candidates.length
    progress := Progress.start request.difficulty required
    attempts := candidates.map fun signer => { signer } }

/-- A run that deals the dealer's own secret and is to place its shares. -/
def startDealing (dealer : KeyPair) (settings : Settings) (request : Request) (now : Timestamp)
    (entropy : Entropy) : Except DistributionError Run :=
  match Dealing.deal dealer.secret request.threshold request.maxSigners entropy with
  | .error e => .error (.ofSharing e)
  | .ok (dealing, entropy) =>
    if PublicKey.ofPoint? dealing.group = some dealer.publicKey then
      start dealer settings request now dealing.shares entropy
    else .error (.crypto .foreignGroup)

end Run

end KeyQuorum
