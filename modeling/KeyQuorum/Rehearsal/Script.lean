import KeyQuorum.Distribution.Run

/-!
A scripted network, to rehearse a distribution on.

The script says what each relay answers and after which delay, what each signer sends back once
its events are listened for, and how the miner behaves. Delays are in milliseconds.
-/

namespace KeyQuorum

/-- An acknowledgement that a signer sends so many milliseconds after the one before it. What is
left out is as it should be; its time may be skewed by some seconds, and its content altered after
it was signed. -/
structure ScriptedAck where
  after : Nat := 0
  sender : Option Nat := none
  kind : Option UInt16 := none
  recipient : Option String := none
  reference : Option String := none
  skew : Int := 0
  altered : Bool := false

structure ScriptedSigner where
  keys : KeyPair
  inbox : Option (List String)
  acks : List ScriptedAck := [{}]
  hangsUp : Bool := false

/-- What the miner does. One that yields or is slow reports half the aim first, and one that steals
puts another author's key on the draft. -/
inductive ScriptedMiner where
  | instant (reports : List Nat) (createdAt : Option Timestamp)
  | working
  | yielding
  | slow (delay : Nat)
  | failing (reason : String)
  | failingFor (signer reason : String)
  | stealing (owner : String)

/-- The script: each relay has its delays and refusals in order, and one that is not named accepts
at once. The signers sign with the randomness given. -/
structure Script where
  signers : List ScriptedSigner
  relays : List (String × List (Nat × Option String))
  miner : ScriptedMiner
  random : Block 32

namespace Script

def inboxes (s : Script) : List (PublicKey × List String) :=
  s.signers.reverse.filterMap fun x => x.inbox.map fun relays => (x.keys.publicKey, relays)

def answers (s : Script) (relays : List String) : List (Nat × RelayAnswer) :=
  relays.flatMap fun relay =>
    ((s.relays.lookup relay).getD [(0, none)]).map fun x => (x.1, ⟨relay, x.2⟩)

/-- An acknowledgement as the signer's event, for a subscription with the given filter. -/
def ackEvent? (s : Script) (now : Timestamp) (kind : UInt16) (filter : Filter)
    (signer : ScriptedSigner) (a : ScriptedAck) : Option Event := do
  let sender ← match a.sender with
    | some i => s.signers[i]?
    | none => some signer
  let draft : Draft := {
    author := sender.keys.publicKey
    createdAt := Timestamp.ofClock (now.toNat + a.skew)
    kind := a.kind.getD kind
    tags := [["p", a.recipient.getD (filter.pTags.headD "")],
      ["e", a.reference.getD (filter.eTags.headD "")]]
    content := "" }
  let event ← (draft.sign sender.keys s.random).toOption
  return if a.altered then { event with draft := { draft with content := "!" } } else event

/-- The number of the signer whose stream a filter subscribes to. -/
def source? (s : Script) (filter : Filter) : Option Nat :=
  filter.authors.head?.bind fun k => s.signers.findIdx? (·.keys.publicKey = k)

/-- How many moves a rehearsal with so many attempts can take. -/
def moves (s : Script) (attempts : Nat) : Nat :=
  let refusals := s.relays.foldr (fun x n => x.2.length + 1 + n) 0 + 1
  let inboxes := s.signers.foldr (fun x n => (x.inbox.getD []).length + n) 0 + 1
  let acks := s.signers.foldr (fun x n => x.acks.length + n) 0
  2 * (attempts + 1) * (16 + inboxes * refusals + acks)

end Script

end KeyQuorum
