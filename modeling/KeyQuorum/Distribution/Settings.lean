import KeyQuorum.Key.Public

/-!
What a distribution is asked to do, and the settings it works under.
-/

namespace KeyQuorum

/-- The kinds of the events that are exchanged. -/
structure EventKinds where
  shard : UInt16 := 26428
  acknowledgement : UInt16 := 26429
  registration : UInt16 := 16430
  deriving DecidableEq, Repr

def defaultRelays : List String :=
  ["wss://relay.primal.net", "wss://pyramid.fiatjaf.com", "wss://relay.damus.io",
    "wss://nostr-pub.wellorder.net"]

/-- The settings: the time to wait for an acknowledgement (in milliseconds), the relays to fall back
on, the kinds of events, and whether progress and outcomes are reported. -/
structure Settings where
  ackTimeout : Nat := 7000
  fallbackRelays : List String := defaultRelays
  kinds : EventKinds := {}
  reporting : Bool := true

def Settings.replyRelays (s : Settings) : List String :=
  if s.fallbackRelays.isEmpty then defaultRelays else s.fallbackRelays

/-- What is asked for. The candidates are the signers to be asked, the preferred ones first; the
coordinator is the relay that takes the record; an inbox is the relays that a key is known to read.
-/
structure Request where
  threshold : UInt32
  maxSigners : UInt32
  candidates : List PublicKey
  coordinator : String
  difficulty : Nat
  inboxes : List (PublicKey × List String)
  ownInbox : List String

end KeyQuorum
