import KeyQuorum.Distribution.Error
import KeyQuorum.Event.Filter
import KeyQuorum.Message.Publishing

/-!
The delivery of one share: its event is published while the signer's acknowledgement is
listened for, both under one deadline.

The delivery succeeds once a relay has accepted the event and a genuine acknowledgement has
come, in either order. It fails as soon as no relay is left to accept, the replies end without
an acknowledgement, or the deadline passes.
-/

namespace KeyQuorum

/-- How far a signer's clock may be behind, in seconds. -/
def clockSkew : Timestamp := 300

inductive Acknowledgement where
  | awaited
  | received
  | missed
  deriving DecidableEq, Repr

structure Delivery where
  event : Event
  filter : Filter
  publishing : Publishing
  acknowledgement : Acknowledgement := .awaited

namespace Delivery

inductive Input where
  | answer (a : RelayAnswer)
  | answersEnd
  | reply (e : Event)
  | repliesEnd
  | deadline

def ackFilter (kind : UInt16) (dealer signer : PublicKey) (shard : Event) : Filter where
  kinds := [kind]
  authors := [signer]
  pTags := [dealer.hex]
  eTags := [shard.idHex]
  since := some (if shard.draft.createdAt < clockSkew then 0 else shard.draft.createdAt - clockSkew)

def start (shard : Event) (filter : Filter) (relays : List String) : Delivery :=
  ⟨shard, filter, Publishing.start relays, .awaited⟩

/-- Whether an event acknowledges the shard: it meets the filter and is signed by its author. -/
def genuine (d : Delivery) (e : Event) : Bool := d.filter.accepts e && e.verify

def verdict? (d : Delivery) : Option (Except DistributionError Unit) :=
  match d.publishing, d.acknowledgement with
  | .failed reason, _ => some (.error (.publishFailure reason))
  | _, .missed => some (.error .deliveryTimeout)
  | .accepted _, .received => some (.ok ())
  | _, _ => none

def hear (d : Delivery) : Input → Delivery
  | .answer a => { d with publishing := d.publishing.receive a }
  | .answersEnd => { d with publishing := d.publishing.close }
  | .reply e =>
    if d.acknowledgement = .awaited ∧ d.genuine e then { d with acknowledgement := .received }
    else d
  | .repliesEnd =>
    if d.acknowledgement = .awaited then { d with acknowledgement := .missed } else d
  | .deadline => { d with acknowledgement := .missed }

/-- Hears inputs until the delivery has ended. -/
def hearAll (d : Delivery) : List Input → Delivery
  | [] => d
  | x :: rest => if d.verdict?.isSome then d else (d.hear x).hearAll rest

end Delivery

end KeyQuorum
