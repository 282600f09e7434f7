import KeyQuorum.Distribution.Error

/-!
Coordination records: which signer holds which share of a key.

A record is an event of the dealer's. Its tags name each signer with the text of the public
share it took, the threshold, and a fresh key pair for whoever handles requests to the group.
Reading a record checks all of it, in a fixed order.
-/

namespace KeyQuorum

structure Record where
  signers : List (PublicKey × String)
  threshold : UInt32
  handler : KeyPair
  event : Event

namespace Record

def maxThreshold : UInt32 := 20

def tags (signers : List (PublicKey × String)) (threshold : UInt32) (handler : KeyPair) :
    List Tag :=
  signers.map (fun s => ["p", s.1.hex, s.2]) ++
    [["threshold", toString threshold.toNat], ["handlersecret", handler.secretHex],
      ["h", handler.publicKey.hex]]

def build (dealer : KeyPair) (now : Timestamp) (kind : UInt16) (signers : List (PublicKey × String))
    (threshold : UInt32) (handler : KeyPair) (random : Block 32) :
    Except DistributionError Record :=
  let draft : Draft := ⟨dealer.publicKey, now, kind, tags signers threshold handler, ""⟩
  match draft.sign dealer random with
  | .ok event => .ok ⟨signers, threshold, handler, event⟩
  | .error e => .error (.ofMessage e)

abbrev Reading := Except (Halt DistributionError)

def invalid {α : Type} (f : RecordFault) : Reading α := .error (.refused (.invalidRecord f))

/-- The key pair of the handler, which must be the one announced. -/
def readHandler (tags : List Tag) : Reading KeyPair :=
  match Tag.value? "handlersecret" tags with
  | none => invalid .missingHandlerSecret
  | some secret =>
    match KeyPair.ofHex secret with
    | .error _ => invalid .badHandlerSecret
    | .ok handler =>
      match Tag.value? "h" tags with
      | none => invalid .missingHandlerKey
      | some announced =>
        if handler.publicKey.hex = announced then .ok handler else invalid .handlerMismatch

def readThreshold (tags : List Tag) : Reading UInt32 :=
  match (Tag.value? "threshold" tags).bind fun t => Decimal.decode UInt32.size t.toList with
  | none => invalid .missingThreshold
  | some n =>
    let threshold := UInt32.ofNat n
    if threshold = 0 ∨ maxThreshold < threshold then invalid .thresholdOutOfRange
    else .ok threshold

def readSigner : Tag → Reading (PublicKey × String)
  | [_, signer, share] =>
    match PublicKey.ofHex signer with
    | .error (.refused _) => invalid .badSignerKey
    | .error .halted => .error .halted
    | .ok key =>
      match PublicShare.ofHex share with
      | .error e => .error (.refused (.ofWire e))
      | .ok _ => .ok (key, share)
  | _ => invalid .signerTagLength

def readSigners : List Tag → Reading (List (PublicKey × String))
  | [] => .ok []
  | t :: rest => do
    let s ← readSigner t
    let ss ← readSigners rest
    return s :: ss

/-- Reads a record of a kind off an event. -/
def ofEvent (event : Event) (kind : UInt16) : Reading Record := do
  if event.draft.kind ≠ kind then invalid .unexpectedKind
  if !event.verify then invalid .badSignature
  let handler ← readHandler event.draft.tags
  let threshold ← readThreshold event.draft.tags
  let signers ← readSigners (Tag.all "p" event.draft.tags)
  if signers.length < threshold.toNat then invalid .tooFewSigners
  return ⟨signers, threshold, handler, event⟩

def publicShares (r : Record) : Except DistributionError (List (PublicKey × PublicShare)) :=
  r.signers.mapM fun s =>
    match PublicShare.ofHex s.2 with
    | .ok share => .ok (s.1, share)
    | .error e => .error (.ofWire e)

end Record

end KeyQuorum
