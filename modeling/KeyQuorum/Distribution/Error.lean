import KeyQuorum.Event.Basic
import KeyQuorum.Sharing.Wire

/-!
What can go wrong when a key is distributed, and how errors of the parts become errors of the
whole.
-/

namespace KeyQuorum

/-- Why an event is no coordination record. -/
inductive RecordFault where
  | unexpectedKind
  | badSignature
  | missingHandlerSecret
  | badHandlerSecret
  | missingHandlerKey
  | handlerMismatch
  | missingThreshold
  | thresholdOutOfRange
  | signerTagLength
  | badSignerKey
  | tooFewSigners
  deriving DecidableEq, Repr

def RecordFault.message : RecordFault → String
  | .unexpectedKind => "unexpected kind"
  | .badSignature => "bad signature"
  | .missingHandlerSecret => "missing handler secret"
  | .badHandlerSecret => "bad handler secret"
  | .missingHandlerKey => "missing handler pubkey"
  | .handlerMismatch => "handler secret does not match pubkey"
  | .missingThreshold => "missing threshold"
  | .thresholdOutOfRange => "threshold out of range"
  | .signerTagLength => "p tag must have 3 items"
  | .badSignerKey => "bad signer pubkey"
  | .tooFewSigners => "fewer signers than threshold"

/-- A failure of the cryptographic parts. -/
inductive CryptoFault where
  | sharing (e : SharingError)
  | key (e : KeyError)
  | messaging (e : MessageError)
  /-- The dealt group point is not the one the dealer's key names. -/
  | foreignGroup
  deriving DecidableEq, Repr

def CryptoFault.message : CryptoFault → String
  | .sharing e => e.message
  | .key e => e.message
  | .messaging e => e.message
  | .foreignGroup => "group key does not match dealer key"

inductive DistributionError where
  | invalidParameters
  | malformedEncoding (e : WireError)
  | signerUnreachable
  | deliveryTimeout
  | publishFailure (reason : String)
  | insufficientSigners (accepted required : Nat)
  | coordinatorPublishFailure (message : String)
  | mining (reason : String)
  | crypto (fault : CryptoFault)
  | invalidRecord (fault : RecordFault)
  deriving DecidableEq, Repr

namespace DistributionError

def message : DistributionError → String
  | .invalidParameters => "invalid number of signers or threshold"
  | .malformedEncoding e => e.message
  | .signerUnreachable => "signer has no known relays"
  | .deliveryTimeout => "timed out waiting for acknowledgement"
  | .publishFailure reason => "publish failed: " ++ reason
  | .insufficientSigners accepted required =>
    "not enough signers accepted: " ++ toString accepted ++ " of " ++ toString required
  | .coordinatorPublishFailure message => message
  | .mining reason => "mining failed: " ++ reason
  | .crypto fault => "crypto failure: " ++ fault.message
  | .invalidRecord fault => "invalid coordination record: " ++ fault.message

def ofSharing : SharingError → DistributionError
  | .invalidParameters => .invalidParameters
  | e => .crypto (.sharing e)

def ofKey (e : KeyError) : DistributionError := .crypto (.key e)

def ofWire (e : WireError) : DistributionError := .malformedEncoding e

def ofMessage : MessageError → DistributionError
  | .publishFailed reason => .publishFailure reason
  | .mining reason => .mining reason
  | e => .crypto (.messaging e)

end DistributionError

end KeyQuorum
