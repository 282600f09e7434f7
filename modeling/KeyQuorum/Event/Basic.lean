import KeyQuorum.Key.Signature
import KeyQuorum.Text.Json

/-!
Events, the signed messages of the network.

A draft names its author, time, kind, tags and content. Its id is the hash of the compact JSON
array of these after a leading zero, and an event is a draft with its id and a signature of the
id under the author's key. A tag is a list of texts whose first item is the tag's name.
-/

namespace KeyQuorum

inductive MessageError where
  | publishFailed (reason : String)
  | invalidEvent
  | encryption
  | decryption
  | key (e : KeyError)
  | mining (reason : String)
  deriving DecidableEq, Repr

def MessageError.message : MessageError → String
  | .publishFailed reason => "publish failed: " ++ reason
  | .invalidEvent => "invalid event"
  | .encryption => "encryption failed"
  | .decryption => "decryption failed"
  | .key e => e.message
  | .mining reason => "mining failed: " ++ reason

/-- Seconds since 1970. -/
abbrev Timestamp := UInt64

/-- The timestamp of a clock that may stand before 1970, which counts as 1970. -/
def Timestamp.ofClock (seconds : Int) : Timestamp := UInt64.ofNat seconds.toNat

abbrev Tag := List String

namespace Tag

def named (name : String) (t : Tag) : Bool := t.head? = some name

def first? (name : String) (tags : List Tag) : Option Tag := tags.find? (named name)

def all (name : String) (tags : List Tag) : List Tag := tags.filter (named name)

def value? (name : String) (tags : List Tag) : Option String := (first? name tags).bind (·[1]?)

end Tag

structure Draft where
  author : PublicKey
  createdAt : Timestamp
  kind : UInt16
  tags : List Tag
  content : String
  deriving DecidableEq

structure Event where
  draft : Draft
  id : Block 32
  signature : Signature
  deriving DecidableEq

namespace Draft

/-- The text whose hash is the id. -/
def idText (d : Draft) : Json.Text :=
  Json.array [Json.number 0, Json.string d.author.hex, Json.number d.createdAt.toNat,
    Json.number d.kind.toNat, Json.array (d.tags.map Json.strings), Json.string d.content]

def id (d : Draft) : Block 32 := Sha256.hash (Json.utf8 d.idText)

/-- Signs a draft of the signer's own. -/
def sign (d : Draft) (k : KeyPair) (random : Block 32) : Except MessageError Event :=
  if k.publicKey = d.author then
    match Signature.sign k random d.id with
    | .ok sig => .ok ⟨d, d.id, sig⟩
    | .error e => .error (.key e)
  else .error .invalidEvent

end Draft

namespace Event

def idHex (e : Event) : String := Hex.encode e.id.bytes

/-- Whether the id is the draft's and the author signed it. -/
def verify (e : Event) : Bool :=
  e.draft.id = e.id && Signature.verify e.draft.author e.id e.signature

/-- The event as compact JSON, its fields in alphabetical order. -/
def toJson (e : Event) : Json.Text :=
  Json.object [("content", Json.string e.draft.content),
    ("created_at", Json.number e.draft.createdAt.toNat),
    ("id", Json.string e.idHex),
    ("kind", Json.number e.draft.kind.toNat),
    ("pubkey", Json.string e.draft.author.hex),
    ("sig", Json.string (Hex.encode e.signature.bytes)),
    ("tags", Json.array (e.draft.tags.map Json.strings))]

end Event

/-- A signed draft verifies, and keeps what it says. -/
theorem Draft.verify_of_sign {d : Draft} {k : KeyPair} {random : Block 32} {e : Event}
    (h : d.sign k random = .ok e) : e.verify = true ∧ e.draft = d := by
  unfold Draft.sign at h
  split at h
  · next hk =>
    split at h
    · next hs =>
      cases h
      have := Signature.verify_of_sign hs
      exact ⟨by simp [Event.verify, ← hk, this], rfl⟩
    · cases h
  · cases h

end KeyQuorum
