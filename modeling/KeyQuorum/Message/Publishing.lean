import KeyQuorum.Event.Basic

/-!
Publishing to whichever relay accepts first.

Relays answer one after the other, each accepting the event or giving a reason against it. The
first acceptance settles the matter; when the answers run out, all reasons are told.
-/

namespace KeyQuorum

/-- A relay's answer, with its reason if it refuses. -/
structure RelayAnswer where
  relay : String
  refusal : Option String
  deriving DecidableEq, Repr

inductive Publishing where
  | pending (reasons : List String)
  | accepted (relay : String)
  | failed (reason : String)
  deriving DecidableEq, Repr

namespace Publishing

def start (relays : List String) : Publishing :=
  if relays.isEmpty then .failed "no relays" else .pending []

def receive (a : RelayAnswer) : Publishing → Publishing
  | .pending reasons =>
    match a.refusal with
    | none => .accepted a.relay
    | some reason => .pending (reasons ++ [a.relay ++ ": " ++ reason])
  | p => p

def close : Publishing → Publishing
  | .pending reasons => .failed (String.intercalate "; " reasons)
  | p => p

def isPending : Publishing → Bool
  | .pending _ => true
  | _ => false

/-- Takes answers until the matter is settled, and counts those taken. -/
def receiveAll : Publishing → List RelayAnswer → Publishing × Nat
  | .pending reasons, a :: rest =>
    let (p, taken) := receiveAll (receive a (.pending reasons)) rest
    (p, taken + 1)
  | p, _ => (p.close, 0)

/-- The relay that accepted, or why there is none. -/
def result : Publishing → Except MessageError String
  | .accepted relay => .ok relay
  | .failed reason => .error (.publishFailed reason)
  | .pending _ => .error (.publishFailed "")

end Publishing

end KeyQuorum
