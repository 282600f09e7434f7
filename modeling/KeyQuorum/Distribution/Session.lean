import KeyQuorum.Distribution.Admission

/-!
An admission worked step by step, with slots and waiting claims numbered as they come.

After each step every waiting claim whose turn has come goes on, the oldest first, until none
can.
-/

namespace KeyQuorum

structure Session (α β : Type) where
  admission : Admission α β
  slots : Nat := 0
  tickets : Nat := 0

namespace Session

variable {α β : Type}

inductive Step (β : Type) where
  | claim
  | wait
  | cancel (ticket : Nat)
  | fail (slot : Nat)
  | giveBack (slot : Nat)
  | accept (slot : Nat) (receipt : β)

inductive Reply (α : Type) where
  | claimed (slot : Nat) (s : α)
  | refused
  | blocked
  | waiting (ticket : Nat)
  | failed (spent : Bool)
  | accepted (quorum : Bool)
  | done

/-- A waiting claim that went on: its ticket, and its slot and share unless it was refused. -/
structure Woken (α : Type) where
  ticket : Nat
  slot : Option (Nat × α)

/-- The session after a claim that was to fill the next slot, and what it came to. -/
def filled (s : Session α β) : Claim α × Admission α β → Reply α × Session α β
  | (.share x, a) => (.claimed s.slots x, { s with admission := a, slots := s.slots + 1 })
  | (.refused, a) => (.refused, { s with admission := a })
  | (.blocked, a) => (.blocked, { s with admission := a })

def perform (s : Session α β) : Step β → Reply α × Session α β
  | .claim => s.filled (s.admission.claim s.slots)
  | .wait =>
    (.waiting s.tickets,
      { s with admission := s.admission.wait s.tickets, tickets := s.tickets + 1 })
  | .cancel ticket => (.done, { s with admission := s.admission.cancel ticket })
  | .fail slot =>
    let (spent, a) := s.admission.fail slot
    (.failed spent, { s with admission := a })
  | .giveBack slot => (.done, { s with admission := s.admission.giveBack slot })
  | .accept slot receipt =>
    let (quorum, a) := s.admission.accept slot receipt
    (.accepted quorum, { s with admission := a })

/-- Lets up to `count` waiting claims go on. -/
def wake : (count : Nat) → Session α β → List (Woken α) × Session α β
  | 0, s => ([], s)
  | count + 1, s =>
    match s.admission.permits.granted with
    | [] => ([], s)
    | ticket :: _ =>
      let (reply, s) := s.filled (s.admission.resume ticket s.slots)
      let slot := match reply with
        | .claimed slot x => some (slot, x)
        | _ => none
      let (woken, s) := wake count s
      (⟨ticket, slot⟩ :: woken, s)

/-- The number of claims that wait. -/
def waiting (s : Session α β) : Nat :=
  s.admission.permits.queue.length + s.admission.permits.granted.length

def step (s : Session α β) (x : Step β) : Reply α × List (Woken α) × Session α β :=
  let (reply, s) := s.perform x
  let (woken, s) := wake s.waiting s
  (reply, woken, s)

def start (shares : List α) (candidates : Nat) : Session α β :=
  { admission := Admission.start shares candidates }

def run (s : Session α β) (xs : List (Step β)) : Session α β :=
  xs.foldl (fun s x => (s.step x).2.2) s

end Session

end KeyQuorum
