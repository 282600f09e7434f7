/-!
Permits handed out in the order they were asked for.

Whoever asks takes a free permit, or waits in a queue when there is none. A permit that is
given back goes to the head of the queue, if there is one, and stays reserved for it until it
is taken up. So no permit is free while somebody waits.
-/

namespace KeyQuorum

/-- The queue has the tickets that wait, oldest first; those in `granted` have a permit reserved for
them. -/
structure Permits where
  free : Nat
  queue : List Nat := []
  granted : List Nat := []
  deriving DecidableEq, Repr

namespace Permits

def take? (p : Permits) : Option Permits :=
  match p.free with
  | 0 => none
  | n + 1 => some { p with free := n }

def request (p : Permits) (ticket : Nat) : Permits :=
  match p.free with
  | 0 => { p with queue := p.queue ++ [ticket] }
  | n + 1 => { p with free := n, granted := p.granted ++ [ticket] }

def release (p : Permits) : Permits :=
  match p.queue with
  | [] => { p with free := p.free + 1 }
  | t :: rest => { p with queue := rest, granted := p.granted ++ [t] }

def takeUp? (p : Permits) (ticket : Nat) : Option Permits :=
  if ticket ∈ p.granted then some { p with granted := p.granted.erase ticket } else none

/-- Gives a request up; a permit already reserved for it is given back. -/
def withdraw (p : Permits) (ticket : Nat) : Permits :=
  match p.takeUp? ticket with
  | some p => p.release
  | none => { p with queue := p.queue.erase ticket }

end Permits

end KeyQuorum
