/-!
How far the mining of all shares has come.

Each share has an entry with the best difficulty its current attempt has reached. Work grows
steeply with difficulty, so an entry counts with its cube relative to the target's, at most
one, and the progress is the mean over the shares in percent. It is told anew whenever a
difficulty is recorded, and not when an entry is cleared.
-/

namespace KeyQuorum

structure Progress where
  best : List Nat
  target : Nat

namespace Progress

def toFloat (n : Nat) : Float := (UInt64.ofNat n).toFloat

def cube (n : Nat) : Float := toFloat n * toFloat n * toFloat n

def percentOf (best : List Nat) (target shares : Nat) : Float :=
  if target = 0 ∨ shares = 0 then 100
  else
    let whole := cube target
    let sum := best.foldl (fun sum b => sum + min (cube b / whole) 1) 0
    min (sum / toFloat shares * 100) 100

def start (target shares : Nat) : Progress := ⟨List.replicate shares 0, target⟩

def percent (p : Progress) : Float := percentOf p.best p.target p.best.length

/-- Sets an entry; one that does not exist is left alone. -/
def set (p : Progress) (entry difficulty : Nat) : Progress :=
  { p with best := p.best.set entry difficulty }

inductive Call where
  | update (entry difficulty : Nat)
  | reset (entry : Nat)

/-- What a miner reports with: the difficulties it calls this with are recorded in one entry. -/
def reporter (entry : Nat) : (difficulty : Nat) → Call := .update entry

/-- What is told, if anything, and the progress from then on. -/
def call (p : Progress) : Call → Option Float × Progress
  | .update entry difficulty =>
    let p := p.set entry difficulty
    (some p.percent, p)
  | .reset entry => (none, p.set entry 0)

/-- All that is told during a list of calls. -/
def told : Progress → List Call → List Float
  | _, [] => []
  | p, c :: rest => (p.call c).1.toList ++ told (p.call c).2 rest

end Progress

end KeyQuorum
