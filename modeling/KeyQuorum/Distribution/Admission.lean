import KeyQuorum.Distribution.Error
import KeyQuorum.Distribution.Permits

/-!
Which attempt may deliver which share.

The shares to be placed lie in a pool, and there is a permit for each. An attempt that gets a
permit takes the share at the front of the pool into a slot. A slot ends in one of three ways:
its share is accepted and gone for good, with its permit; or the share returns to the back of
the pool and the permit is free again, with or without a failure charged. One failure more than
there are candidates to spare aborts the run, and from then on no share is given out. The last
acceptance frees its permit, so that whoever still waits is sent away.
-/

namespace KeyQuorum

/-- In `held` are the slots with the shares they hold, oldest slot first, and in `accepted` is what
was recorded at each acceptance, in order; `budget` is how many failures there may be. -/
structure Admission (α β : Type) where
  required : Nat
  budget : Nat
  pool : List α
  permits : Permits
  held : List (Nat × α) := []
  failures : Nat := 0
  aborted : Bool
  accepted : List β := []

/-- What comes of asking for a share: there may be none to be had, or no permit yet. -/
inductive Claim (α : Type) where
  | share (s : α)
  | refused
  | blocked
  deriving DecidableEq

namespace Admission

variable {α β : Type}

def start (shares : List α) (candidates : Nat) : Admission α β where
  required := shares.length
  budget := candidates - shares.length
  pool := shares
  permits := ⟨shares.length, [], []⟩
  aborted := candidates < shares.length

variable (a : Admission α β)

def releasePermit : Admission α β := { a with permits := a.permits.release }

/-- Fills a slot, with a permit in hand. -/
def fill (slot : Nat) : Claim α × Admission α β :=
  if a.aborted then (.refused, a.releasePermit)
  else
    match a.pool with
    | [] => (.refused, a.releasePermit)
    | s :: rest => (.share s, { a with pool := rest, held := a.held ++ [(slot, s)] })

def claim (slot : Nat) : Claim α × Admission α β :=
  match a.permits.take? with
  | some permits => { a with permits }.fill slot
  | none => (.blocked, a)

/-- Asks for a permit under a ticket, which a later `resume` takes up. -/
def wait (ticket : Nat) : Admission α β := { a with permits := a.permits.request ticket }

def resume (ticket slot : Nat) : Claim α × Admission α β :=
  match a.permits.takeUp? ticket with
  | some permits => { a with permits }.fill slot
  | none => (.blocked, a)

def cancel (ticket : Nat) : Admission α β := { a with permits := a.permits.withdraw ticket }

/-- The admission without a slot, whose share and permit are in hand. -/
def vacate (slot : Nat) : Admission α β := { a with held := a.held.filter (·.1 ≠ slot) }

def giveBack (slot : Nat) : Admission α β :=
  match a.held.lookup slot with
  | none => a
  | some s => { a.vacate slot with pool := a.pool ++ [s] }.releasePermit

/-- Charges a failure and returns the slot's share and permit. Tells whether failures now exceed
the budget. -/
def fail (slot : Nat) : Bool × Admission α β :=
  match a.held.lookup slot with
  | none => (false, a)
  | some _ =>
    let failures := a.failures + 1
    let spent := decide (a.budget < failures)
    (spent, { a with failures, aborted := a.aborted || spent }.giveBack slot)

/-- Records an acceptance. Tells whether all shares are placed; only then the permit is freed. -/
def accept (slot : Nat) (receipt : β) : Bool × Admission α β :=
  match a.held.lookup slot with
  | none => (false, a)
  | some _ =>
    let accepted := a.accepted ++ [receipt]
    let a := { a.vacate slot with accepted }
    if a.required ≤ accepted.length then (true, a.releasePermit) else (false, a)

def finish : Except DistributionError (List β) :=
  if a.aborted || !a.pool.isEmpty || a.accepted.length < a.required then
    .error (.insufficientSigners a.accepted.length a.required)
  else .ok a.accepted

def close : Admission α β := (a.held.map Prod.fst).foldl giveBack a

end Admission

end KeyQuorum
