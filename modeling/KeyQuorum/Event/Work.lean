import KeyQuorum.Event.Basic

/-!
Proof of work on events: the more zero bits an id starts with, the more work went into it.

Mining gives a draft one `nonce` tag at its end, naming a number and the difficulty aimed at,
and counts the number up from zero until the id is difficult enough. On the way it reports each
new record, none higher than the aim.
-/

namespace KeyQuorum.Work

def leadingZeros : Bytes → Nat
  | [] => 0
  | b :: bs => if b = 0 then 8 + leadingZeros bs else 7 - b.toNat.log2

def difficulty (id : Block 32) : Nat := leadingZeros id.bytes

/-- The draft without the work done on it before. -/
def unworked (d : Draft) : Draft := { d with tags := d.tags.filter fun t => !Tag.named "nonce" t }

def stamp (d : Draft) (aim nonce : Nat) : Draft :=
  { d with tags := d.tags ++ [["nonce", toString nonce, toString aim]] }

/-- What mining leaves behind: the draft and the records reported on the way. -/
structure Mined where
  draft : Draft
  reports : List Nat

/-- Tries `count` nonces from `nonce` on. The record so far is `best`, and `reports` holds what
was reported, latest first. -/
def search (d : Draft) (aim : Nat) : (count nonce best : Nat) → (reports : List Nat) → Option Mined
  | 0, _, _, _ => none
  | count + 1, nonce, best, reports =>
    let candidate := stamp d aim nonce
    let achieved := difficulty candidate.id
    let reports := if achieved > best then min achieved aim :: reports else reports
    if achieved ≥ aim then some ⟨candidate, reports.reverse⟩
    else search d aim count (nonce + 1) (max best achieved) reports

/-- Mines a draft, with nonces below `2 ^ 64`. Where none of these is sufficient, a miner would set
the time of the draft a second later and start over; here the search ends, with an error of its
own. -/
def mine (d : Draft) (aim : Nat) : Except MessageError Mined :=
  if aim > 256 then
    .error (.mining ("difficulty " ++ toString aim ++ " exceeds 256"))
  else
    match search (unworked d) aim UInt64.size 0 0 [] with
    | some m => .ok m
    | none => .error (.mining "nonces exhausted")

end KeyQuorum.Work
