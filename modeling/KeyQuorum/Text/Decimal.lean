/-!
Decimal text of natural numbers.

A number is written with its digits only. A number read may carry one plus sign in front; the
rest must be digits, at least one, and the value must stay below a bound.
-/

namespace KeyQuorum.Decimal

def encode (n : Nat) : List Char := Nat.toDigits 10 n

def digit? (c : Char) : Option Nat :=
  if '0' ≤ c ∧ c ≤ '9' then some (c.toNat - 48) else none

/-- The value of a run of digits, read after a part worth `acc`. -/
def value (acc : Nat) : List Char → Option Nat
  | [] => some acc
  | c :: cs => do value (10 * acc + (← digit? c)) cs

def decodeDigits : List Char → Option Nat
  | [] => none
  | c :: cs => value 0 (c :: cs)

/-- Reads a number below `bound`. -/
def decode (bound : Nat) (s : List Char) : Option Nat := do
  let n ← decodeDigits (match s with | '+' :: rest => rest | _ => s)
  if n < bound then some n else none

theorem digit?_digitChar : ∀ d < 10, digit? (Nat.digitChar d) = some d := by decide

theorem value_append (acc : Nat) (cs ds : List Char) :
    value acc (cs ++ ds) = (value acc cs).bind fun n => value n ds := by
  induction cs generalizing acc with
  | nil => rfl
  | cons c cs ih =>
    rw [List.cons_append, value, value]
    cases digit? c with
    | none => rfl
    | some d => exact ih _

theorem value_encode (n : Nat) : value 0 (encode n) = some n := by
  induction n using Nat.strongRecOn with
  | _ n ih =>
    unfold encode at ih ⊢
    by_cases h : n < 10
    · rw [Nat.toDigits_of_lt_base h, value, digit?_digitChar n h]; simp [value]
    · rw [Nat.toDigits_of_base_le (by decide) (by omega), value_append, ih _ (by omega)]
      simp only [Option.bind_some, value, digit?_digitChar _ (Nat.mod_lt n (by decide)),
        Option.bind_eq_bind]
      congr 1; omega

theorem decode_encode {bound n : Nat} (h : n < bound) : decode bound (encode n) = some n := by
  have hv := value_encode n
  have hd : decodeDigits (encode n) = some n := by
    cases he : encode n with
    | nil => exact absurd he Nat.toDigits_ne_nil
    | cons c cs => rw [he] at hv; exact hv
  have hp : ∀ rest, encode n ≠ '+' :: rest := by
    intro rest he; rw [he] at hv; cases hv
  unfold decode
  split
  · next rest he => exact absurd he (hp _)
  · simp [hd, h]

/-- What is read is below the bound. -/
theorem lt_of_decode {bound n : Nat} {s : List Char} (h : decode bound s = some n) : n < bound := by
  obtain ⟨m, -, hm⟩ := Option.bind_eq_some_iff.mp h
  split at hm
  · next hlt => exact Option.some.inj hm ▸ hlt
  · cases hm

end KeyQuorum.Decimal
