import Mathlib.Tactic.Lemma
import KeyQuorum.Text.Hex
import KeyQuorum.Text.Json

/-!
Compact JSON is unambiguous.

A text shows where the value in front of it ends: a string at the first quote that is not
escaped, a number before the first character that is no digit, an array at its own bracket. So
what is written of two values, each with something after it, is the same only if the values are
and if the same comes after them. This is said of each way of writing on its own, and an array
has it from its items.
-/

namespace KeyQuorum

namespace Decimal

lemma isSome_digit?_of_value {cs : List Char} {acc n : Nat} (h : value acc cs = some n) :
    ∀ c ∈ cs, (digit? c).isSome = true := by
  induction cs generalizing acc with
  | nil => simp
  | cons c cs ih =>
    simp only [value, Option.bind_eq_bind, Option.bind_eq_some_iff] at h
    obtain ⟨d, hd, hcs⟩ := h
    exact List.forall_mem_cons.mpr ⟨by rw [hd]; rfl, ih hcs⟩

lemma isSome_digit?_encode (n : Nat) : ∀ c ∈ encode n, (digit? c).isSome = true :=
  isSome_digit?_of_value (value_encode n)

lemma encode_injective : Function.Injective encode := fun m n h =>
  Option.some.inj ((value_encode m).symm.trans (h ▸ value_encode n))

end Decimal

namespace Json

variable {α : Type} {write : α → Text} {t u : Text}

/-- A value may end before such a text. -/
inductive Follows : Text → Prop where
  | comma (t : Text) : Follows (',' :: t)
  | bracket (t : Text) : Follows (']' :: t)
  | brace (t : Text) : Follows ('\x7d' :: t)

/-- What is written shows where it ends and what it was written of. -/
def Delimits (write : α → Text) : Prop :=
  ∀ ⦃a b : α⦄ ⦃t u : Text⦄, Follows t → Follows u → write a ++ t = write b ++ u → a = b ∧ t = u

/-! ### Characters and strings -/

def named (c : Char) : Char :=
  if c = 'b' then '\x08'
  else if c = 't' then '\t'
  else if c = 'n' then '\n'
  else if c = 'f' then '\x0c'
  else if c = 'r' then '\r'
  else c

/-- The first character that a text in quotes stands for, and the text after it. -/
def unescape? : Text → Option (Char × Text)
  | '\\' :: 'u' :: '0' :: '0' :: hi :: lo :: t => do
    return (Char.ofNat (16 * (← Hex.value? hi) + (← Hex.value? lo)), t)
  | '\\' :: c :: t => some (named c, t)
  | c :: t => some (c, t)
  | [] => none

lemma value?_digitChar : ∀ d < 16, Hex.value? (Nat.digitChar d) = some d := by decide

/-- An escape is read back, whatever comes after it. -/
theorem unescape?_escape (c : Char) (t : Text) : unescape? (escape c ++ t) = some (c, t) := by
  unfold escape
  -- the seven characters with names of their own
  iterate 7
    split
    · next h => subst h; rfl
  split
  · next hlow =>
    have hhi := value?_digitChar (c.toNat / 16) (by omega)
    have hlo := value?_digitChar (c.toNat % 16) (by omega)
    have hjoin : Char.ofNat (16 * (c.toNat / 16) + c.toNat % 16) = c := by
      rw [Nat.div_add_mod, Char.ofNat_toNat]
    simp only [List.cons_append, List.nil_append, unescape?, hhi, hlo, Option.bind_eq_bind,
      Option.bind_some, hjoin]
    rfl
  · next hslash _ _ _ _ _ _ =>
    rw [List.singleton_append, unescape?]
    · intro hi lo t hc
      exact absurd hc hslash
    · intro d t hc
      exact absurd hc hslash

lemma escape_append_inj {c d : Char} (h : escape c ++ t = escape d ++ u) : c = d ∧ t = u := by
  have hread := congrArg unescape? h
  rw [unescape?_escape, unescape?_escape] at hread
  exact Prod.mk.inj (Option.some.inj hread)

lemma escape_append_ne_quote (c : Char) (t u : Text) : escape c ++ t ≠ '"' :: u := by
  intro h
  have hread := congrArg unescape? h
  rw [unescape?_escape] at hread
  obtain ⟨rfl, rfl⟩ := Prod.mk.inj (Option.some.inj hread)
  exact absurd (List.cons.inj h).1 (by decide)

lemma escaped_append_inj {cs ds : List Char}
    (h : cs.flatMap escape ++ '"' :: t = ds.flatMap escape ++ '"' :: u) : cs = ds ∧ t = u := by
  -- Character by character, up to the quote that comes first in one of the texts.
  induction cs generalizing ds with
  | nil =>
    cases ds with
    | nil => exact ⟨rfl, (List.cons.inj h).2⟩
    | cons d ds =>
      rw [List.flatMap_cons, List.append_assoc] at h
      exact absurd h.symm (escape_append_ne_quote d _ _)
  | cons c cs ih =>
    cases ds with
    | nil =>
      rw [List.flatMap_cons, List.append_assoc] at h
      exact absurd h (escape_append_ne_quote c _ _)
    | cons d ds =>
      rw [List.flatMap_cons, List.flatMap_cons, List.append_assoc, List.append_assoc] at h
      obtain ⟨rfl, hrest⟩ := escape_append_inj h
      obtain ⟨rfl, htail⟩ := ih hrest
      exact ⟨rfl, htail⟩

/-- **A string shows where it ends**, whatever comes after it. -/
theorem string_append_inj {s s' : String} (h : string s ++ t = string s' ++ u) :
    s = s' ∧ t = u := by
  simp only [string, List.cons_append, List.append_assoc, List.nil_append] at h
  obtain ⟨hs, htail⟩ := escaped_append_inj (List.cons.inj h).2
  exact ⟨String.toList_inj.mp hs, htail⟩

lemma delimits_string : Delimits string := fun _ _ _ _ _ _ h => string_append_inj h

/-! ### Numbers -/

lemma takeWhile_number (n : Nat) (ht : Follows t) :
    (number n ++ t).takeWhile (fun c => (Decimal.digit? c).isSome) = number n := by
  have hnext : t.takeWhile (fun c => (Decimal.digit? c).isSome) = [] := by
    cases ht <;> rfl
  rw [number, List.takeWhile_append_of_pos (Decimal.isSome_digit?_encode n), hnext,
    List.append_nil]

/-- **A number ends with its last digit.** -/
theorem delimits_number : Delimits number := by
  intro m n t u ht hu h
  have hdigits : number m = number n := by
    rw [← takeWhile_number m ht, h, takeWhile_number n hu]
  rw [hdigits] at h
  exact ⟨Decimal.encode_injective hdigits, List.append_cancel_left h⟩

/-! ### Arrays -/

/-- What is written does not look like the end of an array. -/
def Opens (write : α → Text) : Prop := ∀ (a : α) (t u : Text), write a ++ t ≠ ']' :: u

/-- What comes after the first item of an array, up to a text after the array. -/
def afterItem (write : α → Text) : List α → Text → Text
  | [], t => ']' :: t
  | a :: as, t => ',' :: (commas ((a :: as).map write) ++ ']' :: t)

lemma follows_afterItem (write : α → Text) (as : List α) (t : Text) :
    Follows (afterItem write as t) := by
  cases as with
  | nil => exact .bracket t
  | cons => exact .comma _

lemma commas_cons (write : α → Text) (a : α) (as : List α) (t : Text) :
    commas ((a :: as).map write) ++ ']' :: t = write a ++ afterItem write as t := by
  cases as with
  | nil => rfl
  | cons => simp [commas, afterItem]

/-- Items set apart by commas, up to the bracket after the last one. -/
lemma Delimits.commas (h : Delimits write) (hopens : Opens write) {as bs : List α}
    (heq : commas (as.map write) ++ ']' :: t = commas (bs.map write) ++ ']' :: u) :
    as = bs ∧ t = u := by
  induction as generalizing bs with
  | nil =>
    cases bs with
    | nil => exact ⟨rfl, (List.cons.inj heq).2⟩
    | cons b bs =>
      rw [commas_cons] at heq
      exact absurd heq.symm (hopens b _ _)
  | cons a as ih =>
    cases bs with
    | nil =>
      rw [commas_cons] at heq
      exact absurd heq (hopens a _ _)
    | cons b bs =>
      rw [commas_cons, commas_cons] at heq
      obtain ⟨rfl, hafter⟩ := h (follows_afterItem write as t) (follows_afterItem write bs u) heq
      -- both arrays end here, or both go on
      cases as with
      | nil =>
        cases bs with
        | nil => exact ⟨rfl, (List.cons.inj hafter).2⟩
        | cons => exact absurd (List.cons.inj hafter).1 (by decide)
      | cons =>
        cases bs with
        | nil => exact absurd (List.cons.inj hafter).1 (by decide)
        | cons =>
          obtain ⟨hrest, htail⟩ := ih (List.cons.inj hafter).2
          exact ⟨congrArg (a :: ·) hrest, htail⟩

/-- **An array shows where it ends** when its items do. -/
theorem Delimits.array (h : Delimits write) (hopens : Opens write) :
    Delimits fun as : List α => array (as.map write) := by
  intro as bs t u _ _ heq
  simp only [Json.array, List.cons_append, List.append_assoc, List.nil_append] at heq
  exact h.commas hopens (List.cons.inj heq).2

lemma delimits_strings : Delimits strings :=
  delimits_string.array fun _ _ _ h => absurd (List.cons.inj h).1 (by decide)

def lists (items : List (List String)) : Text := array (items.map strings)

lemma delimits_lists : Delimits lists :=
  delimits_strings.array fun _ _ _ h => absurd (List.cons.inj h).1 (by decide)

/-! ### Fields of an object -/

lemma Delimits.field (h : Delimits write) (name : String) {a b : α} (ht : Follows t)
    (hu : Follows u)
    (heq : string name ++ ':' :: (write a ++ t) = string name ++ ':' :: (write b ++ u)) :
    a = b ∧ t = u :=
  h ht hu (List.cons.inj (List.append_cancel_left heq)).2

/-! ### Bytes -/

theorem utf8_injective : Function.Injective utf8 := by
  intro t u h
  have hbytes : (String.ofList t).toByteArray = (String.ofList u).toByteArray := by
    rw [String.toByteArray_ofList, String.toByteArray_ofList]
    exact congrArg List.toByteArray h
  exact String.ofList_injective (String.toByteArray_inj.mp hbytes)

end Json

end KeyQuorum
