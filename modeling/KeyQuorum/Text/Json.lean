import KeyQuorum.Text.Decimal

/-!
Compact JSON text, built from its parts.

A value is its text: numbers in decimal, strings in quotes, arrays and objects around the texts
of their items, with no blanks anywhere. In a string the quote, the backslash and the
characters below U+0020 are escaped, by name where JSON has one and by number otherwise; every
other character stands for itself.
-/

namespace KeyQuorum.Json

/-- A text that stands for one value. -/
abbrev Text := List Char

def number (n : Nat) : Text := Decimal.encode n

/-- How a character is written inside quotes. -/
def escape (c : Char) : Text :=
  if c = '"' then ['\\', '"']
  else if c = '\\' then ['\\', '\\']
  else if c = '\x08' then ['\\', 'b']
  else if c = '\t' then ['\\', 't']
  else if c = '\n' then ['\\', 'n']
  else if c = '\x0c' then ['\\', 'f']
  else if c = '\r' then ['\\', 'r']
  else if c.toNat < 32 then
    ['\\', 'u', '0', '0', Nat.digitChar (c.toNat / 16), Nat.digitChar (c.toNat % 16)]
  else [c]

def string (s : String) : Text := '"' :: s.toList.flatMap escape ++ ['"']

/-- Items set apart by commas. -/
def commas : List Text → Text
  | [] => []
  | [t] => t
  | t :: u :: rest => t ++ ',' :: commas (u :: rest)

def array (items : List Text) : Text := '[' :: commas items ++ [']']

def strings (items : List String) : Text := array (items.map string)

def object (fields : List (String × Text)) : Text :=
  '\x7b' :: commas (fields.map fun f => string f.1 ++ ':' :: f.2) ++ ['\x7d']

/-- The bytes of a text in UTF-8. -/
def utf8 (t : Text) : List UInt8 := t.flatMap String.utf8EncodeChar

end KeyQuorum.Json
