import Reckoner.Text.Alphabet

/-!
# Integers in text

Digits of any script, single underscores between them, and integers with a sign and blank ends.
-/

namespace Reckoner.Text

/-- Digits with single underscores between them, as their value, their count and the rest of the text. -/
def readDigits (s : List Char) : Option (Nat × Nat × List Char) :=
  match s with
  | [] => none
  | c :: rest =>
    match digitValue? c with
    | none => none
    | some v => some (go v 1 rest)
where
  /-- Further digits, each of them possibly after one underscore. -/
  go (value count : Nat) : List Char → Nat × Nat × List Char
    | [] => (value, count, [])
    | '_' :: c :: rest =>
      match digitValue? c with
      | some v => go (10 * value + v) (count + 1) rest
      | none => (value, count, '_' :: c :: rest)
    | c :: rest =>
      match digitValue? c with
      | some v => go (10 * value + v) (count + 1) rest
      | none => (value, count, c :: rest)

/-- A text begins with an optional sign: whether it is a minus, and the rest. -/
def splitSign (s : List Char) : Bool × List Char :=
  match s with
  | '-' :: rest => (true, rest)
  | '+' :: rest => (false, rest)
  | rest => (false, rest)

/-- Integers with more digits than this are not read. -/
def integerLimit : Nat := 4300

/-- The integer that a text denotes; blank ends are ignored. -/
def integer? (s : List Char) : Option Int :=
  let (negative, body) := splitSign (trim s)
  match readDigits body with
  | some (value, count, []) =>
    if integerLimit < count then none else some (if negative then -(value : Int) else value)
  | _ => none

end Reckoner.Text
