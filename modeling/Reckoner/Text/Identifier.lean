import Reckoner.Text.Alphabet

/-!
# Identifiers in text

An identifier is a maximal run of word characters that begins with a word character other than a digit.  Digits in
front of it are no part of it, so `5x` holds the identifier `x`.
-/

namespace Reckoner.Text

/-- Whether an identifier can begin with a character: a word character that is no digit. -/
def beginsIdentifier (c : Char) : Bool := isWord c && !isDigit c

/-- A piece of text: an identifier, or a character outside every identifier. -/
inductive Piece
  | identifier (name : List Char)
  | other (c : Char)
  deriving DecidableEq, Repr

def Piece.text : Piece → List Char
  | .identifier name => name
  | .other c => [c]

/-- The identifiers of a text and the characters between them. -/
def pieces (s : List Char) : List Piece :=
  match s with
  | [] => []
  | c :: rest =>
    if beginsIdentifier c then .identifier (c :: rest.takeWhile isWord) :: pieces (rest.dropWhile isWord)
    else .other c :: pieces rest
termination_by s.length
decreasing_by
  · have := (List.dropWhile_sublist isWord (l := rest)).length_le
    simp only [List.length_cons]
    omega
  · simp

def identifiers (s : List Char) : List (List Char) :=
  (pieces s).filterMap fun
    | .identifier name => some name
    | .other _ => none

theorem flatMap_text_pieces (s : List Char) : (pieces s).flatMap Piece.text = s := by
  fun_induction pieces s with
  | case1 => rfl
  | case2 c rest _ ih => simp [Piece.text, ih]
  | case3 c rest _ ih => simp [Piece.text, ih]

end Reckoner.Text
