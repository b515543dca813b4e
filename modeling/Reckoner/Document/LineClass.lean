import Reckoner.Document.Context

/-!
# Kinds of lines

Only some lines of a document are evaluated; headings, notes and rulers are passed over.
-/

namespace Reckoner.Document

open Reckoner.Text

/-- Kinds of lines. -/
inductive LineClass
  | empty | comment | separator | prose | evaluate
  deriving DecidableEq, Repr

def LineClass.name : LineClass → String
  | .empty => "empty"
  | .comment => "comment"
  | .separator => "separator"
  | .prose => "prose"
  | .evaluate => "evaluate"

def rulerCharacters : List Char := ['-', '=', '_', '.', '*', '·', '~']

/-- Whether a line is a ruler; a line end may follow. -/
def isRuler (line : List Char) : Bool :=
  let body := if line.getLast? = some '\n' then line.dropLast else line
  !body.isEmpty && body.all rulerCharacters.contains

/-- Operators that continue the previous answer when a line begins with one of them. -/
def chainOperators : List Char := ['+', '-', '*', '/']

/-- Whether a character occurs in calculations only. -/
def isMathCharacter (c : Char) : Bool :=
  isAsciiDigit c || ['=', '(', ')', '^'].contains c || chainOperators.contains c

/-- Words that occur in calculations, in small letters. -/
def mathWords : List String := ["pi", "e", "ans", "true", "false", "infinity"]

/-- The maximal runs of ASCII word characters of a text. -/
def asciiWords (s : List Char) : List (List Char) :=
  match s with
  | [] => []
  | c :: rest =>
    if isAsciiWord c then (c :: rest.takeWhile isAsciiWord) :: asciiWords (rest.dropWhile isAsciiWord)
    else asciiWords rest
termination_by s.length
decreasing_by
  · have := (List.dropWhile_sublist isAsciiWord (l := rest)).length_le
    simp only [List.length_cons]
    omega
  · simp

/-- Whether a line has a digit, an operator, a bracket, or a word that occurs in calculations. -/
def looksLikeMath (line : List Char) : Bool :=
  line.any isMathCharacter
    || (asciiWords line).any fun word => mathWords.contains (String.ofList (word.map Char.toLower))

def classify (context : Context) (line : List Char) : LineClass :=
  match line with
  | [] => .empty
  | '#' :: _ => .comment
  | _ =>
    if isRuler line then .separator
    else if !context.knows line && !looksLikeMath line then .prose
    else .evaluate

end Reckoner.Document
