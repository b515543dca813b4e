import Reckoner.Text.Alphabet
import Reckoner.Settings

/-!
# Validation of lines

Lines that are too long or that hold a forbidden token are rejected before they are read.
-/

namespace Reckoner.Document

open Reckoner.Text

/-- Why a line is rejected. -/
inductive Rejection
  | tooLong (limit : Int)
  | forbidden (token : String)
  deriving DecidableEq, Repr

namespace Rejection

def message : Rejection → String
  | .tooLong limit => "Line too long (>" ++ toString limit ++ " characters)"
  | .forbidden token => "Input contains forbidden token: " ++ token

def code : Rejection → String
  | .tooLong _ => "TOO_LONG"
  | .forbidden _ => "FORBIDDEN_TOKEN"

end Rejection

def forbiddenWords : List String :=
  ["import", "lambda", "eval", "exec", "open", "compile", "globals", "locals", "getattr", "setattr", "delattr",
    "builtins"]

/-- The maximal runs of word characters of a text. -/
def wordRuns (s : List Char) : List (List Char) :=
  match s with
  | [] => []
  | c :: rest =>
    if isWord c then (c :: rest.takeWhile isWord) :: wordRuns (rest.dropWhile isWord) else wordRuns rest
termination_by s.length
decreasing_by
  · have := (List.dropWhile_sublist isWord (l := rest)).length_le
    simp only [List.length_cons]
    omega
  · simp

/-- The first forbidden word among the words of a line. -/
def forbiddenWord? (line : List Char) : Option String :=
  ((wordRuns line).map String.ofList).find? forbiddenWords.contains

def reject? (settings : Settings) (line : List Char) : Option Rejection :=
  if settings.maxLineLength < line.length then some (.tooLong settings.maxLineLength)
  else if occursIn ['_', '_'] line then some (.forbidden "__")
  else (forbiddenWord? line).map .forbidden

end Reckoner.Document
