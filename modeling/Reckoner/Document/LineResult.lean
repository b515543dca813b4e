import Reckoner.Number.Double
import Reckoner.Text.Quoted

/-!
# Results of lines
-/

namespace Reckoner.Document

open Reckoner.Number

/-- What a line shows: nothing, a number with its text, or an error message. -/
inductive LineResult
  | blank
  | display (text : String) (numeric : Double)
  | error (message : String)
  deriving DecidableEq, Repr

namespace LineResult

/-- An error with a message; without one, the message says only that there was an error. -/
def failed (message : String) : LineResult := .error (if message.isEmpty then "Evaluation failed" else message)

def isBlank : LineResult → Bool
  | .blank => true
  | _ => false

def isError : LineResult → Bool
  | .error _ => true
  | _ => false

def text? : LineResult → Option String
  | .display text _ => some text
  | _ => none

/-- A description of the result for people who look for faults. -/
def describe : LineResult → String
  | .blank => "LineResult(blank)"
  | .display text numeric => "LineResult(display=" ++ Text.quoted text ++ ", numeric=" ++ numeric.toText ++ ")"
  | .error message => "LineResult(error=" ++ Text.quoted message ++ ")"

end LineResult

end Reckoner.Document
