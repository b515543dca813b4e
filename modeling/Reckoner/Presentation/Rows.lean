import Reckoner.Document.LineResult
import Reckoner.Presentation.Grouping

/-!
# Output rows

The column beside a document: for each line a mark, a number or nothing, and whether the number has changed.
-/

namespace Reckoner.Presentation

open Reckoner.Document

/-- One cell of the output column. -/
structure Row where
  text : String
  isError : Bool
  changed : Bool
  deriving DecidableEq, Repr

def errorMark : String := "⚠"

/-- The cell of a result.  A number counts as changed unless it was shown before with the same text. -/
def rowOf (settings : Settings) (result : LineResult) (before : Option String) : Row :=
  match result with
  | .error _ => ⟨errorMark, true, false⟩
  | .display text _ => ⟨format settings text, false, before != some text⟩
  | .blank => ⟨"", false, false⟩

/-- The cells of several results beside the texts that were shown before. -/
def rowsOf (settings : Settings) : List LineResult → List (Option String) → List Row
  | [], _ => []
  | result :: results, [] => rowOf settings result none :: rowsOf settings results []
  | result :: results, before :: previous => rowOf settings result before :: rowsOf settings results previous

end Reckoner.Presentation
