import Reckoner.Document.Pass
import Reckoner.Presentation.Grouping

/-!
# Entries

What is told of a document to another program: one entry for each line.
-/

namespace Reckoner.Presentation

open Reckoner.Document Reckoner.Number

/-- What is told of a line: the kind of its result, what a result of this kind has, and the presentation of its number. -/
structure Entry where
  kind : String
  display? : Option String := none
  numeric? : Option Double := none
  error? : Option String := none
  formatted? : Option String := none
  deriving DecidableEq, Repr

def entryOf (settings : Settings) (result : LineResult) : Entry :=
  match result with
  | .blank => { kind := "blank" }
  | .display text numeric =>
    { kind := "display", display? := some text, numeric? := some numeric, formatted? := some (format settings text) }
  | .error message => { kind := "error", error? := some message }

/-- The entries of the lines of a document. -/
def entriesOf (settings : Settings) (text : String) : List Entry := (calculate settings text).map (entryOf settings)

end Reckoner.Presentation
