import Reckoner.Presentation.Rows

/-!
# Tables for people

The lines of a document with their numbers in front and the output column behind.
-/

namespace Reckoner.Presentation

open Reckoner.Document Reckoner.Text

def padLeft (width : Nat) (s : String) : String :=
  String.ofList (List.replicate (width - s.length) ' ' ++ s.toList)

def padRight (width : Nat) (s : String) : String :=
  String.ofList (s.toList ++ List.replicate (width - s.length) ' ')

/-- One line of a table, with its end.  A line without output has no blanks at its end. -/
def tableLine (numberWidth width index : Nat) (line : String) (row : Row) : String :=
  let head := padLeft numberWidth (toString index) ++ " | "
  if row.text.isEmpty then String.ofList (trimRight (head ++ line).toList) ++ "\n"
  else head ++ padRight width line ++ " | " ++ row.text ++ "\n"

/-- The lines of a table, numbered from `index`. -/
def tableLines (numberWidth width : Nat) : Nat → List String → List Row → List String
  | index, line :: lines, row :: rows =>
    tableLine numberWidth width index line row :: tableLines numberWidth width (index + 1) lines rows
  | _, _, _ => []

def table (settings : Settings) (text : String) (results : List LineResult) : String :=
  let lines := linesOf text
  let width := (lines.map String.length).foldl max 0
  let numberWidth := (toString lines.length).length
  String.join (tableLines numberWidth width 1 lines (rowsOf settings results []))

end Reckoner.Presentation
