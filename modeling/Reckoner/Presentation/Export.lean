import Reckoner.Document.Pass
import Reckoner.Presentation.Grouping

/-!
# Plain text export

A document with the number that a line gives written behind the line.
-/

namespace Reckoner.Presentation

open Reckoner.Document

def exportArrow : String := "  →  "

def exportLine (settings : Settings) (line : String) (result : Option LineResult) : String :=
  match result.bind LineResult.text? with
  | some text => line ++ exportArrow ++ format settings text ++ "\n"
  | none => line ++ "\n"

/-- Lines with their results; lines without a result are copied. -/
def exportLines (settings : Settings) : List String → List LineResult → List String
  | [], _ => []
  | line :: lines, [] => exportLine settings line none :: exportLines settings lines []
  | line :: lines, result :: results => exportLine settings line (some result) :: exportLines settings lines results

def exportText (settings : Settings) (text : String) (results : List LineResult) : String :=
  String.join (exportLines settings (Text.linesOf text) results)

/-- The export of a document, with the results that are given for it or else with its own. -/
def exportDocument (settings : Settings) (text : String) (results? : Option (List LineResult)) : String :=
  exportText settings text (results?.getD (calculate settings text))

/-! ### File names -/

/-- A day of the calendar. -/
structure Day where
  year : Int
  month : Int
  day : Int
  deriving DecidableEq, Repr

namespace Day

def isLeapYear (year : Int) : Bool := year % 4 == 0 && (year % 100 != 0 || year % 400 == 0)

def daysOf (year month : Int) : Int :=
  if month = 2 then (if isLeapYear year then 29 else 28)
  else if month = 4 ∨ month = 6 ∨ month = 9 ∨ month = 11 then 30
  else 31

/-- Whether the day exists, in the years from 1 to 9999. -/
def exists? (d : Day) : Bool :=
  1 ≤ d.year && d.year ≤ 9999 && 1 ≤ d.month && d.month ≤ 12 && 1 ≤ d.day && d.day ≤ daysOf d.year d.month

end Day

def exportNameStem : String := "计算记录"

def exportFileName (d : Day) : String :=
  exportNameStem ++ "_" ++ toString d.year ++ "-" ++ toString d.month ++ "-" ++ toString d.day ++ ".txt"

end Reckoner.Presentation
