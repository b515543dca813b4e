import Reckoner.Text.Alphabet
import Reckoner.Settings

/-!
# Grouping of digits

A number is presented without needless zeros at the end of its fraction, and with a separator between groups of three
digits of its integer part.  Numbers in scientific notation are not grouped.
-/

namespace Reckoner.Presentation

open Reckoner.Text

/-- A mantissa without zeros at the end of its fraction, and without a point that nothing follows. -/
def trimFraction (mantissa : List Char) : List Char :=
  if mantissa.contains '.' then
    ((mantissa.reverse.dropWhile (· = '0')).dropWhile (· = '.')).reverse
  else mantissa

/-- Insert the separator in front of each digit that follows a word character and begins a run of digits whose length
    is a multiple of three.  The first component is the length of the run of digits that the text begins with;
    `afterWord` says whether a word character comes before the text. -/
def groupRuns (separator : List Char) (afterWord : Bool) : List Char → Nat × List Char
  | [] => (0, [])
  | c :: rest =>
    let (later, tail) := groupRuns separator (isWord c) rest
    let run := if isDigit c then later + 1 else 0
    (run, if afterWord && 0 < run && run % 3 = 0 then separator ++ c :: tail else c :: tail)

def groupDigits (separator : List Char) (s : List Char) : List Char := (groupRuns separator false s).2

def formatWith (separator : List Char) (raw : List Char) : List Char :=
  let (mantissa, marker, exponent) := partition 'e' raw
  let trimmed := trimFraction mantissa
  match marker ++ exponent with
  | [] =>
    let (whole, point, fraction) := partition '.' trimmed
    groupDigits separator whole ++ point ++ fraction
  | suffix => trimmed ++ suffix

/-- The presentation of the text of a number under the settings. -/
def format (settings : Settings) (raw : String) : String :=
  String.ofList (formatWith settings.groupSeparator.toList raw.toList)

end Reckoner.Presentation
