import Reckoner.Text.Digits
import Reckoner.Number.Rounding

/-!
# Settings

The limits and the presentation choices of a calculator, and how they are read from an environment of named texts.
-/

namespace Reckoner

/-- Limits and presentation choices. -/
structure Settings where
  /-- The smallest decimal exponent that is shown in fixed notation. -/
  lowerExponent : Int := -20
  /-- The smallest decimal exponent that is too large for fixed notation. -/
  upperExponent : Int := 20
  /-- Significant digits of a displayed number. -/
  displayDigits : Int := 12
  /-- Significant digits of numbers that are not computed exactly. -/
  workingDigits : Int := 64
  /-- The length of the longest line that is evaluated. -/
  maxLineLength : Int := 10000
  /-- Powers with more digits than this are not computed exactly. -/
  maxExactDigits : Int := 10000
  /-- Numbers with a greater decimal exponent than this are out of range. -/
  maxDecimalExponent : Int := 9000000000000000
  /-- What stands between groups of three digits. -/
  groupSeparator : String := ","
  /-- The name of the log level that applies if none is asked for. -/
  logLevel : String := "WARNING"
  deriving DecidableEq, Repr

namespace Settings

/-- The settings that hold where nothing else is said. -/
def standard : Settings where

abbrev Environment := List (String × String)

/-- The names of environment entries begin like this. -/
def entryStem : String := "LINECALC_"

def entryText? (env : Environment) (name : String) : Option String := env.lookup (entryStem ++ name)

/-- An entry that has to be an integer; `none` if it is something else. -/
def integerEntry? (env : Environment) (name : String) (standard : Int) : Option Int :=
  match entryText? env name with
  | none => some standard
  | some text => Text.integer? text.toList

/-- The settings of an environment; `none` if an entry that has to be an integer is something else. -/
def ofEnvironment? (env : Environment) : Option Settings := do
  let lowerExponent ← integerEntry? env "LOWER_EXP" standard.lowerExponent
  let upperExponent ← integerEntry? env "UPPER_EXP" standard.upperExponent
  let displayDigits ← integerEntry? env "DISPLAY_PRECISION" standard.displayDigits
  let workingDigits ← integerEntry? env "WORKING_PRECISION" standard.workingDigits
  let maxLineLength ← integerEntry? env "MAX_LINE_LENGTH" standard.maxLineLength
  let maxExactDigits ← integerEntry? env "MAX_EXACT_DIGITS" standard.maxExactDigits
  let maxDecimalExponent ← integerEntry? env "MAX_DECIMAL_EXPONENT" standard.maxDecimalExponent
  return {
    lowerExponent, upperExponent, displayDigits, workingDigits, maxLineLength, maxExactDigits, maxDecimalExponent
    groupSeparator := (entryText? env "GROUP_SEPARATOR").getD standard.groupSeparator
    logLevel := (entryText? env "LOG_LEVEL").getD standard.logLevel }

theorem ofEnvironment?_nil : ofEnvironment? [] = some standard := by
  rfl

/-- The number of bits that hold `digits` decimal digits: `3.3219280948873626` bits a digit, one digit to spare. -/
def bitsOfDigits (digits : Int) : Nat :=
  max 1 (Number.divHalfEven ((digits + 1).toNat * 33219280948873626) (10 ^ (16 : Nat)))

/-- The number of bits of numbers that are not computed exactly. -/
def workingBits (settings : Settings) : Nat := bitsOfDigits settings.workingDigits

end Settings

end Reckoner
