import Reckoner.Expression.Value
import Reckoner.Number.Double
import Reckoner.Settings

/-!
# Display of values

A real number is displayed by the decimal that is nearest to it.  It is first rounded to a binary number of the working
precision, then to as many decimal digits, and then, a half going up, to the digits that are displayed.
-/

namespace Reckoner.Expression

open Reckoner.Algebra Reckoner.Number

/-- How numbers are displayed: when fixed notation is used, how many digits are shown, and how many the rounding before
    that works with. -/
structure DisplayStyle where
  lowerExponent : Int
  upperExponent : Int
  digits : Int
  workingDigits : Int
  deriving DecidableEq, Repr

def DisplayStyle.ofSettings (settings : Settings) : DisplayStyle where
  lowerExponent := settings.lowerExponent
  upperExponent := settings.upperExponent
  digits := settings.displayDigits
  workingDigits := settings.workingDigits

/-- Why a value cannot be displayed. -/
inductive DisplayFault
  /-- The value is no expression. -/
  | noExpression
  /-- The value is no real number, or its exponent is out of range. -/
  | noDecimal
  /-- No digits are asked for. -/
  | noDigits
  /-- A text cannot be read as an expression. -/
  | unreadable
  deriving DecidableEq, Repr

/-- Decimal exponents beyond this cannot be displayed. -/
def displayExponentLimit : Nat := 999999999999999999

namespace DisplayStyle

/-- The digits that the rounding before the last one keeps. -/
def keptDigits (style : DisplayStyle) : Int := max style.workingDigits (style.digits + 5)

/-- The binary number of the working precision nearest to a real term.  A rational is first cut four bits beyond. -/
def approximate? (style : DisplayStyle) (t : Term) : Option Binary :=
  let bits := Settings.bitsOfDigits style.keptDigits
  match t with
  | .rational q => some ((Binary.ofRat .toZero (bits + 4) q).round .nearest bits)
  | _ => t.realValue? bits

/-- The decimal that is shown for a binary number. -/
def decimal (style : DisplayStyle) (x : Binary) : Decimal :=
  (Decimal.ofBinary style.keptDigits.toNat x).round style.digits.toNat

def autoNotation (style : DisplayStyle) : AutoNotation where
  lower := style.lowerExponent
  upper := style.upperExponent
  precision := style.digits

/-- The text of a decimal, unless its exponent is out of range. -/
def write (style : DisplayStyle) (x : Decimal) : Except DisplayFault String :=
  if x.coefficient ≠ 0 ∧ displayExponentLimit < x.leadingExponent.natAbs then .error .noDecimal
  else .ok (String.ofList (style.autoNotation.write x))

def display (style : DisplayStyle) (t : Term) : Except DisplayFault String :=
  match t with
  | .infinity negative => .ok (if negative then "-Infinity" else "Infinity")
  | _ =>
    if style.digits < 1 then .error .noDigits
    else
      match t with
      | .undefined => .ok (if style.lowerExponent ≤ 0 ∧ 0 < style.upperExponent then "NaN" else "e+0")
      | _ =>
        match style.approximate? t with
        | some x => style.write (style.decimal x)
        | none => .error .noDecimal

def displayValue (style : DisplayStyle) (v : Value) : Except DisplayFault String :=
  match v with
  | .number t => style.display t
  | .relation _ => if style.digits < 1 then .error .noDigits else .error .noDecimal
  | _ => .error .noExpression

end DisplayStyle

/-- The double nearest to a term, zero if the term is no real number. -/
def toDouble (t : Term) : Double :=
  match t with
  | .infinity negative => .infinite negative
  | .undefined => .notANumber
  | .rational q => .ofRat q
  | .float x _ => .ofBinary x
  | _ =>
    match t.realValue? 120 with
    | some x => .ofBinary x
    | none => .zero

/-- The double nearest to a value, zero if the value is no real number.  A text is read as a number. -/
def valueToDouble (v : Value) : Double :=
  match v with
  | .number t => toDouble t
  | .flag b => if b then .ofRat 1 else .zero
  | .text s => (Double.ofText? s).getD .zero
  | _ => .zero

end Reckoner.Expression
