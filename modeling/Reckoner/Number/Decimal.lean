import Reckoner.Number.Interval

/-!
# Decimal numbers and their numerals

A decimal number is `±coefficient * 10 ^ exponent`.  Values are cut to a number of significant digits, a half going
away from zero, and written in *auto notation*: fixed notation while the decimal exponent of the leading digit stays
in a range, scientific notation otherwise.
-/

namespace Reckoner.Number

/-- The value `coefficient * 10 ^ exponent`, negated if `negative`. -/
structure Decimal where
  negative : Bool
  coefficient : Nat
  exponent : Int
  deriving DecidableEq, Repr

/-! ### Decimal exponents -/

/-- How often the denominator can be multiplied by ten without passing the numerator. -/
def climb (n d : Nat) : Nat :=
  if 0 < d ∧ 10 * d ≤ n then climb n (10 * d) + 1 else 0
termination_by n - d

/-- How often the numerator has to be multiplied by ten to reach the denominator. -/
def sink (n d : Nat) : Nat :=
  if 0 < n ∧ n < d then sink (10 * n) d + 1 else 0
termination_by d - n

/-- A quotient multiplied by a power of ten, as a pair of naturals. -/
def scaleByTen (k : Int) (n d : Nat) : Nat × Nat :=
  if 0 ≤ k then (n * 10 ^ k.toNat, d) else (n, d * 10 ^ (-k).toNat)

/-- The exponent `e` with `10 ^ e ≤ n / d < 10 ^ (e + 1)`, for positive `n` and `d`: an estimate from the lengths in
    bits, corrected by climbing and sinking. -/
def decimalExponent (n d : Nat) : Int :=
  let estimate := Int.fdiv (((bitLength n : Int) - bitLength d) * 30103) 100000
  let (n', d') := scaleByTen (-estimate) n d
  estimate + climb n' d' - sink n' d'

namespace Decimal

/-- The quotient `n / d` of positive naturals rounded half up to `digits` significant digits. -/
def ofQuotient (digits n d : Nat) : Decimal :=
  let e := decimalExponent n d
  let unit := e + 1 - digits
  let (n', d') := scaleByTen (-unit) n d
  let coefficient := divHalfUp n' d'
  if coefficient = 10 ^ digits then ⟨false, 10 ^ (digits - 1), unit + 1⟩ else ⟨false, coefficient, unit⟩

/-- The value rounded half away from zero to `digits` significant digits. -/
def round (digits : Nat) (x : Decimal) : Decimal :=
  if x.coefficient = 0 then ⟨x.negative, 0, 0⟩
  else if x.coefficient < 10 ^ digits then x
  else
    let cut := ofQuotient digits x.coefficient 1
    ⟨x.negative, cut.coefficient, cut.exponent + x.exponent⟩

/-- A rational rounded half away from zero to `digits` significant digits. -/
def ofRat (digits : Nat) (q : Rat) : Decimal :=
  if q.num = 0 then ⟨false, 0, 0⟩
  else { ofQuotient digits q.num.natAbs q.den with negative := decide (q.num < 0) }

/-- Binary fractions whose order is up to this size are expanded exactly. -/
def exactRange : Nat := 40000

/-- The power of ten that is divided out of a binary fraction, from its order and the decimal logarithm of two. -/
def powerOut (x : Binary) : Int := Int.fdiv (x.order * 30102999566398119521) 100000000000000000000

/-- The size of a binary fraction without the power of ten that is divided out of it, with many spare bits. -/
def reduced (digits : Nat) (x : Binary) : Binary :=
  let bits := 4 * digits + 160 + bitLength x.order.natAbs
  let power := (Interval.pow bits (.ofInt 10) (powerOut x).natAbs).pick bits
  if 0 ≤ powerOut x then Binary.divRounded .nearest bits x.abs power else (x.abs.mul power).round .nearest bits

/-- A binary fraction rounded half away from zero to `digits` significant digits.  When the value is so large or so
    small that its expansion would be long, a power of ten is divided out first. -/
def ofBinary (digits : Nat) (x : Binary) : Decimal :=
  if x.isZero then ⟨false, 0, 0⟩
  else if x.order.natAbs ≤ exactRange then ofRat digits x.toRat
  else
    let rest := (reduced digits x).toRat
    let result := ofQuotient digits rest.num.natAbs rest.den
    ⟨decide (x.sign < 0), result.coefficient, result.exponent + powerOut x⟩

/-- The same value with no trailing zero in the coefficient. -/
def normal (x : Decimal) : Decimal :=
  if x.coefficient = 0 then ⟨false, 0, 0⟩ else go x
where
  /-- Move trailing zeros of a coefficient into the exponent. -/
  go (x : Decimal) : Decimal :=
    if 0 < x.coefficient ∧ x.coefficient % 10 = 0 then go ⟨x.negative, x.coefficient / 10, x.exponent + 1⟩ else x
  termination_by x.coefficient
  decreasing_by omega

def digits (x : Decimal) : List Char := (toString x.coefficient).toList

def leadingExponent (x : Decimal) : Int := x.exponent + (x.digits.length - 1 : Nat)

def toRat (x : Decimal) : Rat :=
  let (n, d) := scaleByTen x.exponent x.coefficient 1
  mkRat (if x.negative then -(n : Int) else n) d

end Decimal

/-! ### Auto notation -/

/-- When fixed notation is used (`lower ≤ exponent < upper` for the exponent of the leading digit) and how many
    significant digits are shown. -/
structure AutoNotation where
  lower : Int
  upper : Int
  precision : Int
  deriving DecidableEq, Repr

/-- Digits with a point `scale` places from their right end; the integer part is never empty. -/
def pointed (digits : List Char) (scale : Nat) : List Char :=
  if scale = 0 then digits
  else
    let padded := List.replicate (scale + 1 - digits.length) '0' ++ digits
    padded.take (padded.length - scale) ++ '.' :: padded.drop (padded.length - scale)

def Decimal.fixed (x : Decimal) : List Char :=
  if 0 ≤ x.exponent then x.digits ++ List.replicate x.exponent.toNat '0' else pointed x.digits (-x.exponent).toNat

/-- Scientific notation: one digit before the point, and an exponent with its sign. -/
def Decimal.scientific (x : Decimal) : List Char :=
  let mantissa :=
    match x.digits with
    | [] => []
    | [d] => [d]
    | d :: rest => d :: '.' :: rest
  let e := x.leadingExponent
  mantissa ++ 'e' :: (if 0 ≤ e then '+' else '-') :: (toString e.natAbs).toList

/-- The numeral of a decimal number: zero is `0`, and trailing zeros of the coefficient are not written. -/
def AutoNotation.write (style : AutoNotation) (x : Decimal) : List Char :=
  if x.coefficient = 0 then ['0']
  else
    let x := x.normal
    let body :=
      if style.lower ≤ x.leadingExponent ∧ x.leadingExponent < style.upper then x.fixed else x.scientific
    if x.negative then '-' :: body else body

end Reckoner.Number
