import Reckoner.Algebra.Rounding

/-!
# Division with remainder

The remainder of a floored division, and the whole quotient.  Both fail when the divisor is zero.
-/

namespace Reckoner.Algebra

open Reckoner.Number

namespace Term

/-- Rounded numbers with exponents up to this size are divided exactly. -/
def exactExponentLimit : Nat := 4000000

/-- The exact rational of a number whose exponent is not too large. -/
def exactRational? : Term → Option Rat
  | .rational q => some q
  | .float x _ => if x.exponent.natAbs ≤ exactExponentLimit then some x.toRat else none
  | _ => none

def remainderOfNumbers? (a b : Term) : Option Term :=
  match a, b with
  | .rational p, .rational q => some (.rational (p - q * ((p / q).floor : Rat)))
  | _, _ => do
    let p ← exactRational? a
    let q ← exactRational? b
    let bits := (commonBits? [a, b]).getD 53
    return ofBinary (Binary.ofRat .nearest bits (p - q * ((p / q).floor : Rat))).normal bits

def isUnbounded : Term → Bool
  | .infinity _ => true
  | .complexInfinity => true
  | .undefined => true
  | _ => false

/-- The remainder of `a` divided by `b`, which has the sign of `b`; `none` for a zero divisor. -/
def remainder? (a b : Term) : Option Term :=
  if b.isZero then none
  else if a.isUnbounded || b.isUnbounded then some .undefined
  else if a.isZero then some zero
  else if a.isNumber && b.isNumber then remainderOfNumbers? a b
  else
    let ratio := div a b
    if ratio.isReal then do
      let whole ← floor? ratio
      return sub a (mul b whole)
    else some (.call .remainder [a, b])

/-- The whole quotient of rationals.  A whole divisor takes only the whole part of the dividend. -/
def wholeQuotient (p q : Rat) : Rat :=
  if q.den = 1 then (Int.fdiv (Int.tdiv p.num p.den) q.num : Int) else ((p / q).floor : Int)

/-- The whole quotient; `none` for a zero divisor or when it cannot be determined. -/
def quotient? (a b : Term) : Option Term :=
  match a, b with
  | .rational p, .rational q => if q = 0 then none else some (.rational (wholeQuotient p q))
  | .infinity _, _ => if b.isNumber || b.infinity?.isSome || b.code == undefined.code then some .undefined
      else floor? (div a b)
  | _, .infinity negative =>
    if a.isNumber then
      match a.sign? with
      | some s => some (if s = 0 || decide (s < 0) == negative then zero else minusOne)
      | none => none
    else floor? (div a b)
  | _, _ => if a.isNumber && b.isZero then none else floor? (div a b)

end Term

end Reckoner.Algebra
