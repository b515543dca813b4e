import Reckoner.Algebra.Elementary

/-!
# Rounding to integers and to decimal places

Floor and ceiling of terms, and rounding half away from zero to a number of decimal places.  The integer part of an
irrational number is found from its enclosure; beyond `integerPartLimit` bits this fails.
-/

namespace Reckoner.Algebra

open Reckoner.Number

namespace Term

/-- Irrational numbers with more bits before the point than this have no floor. -/
def integerPartLimit : Int := 340

/-- The integers below the two ends of an interval. -/
def floorEnds (x : Interval) : Int × Int := (x.lower.toFixed 0, x.upper.toFixed 0)

/-- The greatest integer not above a real number.  A number that cannot be told from an integer is that integer. -/
def floorReal? (t : Term) : Option Int :=
  match estimate 16 t with
  | .real rough =>
    let order := max rough.lower.order rough.upper.order
    if !rough.isZero && integerPartLimit < order then none
    else
      let bits := (max 64 (order + 40)).toNat
      match estimate bits t with
      | .real x =>
        let (a, b) := floorEnds x
        if a = b then some a
        else
          match estimate (bits + 300) t with
          | .real y => some (floorEnds y).2
          | _ => some b
      | _ => none
  | _ => none

/-- The floor; `none` when it cannot be determined. -/
def floor? (t : Term) : Option Term :=
  match t with
  | .rational q => some (ofInt q.floor)
  | .float x _ => some (if 0 ≤ x.exponent then t else ofInt (x.toFixed 0))
  | .infinity _ => some t
  | .complexInfinity => some t
  | .undefined => some t
  | _ =>
    if t.isReal then (floorReal? t).map ofInt
    else
      match rationalParts? t with
      | some (a, b) => some (add (ofInt a.floor) (scale b.floor imaginaryUnit))
      | none => some (.call .floor [t])

/-- The ceiling; `none` when it cannot be determined. -/
def ceiling? (t : Term) : Option Term := (floor? (neg t)).map neg

@[simp] theorem floor?_rational (q : Rat) : floor? (.rational q) = some (ofInt q.floor) := rfl

/-- Rounding to `places` decimal places, a half going away from zero.  Integers are left alone, also when `places` is
    negative. -/
def round? (t : Term) (places : Int) : Option Term :=
  let general : Option Term := do
    let unit := Term.rational (integerPower 10 places)
    let whole ← floor? (add (mul (abs t) unit) half)
    return div (mul (signTerm t) whole) unit
  match t with
  | .rational q => if q.den = 1 then some t else general
  | _ => general

end Term

end Reckoner.Algebra
