import Reckoner.Number.Decimal
import Reckoner.Text.Digits

/-!
# Double precision

The double nearest to an exact value, and the text of a double: the fewest digits that read back as the same double,
positional while the exponent of the leading digit is at least `-4` and below `16`.
-/

namespace Reckoner.Number

/-- A double: `mantissa * 2 ^ exponent` with a sign, an infinity, or not a number. -/
inductive Double
  | finite (negative : Bool) (mantissa : Nat) (exponent : Int)
  | infinite (negative : Bool)
  | notANumber
  deriving DecidableEq, Repr

namespace Double

def zero : Double := finite false 0 0

/-- A positive value with at most 53 significant bits, placed in the range of doubles: too large becomes infinite, and
    bits below the smallest double are rounded to nearest. -/
def place (negative : Bool) (mantissa : Nat) (exponent : Int) : Double :=
  let order := exponent + bitLength mantissa
  if mantissa = 0 then finite negative 0 0
  else if 1024 < order then infinite negative
  else if exponent < -1074 then
    let drop := (-1074 - exponent).toNat
    if bitLength mantissa + 1 < drop then finite negative 0 0
    else
      let cut := divHalfEven mantissa (2 ^ drop)
      if cut = 0 then finite negative 0 0 else finite negative cut (-1074)
  else finite negative mantissa exponent

def ofBinary (x : Binary) : Double :=
  let cut := x.round .nearest 53
  place (decide (cut.mantissa < 0)) cut.mantissa.natAbs cut.exponent

def ofRat (q : Rat) : Double := ofBinary (Binary.ofRat .nearest 53 q)

def toBinary? : Double → Option Binary
  | finite negative m e => some ⟨if negative then -(m : Int) else m, e⟩
  | infinite _ => none
  | notANumber => none

/-! ### Shortest text -/

/-- The mantissa with all of its 53 bits where the exponent range allows, so that neighbours are one unit away. -/
def fullMantissa (m : Nat) (e : Int) : Nat × Int :=
  let up := min (53 - bitLength m) (e + 1074).toNat
  (m * 2 ^ up, e - up)

/-- The decimal with the given number of digits that is nearest to `n / d` and lies between `low / d` and `high / d`
    (ends included if `closed`), if one of the two neighbours of `n / d` does. -/
def nearestWithin (digits : Nat) (low n high d : Nat) (closed : Bool) : Option (Nat × Int) :=
  let unit := decimalExponent n d + 1 - digits
  let (n', d') := scaleByTen (-unit) n d
  let (low', _) := scaleByTen (-unit) low d
  let (high', _) := scaleByTen (-unit) high d
  let inside := fun (c : Nat) =>
    if closed then decide (low' ≤ c * d') && decide (c * d' ≤ high') else decide (low' < c * d') && decide (c * d' < high')
  let c := n' / d'
  let rest := n' % d'
  let lowerFirst := 2 * rest < d' || (2 * rest = d' && c % 2 = 0)
  let (first, second) := if lowerFirst then (c, c + 1) else (c + 1, c)
  if inside first then some (first, unit) else if inside second then some (second, unit) else none

/-- The shortest decimal that reads back as the positive double `m * 2 ^ e`. -/
def shortest (m : Nat) (e : Int) : Nat × Int :=
  let (full, e) := fullMantissa m e
  -- four times the mantissa, so that half and quarter units are integers
  let narrow := full = 2 ^ (52 : Nat) && -1074 < e
  let (factor, d) : Nat × Nat := if 0 ≤ e - 2 then (2 ^ (e - 2).toNat, 1) else (1, 2 ^ (2 - e).toNat)
  let n := 4 * full * factor
  let low := (4 * full - (if narrow then 1 else 2)) * factor
  let high := (4 * full + 2) * factor
  let closed := full % 2 = 0
  match (List.range 17).findSome? fun k => nearestWithin (k + 1) low n high d closed with
  | some found => found
  | none => (n / d, 0)

def toText : Double → String
  | notANumber => "nan"
  | infinite negative => if negative then "-inf" else "inf"
  | finite negative m e =>
    let sign := if negative then "-" else ""
    if m = 0 then sign ++ "0.0"
    else
      let (coefficient, unit) := shortest m e
      let x := Decimal.normal ⟨false, coefficient, unit⟩
      let leading := x.leadingExponent
      if -4 ≤ leading ∧ leading < 16 then
        let body := x.fixed
        sign ++ String.ofList (if body.contains '.' then body else body ++ ['.', '0'])
      else
        let digits := x.digits
        let mantissa :=
          match digits with
          | [] => []
          | [d] => [d]
          | d :: rest => d :: '.' :: rest
        let size := (toString leading.natAbs).toList
        let padded := if size.length < 2 then '0' :: size else size
        sign ++ String.ofList (mantissa ++ 'e' :: (if leading < 0 then '-' else '+') :: padded)

/-! ### Reading -/

/-- The double nearest to `±value * 10 ^ exponent`. -/
def ofScientific (negative : Bool) (value : Nat) (exponent : Int) : Double :=
  if value = 0 then finite negative 0 0
  else
    let magnitude := exponent + (toString value).length
    if 400 < magnitude then infinite negative
    else if magnitude < -400 then finite negative 0 0
    else
      let (n, d) := scaleByTen exponent value 1
      match ofRat (mkRat n d) with
      | finite _ m e => finite negative m e
      | infinite _ => infinite negative
      | notANumber => notANumber

/-- A decimal number with optional sign, fraction and exponent, or one of the words for infinities and not-a-number;
    blank ends are ignored. -/
def ofText? (s : String) : Option Double :=
  let (negative, body) := Text.splitSign (Text.trim s.toList)
  let word := String.ofList (body.map Char.toLower)
  if word = "inf" ∨ word = "infinity" then some (infinite negative)
  else if word = "nan" then some notANumber
  else
    let (whole, wholeCount, afterWhole) := (Text.readDigits body).getD (0, 0, body)
    let (fraction, fractionCount, afterFraction) :=
      match afterWhole with
      | '.' :: rest => (Text.readDigits rest).getD (0, 0, rest)
      | other => (0, 0, other)
    if wholeCount + fractionCount = 0 then none
    else
      let value := whole * 10 ^ fractionCount + fraction
      let finish := fun (exponent : Int) => some (ofScientific negative value (exponent - fractionCount))
      match afterFraction with
      | [] => finish 0
      | c :: rest =>
        if c = 'e' ∨ c = 'E' then
          let (below, rest) := Text.splitSign rest
          match Text.readDigits rest with
          | some (exponent, _, []) => finish (if below then -(exponent : Int) else exponent)
          | _ => none
        else none

end Double

end Reckoner.Number
