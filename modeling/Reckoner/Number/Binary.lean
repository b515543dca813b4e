import Reckoner.Number.Rounding

/-!
# Binary fractions

A binary fraction is `mantissa * 2 ^ exponent`.  The exponent has no bound, so `10 ^ (9 * 10 ^ 15)` is an ordinary
value.  Arithmetic is exact; `round` cuts a value to a number of significant bits in a chosen direction.
-/

namespace Reckoner.Number

/-- Directions of rounding: to the lower neighbour, to the upper one, to the one nearer zero, to the nearest one
    (a tie going to the even mantissa). -/
inductive Direction
  | down | up | toZero | nearest
  deriving DecidableEq, Repr

/-- The opposite direction, for the negated value. -/
def Direction.opposite : Direction → Direction
  | .down => .up
  | .up => .down
  | .toZero => .toZero
  | .nearest => .nearest

/-- A quotient of naturals rounded in a direction. -/
def Direction.divide (direction : Direction) (n d : Nat) : Nat :=
  match direction with
  | .down => n / d
  | .toZero => n / d
  | .up => divCeil n d
  | .nearest => divHalfEven n d

/-- The value `mantissa * 2 ^ exponent`. -/
structure Binary where
  mantissa : Int
  exponent : Int
  deriving DecidableEq, Repr

namespace Binary

instance : Inhabited Binary := ⟨⟨0, 0⟩⟩

def zero : Binary := ⟨0, 0⟩

def ofInt (m : Int) : Binary := ⟨m, 0⟩

def isZero (x : Binary) : Bool := x.mantissa == 0

def sign (x : Binary) : Int := x.mantissa.sign

/-- The exponent `k` with `2 ^ (k - 1) ≤ |x| < 2 ^ k`; meaningless for zero. -/
def order (x : Binary) : Int := x.exponent + bitLength x.mantissa.natAbs

def neg (x : Binary) : Binary := ⟨-x.mantissa, x.exponent⟩

def abs (x : Binary) : Binary := ⟨x.mantissa.natAbs, x.exponent⟩

/-- The mantissa of `x` when it is written with an exponent not above its own. -/
def mantissaAt (x : Binary) (exponent : Int) : Int :=
  x.mantissa * ((2 ^ (x.exponent - exponent).toNat : Nat) : Int)

def add (x y : Binary) : Binary :=
  if x.isZero then y
  else if y.isZero then x
  else
    let e := min x.exponent y.exponent
    ⟨x.mantissaAt e + y.mantissaAt e, e⟩

def mul (x y : Binary) : Binary := ⟨x.mantissa * y.mantissa, x.exponent + y.exponent⟩

def scale (x : Binary) (k : Int) : Binary := ⟨x.mantissa, x.exponent + k⟩

/-- The same value with an odd mantissa, or zero with exponent zero. -/
def normal (x : Binary) : Binary :=
  let n := x.mantissa.natAbs
  if n = 0 then zero
  else
    let zeros := (n ^^^ (n - 1)).log2
    ⟨x.mantissa.sign * (n / 2 ^ zeros : Nat), x.exponent + zeros⟩

/-- The value with at most `bits` significant bits that lies in the given direction. -/
def round (direction : Direction) (bits : Nat) (x : Binary) : Binary :=
  let n := x.mantissa.natAbs
  let length := bitLength n
  if length ≤ bits then x
  else
    let drop := length - bits
    if x.mantissa < 0 then
      ⟨-((direction.opposite.divide n (2 ^ drop) : Nat) : Int), x.exponent + drop⟩
    else
      ⟨(direction.divide n (2 ^ drop) : Nat), x.exponent + drop⟩

/-- The sum rounded to `bits`.  A summand too small to reach the rounding position is replaced by a tiny value of
    its sign, so that exponents far apart cost nothing. -/
def addRounded (direction : Direction) (bits : Nat) (x y : Binary) : Binary :=
  if x.isZero then y.round direction bits
  else if y.isZero then x.round direction bits
  else
    let (big, small) := if x.order < y.order then (y, x) else (x, y)
    let floor := min big.exponent (big.order - bits) - 4
    if small.order < floor then (big.add ⟨small.sign, floor⟩).round direction bits
    else (big.add small).round direction bits

/-- The product rounded to `bits`. -/
def mulRounded (direction : Direction) (bits : Nat) (x y : Binary) : Binary :=
  (x.mul y).round direction bits

/-- The `bits` most significant bits of `n / d`, rounded in a direction, for positive `n` and `d`. -/
def ofQuotient (direction : Direction) (bits : Nat) (n d : Nat) : Binary :=
  let estimate : Int := (bitLength n : Int) - bitLength d
  let reaches :=
    if 0 ≤ estimate then decide (d * 2 ^ estimate.toNat ≤ n) else decide (d ≤ n * 2 ^ (-estimate).toNat)
  let order := if reaches then estimate + 1 else estimate
  let shift := (bits : Int) - order
  if 0 ≤ shift then ⟨(direction.divide (n * 2 ^ shift.toNat) d : Nat), -shift⟩
  else ⟨(direction.divide n (d * 2 ^ (-shift).toNat) : Nat), -shift⟩

/-- A rational rounded to `bits` significant bits. -/
def ofRat (direction : Direction) (bits : Nat) (q : Rat) : Binary :=
  if q.num = 0 then zero
  else if q.num < 0 then (ofQuotient direction.opposite bits q.num.natAbs q.den).neg
  else ofQuotient direction bits q.num.natAbs q.den

/-- The quotient rounded to `bits`; the divisor is not zero. -/
def divRounded (direction : Direction) (bits : Nat) (x y : Binary) : Binary :=
  if x.isZero then zero
  else
    let negative := decide (x.mantissa < 0) != decide (y.mantissa < 0)
    let toward := if negative then direction.opposite else direction
    let quotient := ofQuotient toward bits x.mantissa.natAbs y.mantissa.natAbs
    let scaled := quotient.scale (x.exponent - y.exponent)
    if negative then scaled.neg else scaled

def toRat (x : Binary) : Rat :=
  if 0 ≤ x.exponent then ((x.mantissa * ((2 ^ x.exponent.toNat : Nat) : Int) : Int) : Rat)
  else mkRat x.mantissa (2 ^ (-x.exponent).toNat)

/-- Order of two values; exponents far apart are decided by the orders of magnitude alone. -/
def compare (x y : Binary) : Ordering :=
  if x.sign ≠ y.sign then Ord.compare x.sign y.sign
  else if x.isZero then .eq
  else if x.order ≠ y.order then
    if x.sign < 0 then Ord.compare y.order x.order else Ord.compare x.order y.order
  else
    let e := min x.exponent y.exponent
    Ord.compare (x.mantissaAt e) (y.mantissaAt e)

/-- `x ≤ y`. -/
def le (x y : Binary) : Bool := x.compare y != .gt

def least (x y : Binary) : Binary := if x.le y then x else y

def greatest (x y : Binary) : Binary := if x.le y then y else x

/-- The greatest integer not above `x * 2 ^ width`. -/
def toFixed (width : Nat) (x : Binary) : Int :=
  let shift := x.exponent + width
  if 0 ≤ shift then x.mantissa * ((2 ^ shift.toNat : Nat) : Int)
  else
    let drop := (-shift).toNat
    if bitLength x.mantissa.natAbs < drop then (if x.mantissa < 0 then -1 else 0)
    else Int.fdiv x.mantissa ((2 ^ drop : Nat) : Int)

/-- The square root rounded in a direction, for a value that is not negative. -/
def sqrtRounded (direction : Direction) (bits : Nat) (x : Binary) : Binary :=
  let n := x.mantissa.natAbs
  if n = 0 then zero
  else
    let extra := 2 * bits + 4
    let e := x.exponent - extra
    let evenDrop : Nat := if e % 2 = 0 then extra else extra + 1
    let e := x.exponent - evenDrop
    let scaled := n * 2 ^ evenDrop
    let root := isqrt scaled
    let half := e / 2
    if root * root = scaled then (Binary.mk root half).round direction bits
    else
      -- the true root lies strictly between `root` and `root + 1`
      (Binary.mk (4 * root + 1) (half - 2)).round direction bits

end Binary

end Reckoner.Number
