import Reckoner.Number.Binary

/-!
# Intervals of real numbers

A closed interval with binary endpoints stands for one real number known to lie in it.  Every operation takes the
number of significant bits to keep and rounds outward, so its result contains the exact result for every choice of
numbers in its arguments.  The elementary functions work on scaled integers with a bound on their error.

An interval whose endpoints are equal is a number known exactly; exact zeros and ones pass through the operations
unharmed, which is how a value is recognised as real.
-/

namespace Reckoner.Number

/-- The real numbers from `lower` to `upper`. -/
structure Interval where
  lower : Binary
  upper : Binary
  deriving DecidableEq, Repr

namespace Interval

def point (x : Binary) : Interval := ⟨x, x⟩

def zero : Interval := point .zero

def one : Interval := point (.ofInt 1)

def ofInt (m : Int) : Interval := point (.ofInt m)

def ofRat (bits : Nat) (q : Rat) : Interval := ⟨.ofRat .down bits q, .ofRat .up bits q⟩

def isZero (x : Interval) : Bool := x.lower.isZero && x.upper.isZero

def containsZero (x : Interval) : Bool := x.lower.sign ≤ 0 && 0 ≤ x.upper.sign

def isPositive (x : Interval) : Bool := 0 < x.lower.sign

def isNegative (x : Interval) : Bool := x.upper.sign < 0

def add (bits : Nat) (x y : Interval) : Interval :=
  ⟨x.lower.addRounded .down bits y.lower, x.upper.addRounded .up bits y.upper⟩

def neg (x : Interval) : Interval := ⟨x.upper.neg, x.lower.neg⟩

def sub (bits : Nat) (x y : Interval) : Interval := x.add bits y.neg

/-- The product: its extremes are among the products of the endpoints. -/
def mul (bits : Nat) (x y : Interval) : Interval :=
  if x.isZero || y.isZero then zero
  else
    let a := x.lower.mul y.lower
    let b := x.lower.mul y.upper
    let c := x.upper.mul y.lower
    let d := x.upper.mul y.upper
    ⟨((a.least b).least (c.least d)).round .down bits, ((a.greatest b).greatest (c.greatest d)).round .up bits⟩

def scale (x : Interval) (k : Int) : Interval := ⟨x.lower.scale k, x.upper.scale k⟩

/-- The reciprocal, if the number is known not to be zero. -/
def inv? (bits : Nat) (x : Interval) : Option Interval :=
  if x.containsZero then none
  else some ⟨Binary.divRounded .down bits (.ofInt 1) x.upper, Binary.divRounded .up bits (.ofInt 1) x.lower⟩

/-- The square root, if the number is known not to be negative. -/
def sqrt? (bits : Nat) (x : Interval) : Option Interval :=
  if x.lower.sign < 0 then none
  else some ⟨x.lower.sqrtRounded .down bits, x.upper.sqrtRounded .up bits⟩

def abs (x : Interval) : Interval :=
  if 0 ≤ x.lower.sign then x
  else if x.upper.sign ≤ 0 then x.neg
  else ⟨.zero, x.upper.greatest x.lower.neg⟩

/-- A power with a natural exponent, by squaring; the exponent's bits bound the recursion. -/
def pow (bits : Nat) (x : Interval) (n : Nat) : Interval :=
  if n = 0 then one
  else if n % 2 = 0 then
    let root := pow bits x (n / 2)
    (root.abs).mul bits (root.abs)
  else if n = 1 then x
  else
    let root := pow bits x (n / 2)
    ((root.abs).mul bits (root.abs)).mul bits x

/-! ### Scaled integers

A number `x` is represented by an integer near `x * 2 ^ width`.
-/

/-- The interval of numbers whose scaled integer differs from `value` by at most `error`. -/
def ofFixed (width : Nat) (value : Int) (error : Nat) : Interval :=
  ⟨⟨value - error, -width⟩, ⟨value + error, -width⟩⟩

/-- The floor of the product of two scaled integers. -/
def mulFixed (width : Nat) (x y : Int) : Int := Int.fdiv (x * y) ((2 ^ width : Nat) : Int)

/-- `2 ^ width * arctan (1 / k)` or, with `alternate` off, `2 ^ width * artanh (1 / k)`, from the power series; each
    summand is cut once or twice, and the summands end when they vanish. -/
def inverseSeries (alternate : Bool) (k : Nat) (width : Nat) : Int :=
  go (width + 2) (2 ^ width / k) 1 true 0
where
  /-- Add the summand `power / odd`, with its sign, and go on with the next one. -/
  go (fuel : Nat) (power odd : Nat) (positive : Bool) (sum : Int) : Int :=
    match fuel with
    | 0 => sum
    | fuel + 1 =>
      if power = 0 then sum
      else
        let term : Int := (power / odd : Nat)
        go fuel (power / (k * k)) (odd + 2) (if alternate then !positive else positive)
          (if positive then sum + term else sum - term)

/-- `2 ^ width * π`, wrong by less than one, by Machin's formula `π = 16 arctan (1/5) - 4 arctan (1/239)`. -/
def piFixed (width : Nat) : Int :=
  let guard := bitLength width + 10
  let w := width + guard
  Int.fdiv (16 * inverseSeries true 5 w - 4 * inverseSeries true 239 w) ((2 ^ guard : Nat) : Int)

/-- `2 ^ width * log 2`, wrong by less than one, as `18 artanh (1/26) - 2 artanh (1/4801) + 8 artanh (1/8749)`. -/
def ln2Fixed (width : Nat) : Int :=
  let guard := bitLength width + 10
  let w := width + guard
  Int.fdiv (18 * inverseSeries false 26 w - 2 * inverseSeries false 4801 w + 8 * inverseSeries false 8749 w)
    ((2 ^ guard : Nat) : Int)

/-- The sum of `x ^ k / k!` over all `k`, of its even part or of its odd part, with alternating signs if asked for:
    the first summand and the step between summands are given. -/
def factorialSeries (width : Nat) (x : Int) (first : Int) (index stride : Nat) (alternate : Bool) : Int :=
  go (2 * width + 16) first index 0
where
  /-- Add the summand `term` of degree `index` and go on with the next one. -/
  go (fuel : Nat) (term : Int) (index : Nat) (sum : Int) : Int :=
    match fuel with
    | 0 => sum
    | fuel + 1 =>
      if term.natAbs ≤ 1 then sum + term
      else
        let divisor : Int := if stride = 1 then (index + 1 : Nat) else ((index + 1) * (index + 2) : Nat)
        let next := Int.fdiv (mulFixed width term x) divisor
        go fuel (if alternate then -next else next) (index + stride) (sum + term)

/-- `2 ^ width * exp x` for a scaled `x` between zero and one: the argument is halved `halvings` times and the result
    squared as often. -/
def expFixed (width : Nat) (x : Int) : Int :=
  let halvings := isqrt width / 2 + 1
  let guard := 2 * halvings + bitLength width + 12
  let w := width + guard
  let reduced := Int.fdiv (x * ((2 ^ guard : Nat) : Int)) ((2 ^ halvings : Nat) : Int)
  let start := factorialSeries w reduced ((2 ^ w : Nat) : Int) 0 1 false
  let result := (List.range halvings).foldl (fun y _ => mulFixed w y y) start
  Int.fdiv result ((2 ^ guard : Nat) : Int)

/-- An enclosure of the exponential of an exact argument: the argument is reduced modulo `log 2`. -/
def expPoint (bits : Nat) (x : Binary) : Interval :=
  if x.isZero then one
  else if x.order < -(bits : Int) - 4 then
    -- so close to zero that the exponential agrees with one to all bits wanted
    if x.sign < 0 then
      ⟨(Binary.ofInt 1).add ⟨-1, -(bits : Int) - 2⟩, .ofInt 1⟩
    else ⟨.ofInt 1, (Binary.ofInt 1).add ⟨1, -(bits : Int) - 2⟩⟩
  else
    let magnitude := x.order.toNat
    let width := bits + 12
    let wide := width + magnitude + 8
    let scaled := x.toFixed wide
    let ln2 := ln2Fixed wide
    let k := Int.fdiv scaled ln2
    let rest := scaled - k * ln2
    let reduced := Int.fdiv rest ((2 ^ (magnitude + 8) : Nat) : Int)
    (ofFixed width (expFixed width reduced) 16).scale k

/-- An enclosure of the logarithm of an exact positive argument: `x = 2 ^ k * f` with `f` near one, and
    `log f = 2 artanh ((f - 1) / (f + 1))`. -/
def logPoint (bits : Nat) (x : Binary) : Interval :=
  let n := x.mantissa.natAbs
  let length := bitLength n
  if n = 0 then zero
  else
    -- `f = n / 2 ^ shift` lies between 3/4 and 3/2
    let shift := if n * 2 < 3 * 2 ^ (length - 1) then length - 1 else length
    let k := x.exponent + shift
    let distance := (n : Int) - ((2 ^ shift : Nat) : Int)
    if distance = 0 then
      if k = 0 then zero
      else
        let width := bits + 8
        (ofFixed width (ln2Fixed width) 1).mul bits (ofInt k)
    else
      let lost := shift - bitLength distance.natAbs
      let width := bits + 12 + (if k = 0 then lost else 0)
      let guard := bitLength width + 8
      let w := width + guard
      let ratio := Int.fdiv (distance * ((2 ^ w : Nat) : Int)) ((n : Int) + ((2 ^ shift : Nat) : Int))
      let square := mulFixed w ratio ratio
      let artanh := go w square (w + 2) ratio 1 0
      let logF := ofFixed width (Int.fdiv (2 * artanh) ((2 ^ guard : Nat) : Int)) 4
      if k = 0 then logF
      else
        let wide := width + bitLength k.natAbs
        ((ofFixed wide (ln2Fixed wide) 1).mul (bits + 8) (ofInt k)).add (bits + 8) logF
where
  /-- Add the summand `power / odd` and go on with the next one. -/
  go (w : Nat) (square : Int) (fuel : Nat) (power : Int) (odd : Nat) (sum : Int) : Int :=
    match fuel with
    | 0 => sum
    | fuel + 1 =>
      if power.natAbs ≤ 1 then sum + power
      else go w square fuel (mulFixed w power square) (odd + 2) (sum + Int.fdiv power odd)

/-- Scaled integers near the sine and the cosine of an exact argument, with a common error bound of 64: the argument
    is reduced modulo a quarter turn. -/
def sineCosineFixed (width : Nat) (x : Binary) : Int × Int :=
  let magnitude := x.order.toNat
  let wide := width + magnitude + 8
  let scaled := x.toFixed wide
  let halfPi := Int.fdiv (piFixed (wide + 1)) 4
  let k := Int.fdiv (2 * scaled + halfPi) (2 * halfPi)
  let rest := scaled - k * halfPi
  let reduced := Int.fdiv rest ((2 ^ (magnitude + 8) : Nat) : Int)
  let guard := bitLength width + 6
  let w := width + guard
  let r := reduced * ((2 ^ guard : Nat) : Int)
  let square := mulFixed w r r
  let sine := Int.fdiv (factorialSeries w square r 1 2 true) ((2 ^ guard : Nat) : Int)
  let cosine := Int.fdiv (factorialSeries w square ((2 ^ w : Nat) : Int) 0 2 true) ((2 ^ guard : Nat) : Int)
  match (k % 4).toNat with
  | 0 => (sine, cosine)
  | 1 => (cosine, -sine)
  | 2 => (-sine, -cosine)
  | _ => (-cosine, sine)

/-- The midpoint of an interval and the least upper bound of the distance from it. -/
def midpoint (x : Interval) : Binary × Binary :=
  ((x.lower.add x.upper).scale (-1), (x.upper.add x.lower.neg).scale (-1))

/-- Whether the endpoints are so far apart in magnitude that their exact sum would be long. -/
def isWide (bits : Nat) (x : Interval) : Bool :=
  !x.lower.isZero && !x.upper.isZero &&
    decide ((4 * bits + 4096 : Nat) < (x.lower.order - x.upper.order).natAbs)

/-- An interval around a scaled integer, widened by a distance. -/
def around (width : Nat) (value : Int) (error : Nat) (radius : Binary) (bits : Nat) : Interval :=
  let core := ofFixed width value error
  ⟨core.lower.addRounded .down bits radius.neg, core.upper.addRounded .up bits radius⟩

/-! ### Elementary functions -/

/-- The number `π`. -/
def pi (bits : Nat) : Interval := ofFixed (bits + 2) (piFixed (bits + 2)) 1

def exp (bits : Nat) (x : Interval) : Interval :=
  ⟨(expPoint bits x.lower).lower, (expPoint bits x.upper).upper⟩

/-- The logarithm, which is increasing, if the number is known to be positive. -/
def log? (bits : Nat) (x : Interval) : Option Interval :=
  if x.isPositive then some ⟨(logPoint bits x.lower).lower, (logPoint bits x.upper).upper⟩ else none

/-- Sine and cosine; both move no faster than their argument. -/
def sineCosine (bits : Nat) (x : Interval) : Option (Interval × Interval) :=
  if x.isZero then some (zero, one)
  else if x.isWide bits then none
  else
    let (middle, radius) := x.midpoint
    let deep := if middle.isZero then 0 else (-middle.order).toNat
    let width := bits + 12 + deep
    let (s, c) := sineCosineFixed width middle
    some (around width s 64 radius (bits + 8), around width c 64 radius (bits + 8))

/-- The scaled arc tangent of a scaled number between zero and one: the angle is halved three times, then the series
    is summed. -/
def arctanFixed (width : Nat) (x : Int) : Int :=
  let guard := bitLength width + 10
  let w := width + guard
  let one : Int := ((2 ^ w : Nat) : Int)
  let halve := fun (t : Int) =>
    let root := one + isqrt ((one * one + t * t).toNat)
    Int.fdiv (t * one) root
  let t := halve (halve (halve (x * ((2 ^ guard : Nat) : Int))))
  let square := mulFixed w t t
  Int.fdiv (8 * go w square (w + 2) t 1 true 0) ((2 ^ guard : Nat) : Int)
where
  /-- Add the summand `power / odd`, with its sign, and go on with the next one. -/
  go (w : Nat) (square : Int) (fuel : Nat) (power : Int) (odd : Nat) (positive : Bool) (sum : Int) : Int :=
    match fuel with
    | 0 => sum
    | fuel + 1 =>
      if power.natAbs ≤ 1 then sum
      else
        let term := Int.fdiv power odd
        go w square fuel (mulFixed w power square) (odd + 2) (!positive)
          (if positive then sum + term else sum - term)

/-- An enclosure of the arc tangent of an exact argument. -/
def arctanPoint (bits : Nat) (x : Binary) : Interval :=
  if x.isZero then zero
  else
    let a := x.abs
    let result :=
      if a.order ≤ 0 then
        let width := bits + 12 + (-a.order).toNat
        ofFixed width (arctanFixed width (a.toFixed width)) 8
      else
        let width := bits + 12
        let reciprocal := Binary.divRounded .nearest width (.ofInt 1) a
        let quarter := Int.fdiv (piFixed width) 2
        ofFixed width (quarter - arctanFixed width (reciprocal.toFixed width)) 12
    if x.sign < 0 then result.neg else result

def arctan (bits : Nat) (x : Interval) : Interval :=
  ⟨(arctanPoint bits x.lower).lower, (arctanPoint bits x.upper).upper⟩

/-! ### Accuracy -/

/-- Whether the interval is so narrow that `bits` significant bits of its number are known. -/
def isAccurate (bits : Nat) (x : Interval) : Bool :=
  if x.lower = x.upper then true
  else if x.containsZero then false
  else
    let width := x.upper.addRounded .up 8 x.lower.neg
    width.isZero || decide (width.order + bits < min x.lower.order x.upper.order)

/-- A number of the interval with `bits` significant bits: its lower end rounded to nearest, unless both ends round to
    the upper one. -/
def pick (bits : Nat) (x : Interval) : Binary :=
  let (a, b) := (x.lower.round .nearest bits, x.upper.round .nearest bits)
  if a.compare b = .eq then a
  else
    let middle := (x.lower.addRounded .nearest (bits + 8) x.upper).scale (-1)
    middle.round .nearest bits

end Interval

end Reckoner.Number
