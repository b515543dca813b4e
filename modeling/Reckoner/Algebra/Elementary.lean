import Reckoner.Algebra.Arithmetic

/-!
# Elementary functions

Logarithms, trigonometric functions and the absolute value in simplest form: sines at multiples of `π / 12`, powers
inside logarithms and logarithms inside powers are resolved exactly, everything else stays a function call.
-/

namespace Reckoner.Algebra

open Reckoner.Number

namespace Term

/-- A function call, at once as a number if an argument is a rounded real number. -/
def callFinite (f : NamedFunction) (t : Term) : Term :=
  match t with
  | .float _ bits => toFloat bits (.call f [t])
  | _ => .call f [t]

/-- The multiple of `π` that a term is, if it is one. -/
def halfTurns? (t : Term) : Option Rat :=
  match t.splitCoefficient with
  | (r, .pi) => some r
  | (r, _) => if r = 0 then some 0 else none

/-- Whether the first coefficient of a term is negative. -/
def startsNegative : Term → Bool
  | .rational q => q < 0
  | .float x _ => x.sign < 0
  | .sum (t :: _) => t.splitCoefficient.1 < 0
  | t => t.splitCoefficient.1 < 0

def rootThree : Term := .power (.rational 3) half

def rootTwo : Term := .power (.rational 2) half

/-- The square root of six, as a product of roots of primes. -/
def rootSix : Term := mul rootTwo rootThree

/-- The sine of `k * π / 12` for `k` up to six. -/
def sineTable (k : Nat) : Term :=
  match k with
  | 0 => zero
  | 1 => add (scale (1 / 4) rootSix) (scale (-1 / 4) rootTwo)
  | 2 => half
  | 3 => scale (1 / 2) rootTwo
  | 4 => scale (1 / 2) rootThree
  | 5 => add (scale (1 / 4) rootSix) (scale (1 / 4) rootTwo)
  | _ => one

/-- The tangent of `k * π / 12` for `k` up to six. -/
def tangentTable (k : Nat) : Term :=
  match k with
  | 0 => zero
  | 1 => sub (.rational 2) rootThree
  | 2 => scale (1 / 3) rootThree
  | 3 => one
  | 4 => rootThree
  | 5 => add (.rational 2) rootThree
  | _ => .complexInfinity

/-- The sine of `r` half turns. -/
def sineOfTurns (r : Rat) : Term :=
  let turn := r - 2 * ((r / 2).floor : Rat)
  let (negative, upper) := if 1 ≤ turn then (true, turn - 1) else (false, turn)
  let first := if 1 / 2 < upper then 1 - upper else upper
  let value :=
    if (first * 12).den = 1 then sineTable (first * 12).num.toNat else .call .sine [withCoefficient first .pi]
  if negative then neg value else value

/-- The tangent of `r` half turns. -/
def tangentOfTurns (r : Rat) : Term :=
  let turn := r - (r.floor : Rat)
  let (negative, first) := if 1 / 2 < turn then (true, 1 - turn) else (false, turn)
  let value :=
    if (first * 12).den = 1 then tangentTable (first * 12).num.toNat else .call .tangent [withCoefficient first .pi]
  if negative then neg value else value

/-- The value of a trigonometric function at an argument without a finite value, if the argument is such a one. -/
def atInfinity? : Term → Option Term
  | .undefined => some .undefined
  | .complexInfinity => some .undefined
  | .infinity _ => some .oscillation
  | .oscillation => some .oscillation
  | _ => none

def sin (t : Term) : Term :=
  match atInfinity? t with
  | some value => value
  | none =>
    match halfTurns? t with
    | some r => sineOfTurns r
    | none => if t.startsNegative then neg (callFinite .sine (neg t)) else callFinite .sine t

def cos (t : Term) : Term :=
  match atInfinity? t with
  | some value => value
  | none =>
    match halfTurns? t with
    | some r => sineOfTurns (r + 1 / 2)
    | none => if t.startsNegative then callFinite .cosine (neg t) else callFinite .cosine t

def tan (t : Term) : Term :=
  match atInfinity? t with
  | some value => value
  | none =>
    match halfTurns? t with
    | some r => tangentOfTurns r
    | none => if t.startsNegative then neg (callFinite .tangent (neg t)) else callFinite .tangent t

/-! ### Logarithms -/

/-- The number `π * i`. -/
def piTimesI : Term := mul imaginaryUnit .pi

/-- The natural logarithm of a term that is neither zero nor a negative number. -/
def logFinite (t : Term) : Term :=
  match t with
  | .rational q =>
    if q = 1 then zero
    else if q.num = 1 then neg (.call .logarithm [.rational q.den])
    else .call .logarithm [t]
  | .e => one
  | .power .e exponent => if exponent.isReal then exponent else .call .logarithm [t]
  | _ => callFinite .logarithm t

def log (t : Term) : Term :=
  match t with
  | .undefined => .undefined
  | .complexInfinity => .complexInfinity
  | .infinity _ => .infinity false
  | .rational q =>
    if q = 0 then .complexInfinity
    else if q < 0 then add (logFinite (.rational (-q))) piTimesI
    else logFinite t
  | .oscillation => .oscillation
  | _ => if t.sign? = some (-1) then add (logFinite (neg t)) piTimesI else logFinite t

/-- The multiplicity of a whole base greater than one in a whole number other than zero. -/
def wholeMultiplicity? (base n : Int) : Option Int :=
  if base < 2 ∨ n = 0 then none else some ((multiplicity base.toNat n.natAbs).1 : Int)

/-- The multiplicity of a rational base in a rational: how often the base can be divided out of it. -/
def rationalMultiplicity? (base q : Rat) : Option Int :=
  if base.den = 1 ∧ q.den = 1 then wholeMultiplicity? base.num q.num
  else if base.den = 1 then
    if q.num = 1 then (wholeMultiplicity? base.num q.den).map (- ·)
    else do return (← wholeMultiplicity? base.num q.num) - (← wholeMultiplicity? base.num q.den)
  else if base.num = 1 then wholeMultiplicity? base.den q.den
  else do
    let like := min (← wholeMultiplicity? base.num q.num) (← wholeMultiplicity? base.den q.den)
    let cross := min (← wholeMultiplicity? base.den q.num) (← wholeMultiplicity? base.num q.den)
    return like - cross

/-- The logarithm of `t` to a base: powers of a rational base are divided out exactly. -/
def logBase (t base : Term) : Term :=
  let quotient := fun (x : Term) => div (log x) (log base)
  match t, base with
  | _, .rational b =>
    if b = 1 then (if t.code == one.code then .undefined else .complexInfinity)
    else
      match t with
      | .rational q =>
        match rationalMultiplicity? b q with
        | some n => if n = 0 then quotient t else add (ofInt n) (quotient (.rational (q / integerPower b n)))
        | none => quotient t
      | _ => quotient t
  | _, _ => quotient t

/-! ### Absolute value -/

/-- Real and imaginary part of a number with rational parts. -/
def rationalParts? (t : Term) : Option (Rat × Rat) :=
  t.summands.foldl
    (fun acc s =>
      match acc, s.splitCoefficient with
      | some (a, b), (q, unit) =>
        if unit.code == one.code then some (a + q, b)
        else if unit.code == imaginaryUnit.code then some (a, b + q)
        else none
      | none, _ => none)
    (some (0, 0))

def abs (t : Term) : Term :=
  match t with
  | .rational q => .rational (if q < 0 then -q else q)
  | .undefined => .undefined
  | .complexInfinity => .infinity false
  | .infinity _ => .infinity false
  | _ =>
    match t.sign? with
    | some s => if s < 0 then neg t else t
    | none =>
      match rationalParts? t with
      | some (a, b) => sqrt (.rational (a * a + b * b))
      | none => .call .absolute [t]

def signTerm (t : Term) : Term :=
  match t with
  | .undefined => .undefined
  | .complexInfinity => .undefined
  | _ =>
    match t.sign? with
    | some s => ofInt s
    | none => .call .sign [t]

end Term

end Reckoner.Algebra
