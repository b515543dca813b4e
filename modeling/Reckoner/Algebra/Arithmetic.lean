import Reckoner.Algebra.Enclosure
import Reckoner.Algebra.Radical

/-!
# Sums, products and powers

Operations on terms whose results are in simplest form again.  On rationals they are rational arithmetic.  A sum
merges summands that differ by a rational factor, a product merges factors with equal bases, and a power is carried
into products and powers wherever principal values allow it.

The infinities follow the rules of the extended real line; an operation without a value gives `undefined`, a division
of a nonzero number by zero the unsigned infinity.  A rounded number absorbs every real number it is combined with.
-/

namespace Reckoner.Algebra

open Reckoner.Number

namespace Term

/-! ### Rounded numbers -/

/-- A rounded number; zero is exact again. -/
def ofBinary (x : Binary) (bits : Nat) : Term := if x.isZero then zero else .float x bits

/-- The value of a number with `bits` bits. -/
def binary? (bits : Nat) : Term → Option Binary
  | .rational q => some (.ofRat .nearest bits q)
  | .float x _ => some x
  | _ => none

def floatBits? : Term → Option Nat
  | .float _ bits => some bits
  | _ => none

/-- The greatest precision among rounded numbers, if there are any. -/
def commonBits? (ts : List Term) : Option Nat :=
  (ts.filterMap floatBits?).foldl (fun m bits => some (match m with | some k => max k bits | none => bits)) none

/-- A real term rounded to `bits` bits; every other term is left as it is. -/
def toFloat (bits : Nat) (t : Term) : Term :=
  match t with
  | .float x old => if old ≤ bits then t else ofBinary (x.round .nearest bits) bits
  | _ =>
    match t.realValue? bits with
    | some x => ofBinary x bits
    | none => t

def addNumbers (a b : Term) : Term :=
  match a, b with
  | .rational p, .rational q => .rational (p + q)
  | _, _ =>
    let bits := (commonBits? [a, b]).getD 53
    match a.binary? bits, b.binary? bits with
    | some x, some y => ofBinary ((x.addRounded .nearest bits y).normal) bits
    | _, _ => .undefined

def mulNumbers (a b : Term) : Term :=
  match a, b with
  | .rational p, .rational q => .rational (p * q)
  | _, _ =>
    let bits := (commonBits? [a, b]).getD 53
    match a.binary? bits, b.binary? bits with
    | some x, some y => ofBinary ((x.mulRounded .nearest bits y).normal) bits
    | _, _ => .undefined

/-! ### Sums -/

/-- A finite term as a rational coefficient and a unit. -/
def splitCoefficient : Term → Rat × Term
  | .rational q => (q, one)
  | .product [.rational q, t] => (q, t)
  | .product (.rational q :: rest) => (q, .product rest)
  | t => (1, t)

def withCoefficient (q : Rat) (unit : Term) : Term :=
  if q = 0 then zero
  else
    match unit with
    | .rational r => .rational (q * r)
    | .product factors => if q = 1 then unit else .product (.rational q :: factors)
    | t => if q = 1 then t else .product [.rational q, t]

def summands : Term → List Term
  | .sum terms => terms
  | t => [t]

/-- Add a multiple of a unit to a sorted list of multiples of distinct units. -/
def insertSummand (q : Rat) (unit : Term) : List (Rat × Term) → List (Rat × Term)
  | [] => [(q, unit)]
  | (r, other) :: rest =>
    match unit.compare other with
    | .eq => if q + r = 0 then rest else (q + r, other) :: rest
    | .lt => (q, unit) :: (r, other) :: rest
    | .gt => (r, other) :: insertSummand q unit rest

/-- The sum of a number and of multiples of units. -/
def ofSummands (constant : Term) (multiples : List (Rat × Term)) : Term :=
  let terms := multiples.map fun (q, unit) => withCoefficient q unit
  let all := if constant.code == zero.code then terms else constant :: terms
  match all with
  | [] => zero
  | [t] => t
  | _ => .sum all

def sumFinite (terms : List Term) : Term :=
  let constant := (terms.filter isNumber).foldl addNumbers zero
  let multiples := (terms.filter (!·.isNumber)).foldl
    (fun acc t => let (q, unit) := t.splitCoefficient; insertSummand q unit acc) []
  match constant, multiples with
  | .float _ bits, _ :: _ =>
    if multiples.all (·.2.isReal) then
      multiples.foldl (fun acc (q, unit) => addNumbers acc (toFloat bits (withCoefficient q unit))) constant
    else ofSummands constant multiples
  | _, _ => ofSummands constant multiples

/-- Whether a summand disappears beside an infinity. -/
def isAbsorbed : Term → Bool
  | .oscillation => true
  | .infinity _ => true
  | t => t.isReal

/-- The sum of several summands, infinities among them. -/
def sumOf (terms : List Term) : Term :=
  let signs := terms.filterMap infinity?
  let unsigned := (terms.filter fun t => t matches .complexInfinity).length
  if terms.any (fun t => t matches .undefined) then .undefined
  else if 0 < unsigned then
    if 1 < unsigned ∨ signs ≠ [] then .undefined else .complexInfinity
  else
    match signs with
    | [] => sumFinite terms
    | s :: rest =>
      if rest.any (· != s) then .undefined
      else
        match terms.filter (!·.isAbsorbed) with
        | [] => .infinity s
        | others => .sum (.infinity s :: others)

def add (a b : Term) : Term :=
  match a, b with
  | .rational p, .rational q => .rational (p + q)
  | _, _ => sumOf (a.summands ++ b.summands)

@[simp] theorem add_rational (p q : Rat) : add (.rational p) (.rational q) = .rational (p + q) := rfl

/-- A finite term multiplied by a rational, which is carried into a sum. -/
def scale (q : Rat) (t : Term) : Term :=
  if q = 0 then zero
  else
    match t with
    | .sum terms => .sum (terms.map (scaleOne q))
    | _ => scaleOne q t
where
  /-- A term that is no sum multiplied by a rational. -/
  scaleOne (q : Rat) (t : Term) : Term :=
    match t with
    | .float _ _ => mulNumbers (.rational q) t
    | _ => let (r, unit) := t.splitCoefficient; withCoefficient (q * r) unit

/-! ### Products -/

/-- A rational coefficient and factors, each a base with its exponent. -/
abbrev Monomial := Rat × List (Term × Term)

def splitPower : Term → Term × Term
  | .power base exponent => (base, exponent)
  | t => (t, one)

def monomial : Term → Monomial
  | .rational q => (q, [])
  | .product (.rational q :: factors) => (q, factors.map splitPower)
  | .product factors => (1, factors.map splitPower)
  | t => (1, [t.splitPower])

/-- A power of minus one with a fractional exponent. -/
def unitRoot (r : Rat) : Monomial :=
  let whole := r.floor
  (if whole % 2 = 0 then 1 else -1, if r - whole = 0 then [] else [(minusOne, .rational (r - whole))])

def integerPower (q : Rat) (n : Int) : Rat := if 0 ≤ n then ratPow q n.toNat else (ratPow q n.natAbs)⁻¹

def rationalPower (q r : Rat) : Monomial :=
  if r.den = 1 then (integerPower q r.num, [])
  else
    let (c, root) := if q < 0 then unitRoot r else (1, [])
    let (c₁, above) := radical q.num.natAbs r
    let (c₂, below) := radical q.den (-r)
    let bases := above ++ below
    (c * c₁ * c₂, root ++ bases.map fun (base, exponent) => (.rational base, .rational exponent))

def simplifyFactor (base exponent : Term) : Monomial :=
  match base, exponent with
  | .rational q, .rational r => if r = 0 then (1, []) else rationalPower q r
  | _, .rational r => if r = 0 then (1, []) else (1, [(base, exponent)])
  | _, _ => (1, [(base, exponent)])

/-- Multiply a sorted list of factors with distinct bases by one more factor. -/
def insertFactor (base exponent : Term) : List (Term × Term) → List (Term × Term)
  | [] => [(base, exponent)]
  | (other, present) :: rest =>
    match base.compare other with
    | .eq => (other, add exponent present) :: rest
    | .lt => (base, exponent) :: (other, present) :: rest
    | .gt => (other, present) :: insertFactor base exponent rest

/-- The product of two monomials: factors with equal bases are merged and then simplified. -/
def mulMonomials (m n : Monomial) : Monomial :=
  let merged := (m.2 ++ n.2).foldl (fun acc (base, exponent) => insertFactor base exponent acc) []
  merged.foldl
    (fun (c, factors) (base, exponent) =>
      let (d, simpler) := simplifyFactor base exponent
      (c * d, factors ++ simpler))
    (m.1 * n.1, [])

def ofFactor (base exponent : Term) : Term :=
  match exponent with
  | .rational r => if r = 1 then base else .power base exponent
  | _ => .power base exponent

/-- A monomial as a term; a rational coefficient is carried into a sum. -/
def ofMonomial (m : Monomial) : Term :=
  if m.1 = 0 then zero
  else
    match m.2 with
    | [] => .rational m.1
    | [(base, exponent)] => scale m.1 (ofFactor base exponent)
    | factors =>
      let terms := factors.map fun (base, exponent) => ofFactor base exponent
      .product (if m.1 = 1 then terms else .rational m.1 :: terms)

def isZero : Term → Bool
  | .rational q => q == 0
  | .float x _ => x.isZero
  | _ => false

def mulFinite (a b : Term) : Term :=
  if a.isZero || b.isZero then zero
  else if a.isNumber && b.isNumber then mulNumbers a b
  else
    match commonBits? [a, b] with
    | some bits =>
      if a.isReal && b.isReal then mulNumbers (toFloat bits a) (toFloat bits b)
      else ofMonomial (mulMonomials a.monomial b.monomial)
    | none => ofMonomial (mulMonomials a.monomial b.monomial)

def factors : Term → List Term
  | .product factors => factors
  | t => [t]

def mulInfinite (negative : Bool) (others : List Term) : Term :=
  if others.any isZero then .undefined
  else
    match others.mapM sign? with
    | some signs =>
      let sign := signs.foldl (· * ·) (if negative then -1 else 1)
      if sign = 0 then .undefined else .infinity (decide (sign < 0))
    | none => .product (.infinity negative :: others)

def mul (a b : Term) : Term :=
  match a, b with
  | .rational p, .rational q => .rational (p * q)
  | _, _ =>
    let all := a.factors ++ b.factors
    if all.any (fun t => t matches .undefined) then .undefined
    else if all.any (fun t => t matches .complexInfinity) then
      if all.any isZero then .undefined else .complexInfinity
    else
      match all.filterMap infinity? with
      | [] => mulFinite a b
      | s :: rest =>
        let negative := rest.foldl (· != ·) s
        mulInfinite negative (all.filter fun t => t.infinity?.isNone)

@[simp] theorem mul_rational (p q : Rat) : mul (.rational p) (.rational q) = .rational (p * q) := rfl

def neg (t : Term) : Term := mul minusOne t

def sub (a b : Term) : Term := add a (neg b)

/-! ### Powers -/

/-- Exponential of an imaginary multiple of `π`, if the exponent is one: `e ^ (i * π * r)` is `(-1) ^ r`. -/
def turn? (t : Term) : Option Rat :=
  let (r, factors) := t.monomial
  match factors with
  | [(.rational q, .rational h), (.pi, .rational p)] => if q = -1 ∧ h = 1 / 2 ∧ p = 1 then some r else none
  | _ => none

/-- The argument of a multiple of a logarithm, with the multiplier. -/
def logarithmPower? (t : Term) : Option (Term × Rat) :=
  match t.splitCoefficient with
  | (r, .call .logarithm [x]) => if r.den = 1 || x.isPositive then some (x, r) else none
  | _ => none

/-- A power of `e` whose exponent is finite. -/
def expFinite (t : Term) : Term :=
  match t with
  | .rational q => if q = 0 then one else if q = 1 then .e else .power .e t
  | .float _ bits => toFloat bits (.power .e t)
  | _ =>
    match turn? t with
    | some r => ofMonomial (unitRoot r)
    | none => .power .e t

/-- A power of a finite base with a rational exponent. -/
def powRational (base : Term) (r : Rat) : Term :=
  if r = 1 then base
  else
    match base with
    | .rational q =>
      if q = 0 then (if 0 < r then zero else .complexInfinity) else ofMonomial (rationalPower q r)
    | .float x bits =>
      if r.den = 1 || !(decide (x.sign < 0)) then toFloat bits (.power base (.rational r)) else .power base (.rational r)
    | .e => .power .e (.rational r)
    | .power inner exponent =>
      if r.den = 1 || (inner.isPositive && exponent.isReal) || (inner.code == minusOne.code) then
        ofMonomial (simplifyFactor inner (scale r exponent))
      else .power base (.rational r)
    | .product _ =>
      let (q, factors) := base.monomial
      if r.den = 1 then
        ofMonomial (mulMonomials (integerPower q r.num, [])
          (1, factors.map fun (inner, exponent) => (inner, scale r exponent)))
      else
        let isPositiveFactor : Term × Term → Bool := fun (inner, exponent) => inner.isPositive && exponent.isReal
        let positive := factors.filter isPositiveFactor
        let rest := factors.filter (!isPositiveFactor ·)
        let scaled := positive.map fun (inner, exponent) => (inner, scale r exponent)
        match rest with
        | [] => ofMonomial (mulMonomials (rationalPower q r) (1, scaled))
        | _ :: _ =>
          let kept := ofMonomial (if q < 0 then -1 else 1, rest)
          let outer := rationalPower (if q < 0 then -q else q) r
          ofMonomial (mulMonomials outer (1, scaled ++ [(kept, .rational r)]))
    | t => .power t (.rational r)

/-- A power with an infinite exponent: it depends on whether the base is greater or smaller than one. -/
def powInfinite (base : Term) (negative : Bool) : Term :=
  let size := match base with
    | .infinity _ => some 1
    | .rational q => some (if q < 0 then (if -1 < q then -1 else 2) else if q = 1 then 0 else if q < 1 then -1 else 1)
    | t =>
      match t.sign?, (sub t one).sign? with
      | some s, some d => some (if s < 0 then 2 else d)
      | _, _ => none
  match size with
  | some 0 => .undefined
  | some 1 => if negative then zero else .infinity false
  | some (-1) => if negative then .complexInfinity else zero
  | some _ => if negative then zero else .complexInfinity
  | none => .undefined

def powOfInfinity (negative : Bool) (exponent : Term) : Term :=
  match exponent.sign? with
  | some s =>
    if s < 0 then zero
    else if !negative then .infinity false
    else
      match exponent with
      | .rational r =>
        if r.den = 1 then .infinity (decide (r.num % 2 = 1))
        else mul (ofMonomial (unitRoot r)) (.infinity false)
      | _ => .complexInfinity
  | none => .undefined

def exp (t : Term) : Term :=
  match t with
  | .undefined => .undefined
  | .complexInfinity => .undefined
  | .infinity negative => if negative then zero else .infinity false
  | _ =>
    let (logarithms, others) := t.summands.partition fun s => (logarithmPower? s).isSome
    let outside := (logarithms.filterMap logarithmPower?).map fun (x, r) => powRational x r
    outside.foldl mul (match others with | [] => one | _ => expFinite (sumOf others))

def pow (base exponent : Term) : Term :=
  match base, exponent with
  | .rational q, .rational r =>
    if r.den = 1 then
      if q = 0 ∧ r < 0 then .complexInfinity else .rational (integerPower q r.num)
    else powRational base r
  | _, .rational r =>
    if r = 0 then one
    else
      match base with
      | .undefined => .undefined
      | .complexInfinity => if r < 0 then zero else .complexInfinity
      | .infinity negative => powOfInfinity negative exponent
      | _ => powRational base r
  | .undefined, _ => .undefined
  | _, .undefined => .undefined
  | _, .complexInfinity => .undefined
  | .e, _ => exp exponent
  | .complexInfinity, _ =>
    match exponent.sign? with
    | some s => if s < 0 then zero else .complexInfinity
    | none => .undefined
  | _, .infinity negative => powInfinite base negative
  | .infinity negative, _ => powOfInfinity negative exponent
  | .rational q, _ =>
    if q = 1 then one
    else if q = 0 then
      match exponent.sign? with
      | some s => if s < 0 then .complexInfinity else zero
      | none => .power base exponent
    else
      match exponent with
      | .float _ bits => if 0 < q then toFloat bits (.power base exponent) else .power base exponent
      | _ => .power base exponent
  | .float x bits, _ =>
    if !(decide (x.sign < 0)) && exponent.isReal then toFloat bits (.power base exponent) else .power base exponent
  | .power inner first, _ =>
    if inner.isPositive && first.isReal then ofMonomial (simplifyFactor inner (mul first exponent))
    else .power base exponent
  | _, .float _ bits => if base.isPositive then toFloat bits (.power base exponent) else .power base exponent
  | _, _ => .power base exponent

theorem pow_rational_of_isInt {q r : Rat} (h : r.den = 1) (hq : ¬ (q = 0 ∧ r < 0)) :
    pow (.rational q) (.rational r) = .rational (integerPower q r.num) := by
  simp only [pow, h, if_true, hq, if_false]

def inv (t : Term) : Term := pow t minusOne

/-- The quotient of two terms.  An infinity divided by a number keeps its sign, also when the number is zero. -/
def div (a b : Term) : Term :=
  match a, b with
  | .infinity negative, .rational q => .infinity (negative != decide (q < 0))
  | .infinity negative, .float x _ => .infinity (negative != decide (x.sign < 0))
  | .infinity _, .infinity _ => .undefined
  | .infinity _, .undefined => .undefined
  | _, _ => mul a (inv b)

def sqrt (t : Term) : Term := pow t half

end Term

end Reckoner.Algebra
