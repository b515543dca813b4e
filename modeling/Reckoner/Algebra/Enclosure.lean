import Reckoner.Algebra.Term
import Reckoner.Number.Rectangle

/-!
# Enclosures of terms

A closed term denotes a complex number, which is enclosed in a rectangle at any precision.  Whether the number is
real, what its sign is and what its leading bits are is decided by enclosing it ever more narrowly.  A number that
cannot be told from zero at the last precision counts as zero.
-/

namespace Reckoner.Algebra

open Reckoner.Number

/-- Why a term could not be enclosed: it denotes no number, or the precision was too low. -/
inductive Obstacle
  | noNumber
  | tooCoarse
  deriving DecidableEq, Repr

namespace Term

/-- A value that is missing because the precision was too low. -/
def orCoarse (z : Option Rectangle) : Except Obstacle Rectangle :=
  match z with
  | some z => .ok z
  | none => .error .tooCoarse

/-- The cosine and the sine of a rational part of a half turn, as a complex number. -/
def rootOfUnity (bits : Nat) (r : Rat) : Option Rectangle :=
  if r = 1 / 2 then some .imaginaryUnit
  else
    let angle := (Interval.pi bits).mul bits (Interval.ofRat bits r)
    (angle.sineCosine bits).map fun (s, c) => ⟨c, s⟩

/-- Exponentials of numbers beyond this many binary digits are not attempted. -/
def exponentLimit : Int := 60000

/-- The exponential, unless its argument is too large. -/
def boundedExp (bits : Nat) (z : Rectangle) : Except Obstacle Rectangle :=
  if exponentLimit < z.re.lower.order ∨ exponentLimit < z.re.upper.order then .error .noNumber
  else orCoarse (z.exp? bits)

/-- A power of enclosed numbers.  `base` and `exponent` are the terms that they enclose. -/
def enclosePower (bits : Nat) (base exponent : Term) (z w : Rectangle) : Except Obstacle Rectangle :=
  match base, exponent with
  | .e, _ => boundedExp bits w
  | .rational b, .rational r =>
    if r.den = 1 then orCoarse (z.powInt? bits r.num)
    else if b = -1 then orCoarse (rootOfUnity bits r)
    else if r.den = 2 ∧ 0 ≤ b then
      orCoarse do
        let root ← z.re.sqrt? bits
        (Rectangle.ofReal root).powInt? bits r.num
    else do boundedExp bits (w.mul bits (← orCoarse (z.log? bits)))
  | _, .rational r =>
    if r.den = 1 then orCoarse (z.powInt? bits r.num)
    else if r.den = 2 ∧ z.isReal ∧ 0 ≤ z.re.lower.sign then
      orCoarse do
        let root ← z.re.sqrt? bits
        (Rectangle.ofReal root).powInt? bits r.num
    else do boundedExp bits (w.mul bits (← orCoarse (z.log? bits)))
  | _, _ => do boundedExp bits (w.mul bits (← orCoarse (z.log? bits)))

def encloseCall (bits : Nat) (f : NamedFunction) (arguments : List Rectangle) : Except Obstacle Rectangle :=
  match f, arguments with
  | .sine, [z] => orCoarse ((z.sineCosine? bits).map (·.1))
  | .cosine, [z] => orCoarse ((z.sineCosine? bits).map (·.2))
  | .tangent, [z] =>
    orCoarse do
      let (s, c) ← z.sineCosine? bits
      return s.mul bits (← c.inv? bits)
  | .logarithm, [z] => orCoarse (z.log? bits)
  | .absolute, [z] => orCoarse ((z.abs? bits).map Rectangle.ofReal)
  | _, _ => .error .noNumber

mutual

/-- A rectangle that contains the number denoted by a term, computed with `bits` bits. -/
def enclose (bits : Nat) : Term → Except Obstacle Rectangle
  | .rational q => .ok (.ofReal (.ofRat bits q))
  | .float x _ => .ok (.ofReal (.point x))
  | .pi => .ok (.ofReal (.pi bits))
  | .e => .ok (.ofReal (Interval.exp bits .one))
  | .sum terms => encloseSum bits terms
  | .product factors => encloseProduct bits factors
  | .power base exponent => do
    let z ← enclose bits base
    let w ← enclose bits exponent
    enclosePower bits base exponent z w
  | .call f arguments => do
    let zs ← encloseAll bits arguments
    encloseCall bits f zs
  | _ => .error .noNumber

def encloseSum (bits : Nat) : List Term → Except Obstacle Rectangle
  | [] => .ok (.ofReal .zero)
  | t :: rest => do
    let z ← enclose bits t
    let w ← encloseSum bits rest
    .ok (z.add bits w)

def encloseProduct (bits : Nat) : List Term → Except Obstacle Rectangle
  | [] => .ok .one
  | t :: rest => do
    let z ← enclose bits t
    let w ← encloseProduct bits rest
    .ok (z.mul bits w)

def encloseAll (bits : Nat) : List Term → Except Obstacle (List Rectangle)
  | [] => .ok []
  | t :: rest => do
    let z ← enclose bits t
    let w ← encloseAll bits rest
    .ok (z :: w)

end

/-- What enclosing a term has shown: a real number in an interval, a number that is not real, or nothing. -/
inductive Estimate
  | real (x : Interval)
  | complex
  | nothing
  deriving DecidableEq, Repr

/-- Enclose a term at one precision after the other until `bits` bits of a real number are known. -/
def refine (bits : Nat) (t : Term) : List Nat → Estimate
  | [] => .nothing
  | precision :: rest =>
    match enclose precision t with
    | .error .noNumber => .nothing
    | .error .tooCoarse => refine bits t rest
    | .ok z =>
      if !z.im.containsZero then .complex
      else if z.im.isZero && z.re.isAccurate bits then .real z.re
      else
        match rest with
        | [] => if z.re.containsZero then .real .zero else .real z.re
        | _ :: _ => refine bits t rest

/-- The real number denoted by a term, known to `bits` bits. -/
def estimate (bits : Nat) (t : Term) : Estimate :=
  refine bits t [bits + 24, 2 * bits + 64, 2 * bits + 400, 2 * bits + 1600]

/-- The number nearest to a real term among those with `bits` bits. -/
def realValue? (bits : Nat) (t : Term) : Option Binary :=
  match t with
  | .rational q => some (.ofRat .nearest bits q)
  | .float x _ => some (x.round .nearest bits)
  | _ =>
    match estimate (bits + 8) t with
    | .real x => some (x.pick bits)
    | _ => none

/-- The sign of a real term, the infinities included. -/
def sign? : Term → Option Int
  | .rational q => some q.num.sign
  | .float x _ => some x.sign
  | .infinity negative => some (if negative then -1 else 1)
  | .pi => some 1
  | .e => some 1
  | t =>
    match estimate 8 t with
    | .real x => some x.lower.sign
    | _ => none

def isReal : Term → Bool
  | .rational _ => true
  | .float _ _ => true
  | .pi => true
  | .e => true
  | t =>
    match estimate 8 t with
    | .real _ => true
    | _ => false

/-- Whether a term denotes a positive real number. -/
def isPositive (t : Term) : Bool := t.sign? == some 1

end Term

end Reckoner.Algebra
