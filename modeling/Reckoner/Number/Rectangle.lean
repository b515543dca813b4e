import Reckoner.Number.Interval

/-!
# Rectangles of complex numbers

A complex number known by an interval for its real part and one for its imaginary part.  A number is real when its
imaginary part is the exact zero interval, and the operations keep exact zeros wherever the mathematics does: the
power of `i` to `i` comes out real.
-/

namespace Reckoner.Number

/-- Complex numbers with real part in `re` and imaginary part in `im`. -/
structure Rectangle where
  re : Interval
  im : Interval
  deriving DecidableEq, Repr

namespace Rectangle

def ofReal (x : Interval) : Rectangle := ⟨x, .zero⟩

def one : Rectangle := ofReal .one

def imaginaryUnit : Rectangle := ⟨.zero, .one⟩

def isReal (z : Rectangle) : Bool := z.im.isZero

def isZero (z : Rectangle) : Bool := z.re.isZero && z.im.isZero

def add (bits : Nat) (z w : Rectangle) : Rectangle := ⟨z.re.add bits w.re, z.im.add bits w.im⟩

def neg (z : Rectangle) : Rectangle := ⟨z.re.neg, z.im.neg⟩

def mul (bits : Nat) (z w : Rectangle) : Rectangle :=
  ⟨(z.re.mul bits w.re).sub bits (z.im.mul bits w.im), (z.re.mul bits w.im).add bits (z.im.mul bits w.re)⟩

/-- The product by `i`. -/
def mulI (z : Rectangle) : Rectangle := ⟨z.im.neg, z.re⟩

def normSq (bits : Nat) (z : Rectangle) : Interval :=
  let a := z.re.abs
  let b := z.im.abs
  (a.mul bits a).add bits (b.mul bits b)

def abs? (bits : Nat) (z : Rectangle) : Option Interval :=
  if z.isReal then some z.re.abs
  else if z.re.isZero then some z.im.abs
  else (z.normSq bits).sqrt? bits

/-- The reciprocal, if the number is known not to be zero. -/
def inv? (bits : Nat) (z : Rectangle) : Option Rectangle :=
  if z.isReal then (z.re.inv? bits).map ofReal
  else
    ((z.normSq bits).inv? bits).map fun r => ⟨z.re.mul bits r, (z.im.mul bits r).neg⟩

def powNat (bits : Nat) (z : Rectangle) (n : Nat) : Rectangle :=
  if z.isReal then ofReal (z.re.pow bits n)
  else if n = 0 then one
  else if n = 1 then z
  else
    let root := powNat bits z (n / 2)
    let square := root.mul bits root
    if n % 2 = 0 then square else square.mul bits z

def powInt? (bits : Nat) (z : Rectangle) (n : Int) : Option Rectangle :=
  if 0 ≤ n then some (z.powNat bits n.toNat) else (z.powNat bits n.natAbs).inv? bits

/-- The angle in the half-open range from `-π` to `π`, if the number is known to avoid the negative half-axis and
    zero or to lie on an axis. -/
def arg? (bits : Nat) (z : Rectangle) : Option Interval :=
  let halfPi := (Interval.pi bits).scale (-1)
  if z.im.isZero then
    if z.re.isPositive then some .zero
    else if z.re.isNegative then some (Interval.pi bits)
    else none
  else if z.re.isZero then
    if z.im.isPositive then some halfPi
    else if z.im.isNegative then some halfPi.neg
    else none
  else if z.im.isPositive then
    (z.im.inv? bits).map fun r => halfPi.sub bits (Interval.arctan bits (z.re.mul bits r))
  else if z.im.isNegative then
    (z.im.inv? bits).map fun r => (halfPi.neg).sub bits (Interval.arctan bits (z.re.mul bits r))
  else if z.re.isPositive then
    (z.re.inv? bits).map fun r => Interval.arctan bits (z.im.mul bits r)
  else none

def log? (bits : Nat) (z : Rectangle) : Option Rectangle := do
  if z.isReal && z.re.isPositive then
    return ofReal (← z.re.log? bits)
  let modulus ←
    if z.isReal then z.re.abs.log? bits
    else if z.re.isZero then z.im.abs.log? bits
    else ((z.normSq bits).log? bits).map (·.scale (-1))
  return ⟨modulus, ← z.arg? bits⟩

def exp? (bits : Nat) (z : Rectangle) : Option Rectangle := do
  let size := Interval.exp bits z.re
  if z.isReal then return ofReal size
  let (s, c) ← z.im.sineCosine bits
  return ⟨size.mul bits c, size.mul bits s⟩

def pow? (bits : Nat) (z w : Rectangle) : Option Rectangle := do
  let l ← z.log? bits
  (w.mul bits l).exp? bits

def sineCosine? (bits : Nat) (z : Rectangle) : Option (Rectangle × Rectangle) := do
  if z.isReal then
    let (s, c) ← z.re.sineCosine bits
    return (ofReal s, ofReal c)
  let (s, c) ← z.re.sineCosine bits
  let up := Interval.exp bits z.im
  let down := Interval.exp bits z.im.neg
  let cosh := (up.add bits down).scale (-1)
  let sinh := (up.sub bits down).scale (-1)
  return (⟨s.mul bits cosh, c.mul bits sinh⟩, ⟨c.mul bits cosh, (s.mul bits sinh).neg⟩)

end Rectangle

end Reckoner.Number
