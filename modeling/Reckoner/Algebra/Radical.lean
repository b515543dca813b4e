import Reckoner.Number.Rounding

/-!
# Radicals

A rational power of a natural number is written as a rational times powers of distinct bases with exponents strictly
between zero and one: `8 ^ (1/2)` is `2 * 2 ^ (1/2)`.  Bases come from trial division by small divisors; what is left
over is a base of its own, reduced only where it is a perfect power.
-/

namespace Reckoner.Algebra

open Reckoner.Number

/-- The greatest natural whose `k`-th power is at most `n`, by Newton's iteration from above. -/
def rootFloor (k n : Nat) : Nat :=
  if n ≤ 1 ∨ k = 1 then n
  else if bitLength n ≤ k then 1
  else go k n (2 ^ ((bitLength n + k - 1) / k))
where
  /-- Replace a guess by the next one as long as that is smaller. -/
  go (k n guess : Nat) : Nat :=
    let next := ((k - 1) * guess + n / guess ^ (k - 1)) / k
    if next < guess then go k n next else guess
  termination_by guess

/-- The exact `k`-th root, if there is one. -/
def exactRoot? (k n : Nat) : Option Nat :=
  let root := rootFloor k n
  if root ^ k = n then some root else none

/-- How often `d` divides `n`, and the cofactor. -/
def multiplicity (d n : Nat) : Nat × Nat :=
  if 2 ≤ d ∧ 0 < n ∧ n % d = 0 then
    let (m, rest) := multiplicity d (n / d)
    (m + 1, rest)
  else (0, n)
termination_by n
decreasing_by
  rename_i h
  exact Nat.div_lt_self h.2.1 h.1

def trialLimit : Nat := 32768

/-- The factorization of `n` by trial division from `d` on, with the cofactor that is left. -/
def trialFactors (d n : Nat) : List (Nat × Nat) × Nat :=
  if trialLimit ≤ d ∨ n < 2 then ([], n)
  else if n < d * d then ([(n, 1)], 1)
  else
    let next := max (d + 1) (if d = 2 then 3 else d + 2)
    if n % d = 0 then
      let (m, rest) := multiplicity d n
      let (factors, left) := trialFactors next rest
      ((d, m) :: factors, left)
    else trialFactors next n
termination_by trialLimit - d
decreasing_by all_goals omega

/-- A positive rational power of a base: an integer power of the base as a rational, and the fractional exponent. -/
def splitExponent (base : Nat) (r : Rat) : Rat × Rat :=
  let whole := r.floor
  let power : Rat := if 0 ≤ whole then ratPow base whole.toNat else (ratPow base whole.natAbs)⁻¹
  (power, r - whole)

/-- The least base of which `n` is a `d`-th power for a divisor `d` of `k`, with that `d`. -/
def deepestRoot (k n : Nat) : Nat × Nat :=
  let divisors := (List.range (min k 64 + 1)).filter fun d => 2 ≤ d && k % d = 0
  match divisors.reverse.findSome? fun d => (exactRoot? d n).map fun root => (root, d) with
  | some found => found
  | none => (n, 1)

/-- `n ^ r` for a positive `n`, as a rational and a list of bases with fractional exponents. -/
def radical (n : Nat) (r : Rat) : Rat × List (Nat × Rat) :=
  if n = 1 then (1, [])
  else
    match exactRoot? r.den n with
    | some root =>
      (if 0 ≤ r.num then ratPow root r.num.toNat else (ratPow root r.num.natAbs)⁻¹, [])
    | none =>
      let (small, left) := trialFactors 2 n
      let factors :=
        if left ≤ 1 then small
        else
          let (base, d) := deepestRoot r.den left
          small ++ [(base, d)]
      factors.foldl
        (fun (coefficient, bases) (base, m) =>
          let (whole, fraction) := splitExponent base (r * m)
          (coefficient * whole, if fraction = 0 then bases else bases ++ [(base, fraction)]))
        (1, [])

end Reckoner.Algebra
