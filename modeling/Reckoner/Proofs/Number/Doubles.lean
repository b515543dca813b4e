import Reckoner.Number.Double
import Reckoner.Proofs.Number.Decimals

/-!
# Doubles and their shortest texts

The doubles are the multiples of powers of two with at most 53 significant bits and bounded exponents.  The decimal that
is written for a double lies nearer to it than to any other double, so that the double is read back from it.
-/

namespace Reckoner.Number

/-! ### Doubles among the rationals -/

section Neighbours

variable {full : Nat} {e : Int}

end Neighbours

/-! ### Decimals between the neighbours -/

namespace Double

section Within

variable {digits low n high d : Nat} {closed : Bool}

/-- Whether a decimal with a given last place counts as between the bounds. -/
def isInside (low n high d : Nat) (closed : Bool) (unit : Int) (c : Nat) : Bool :=
  let (_, d') := scaleByTen (-unit) n d
  let (low', _) := scaleByTen (-unit) low d
  let (high', _) := scaleByTen (-unit) high d
  if closed then decide (low' ≤ c * d') && decide (c * d' ≤ high') else decide (low' < c * d') && decide (c * d' < high')

end Within

/-! ### Shortest decimals -/

section Shortest

variable {m : Nat} {e : Int}

variable {v : ℚ} {full digits : Nat}

section Bounds

variable (full e)

end Bounds

end Shortest

/-! ### Doubles that can be -/

theorem divHalfEven_le (n d : Nat) : divHalfEven n d ≤ n / d + 1 := by
  simp only [divHalfEven]
  split_ifs <;> omega

theorem natAbs_round_le (bits : Nat) (x : Binary) : (x.round .nearest bits).mantissa.natAbs ≤ 2 ^ bits := by
  simp only [Binary.round]
  split_ifs with hshort hneg
  · exact (lt_two_pow_bitLength _).le.trans (Nat.pow_le_pow_right (by norm_num) hshort)
  all_goals
    have hquotient : x.mantissa.natAbs / 2 ^ (bitLength x.mantissa.natAbs - bits) < 2 ^ bits := by
      rw [Nat.div_lt_iff_lt_mul (by positivity), ← pow_add, Nat.add_sub_cancel' (by omega)]
      exact lt_two_pow_bitLength _
    have hless := divHalfEven_le x.mantissa.natAbs (2 ^ (bitLength x.mantissa.natAbs - bits))
    simp only [Direction.opposite, Direction.divide, Int.natAbs_neg, Int.natAbs_natCast]
    omega

end Double

end Reckoner.Number
