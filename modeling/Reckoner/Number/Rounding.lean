/-!
# Rounding of quotients

Integer arithmetic that everything inexact rests on: the length of a number in bits, powers, and quotients rounded to
a neighbouring integer.  A quotient of naturals is rounded down by `/`; the functions here give the other neighbours.
-/

namespace Reckoner.Number

-- Powers of naturals and integers are those of the core library, whatever else is known of them.
attribute [instance (10000)] instPowNat

/-- The number of binary digits: the least `k` with `n < 2 ^ k`. -/
def bitLength (n : Nat) : Nat := if n = 0 then 0 else n.log2 + 1

theorem lt_two_pow_bitLength (n : Nat) : n < 2 ^ bitLength n := by
  unfold bitLength
  split
  · omega
  · exact Nat.lt_log2_self

theorem two_pow_le_of_pos {n : Nat} (h : 0 < n) : 2 ^ (bitLength n - 1) ≤ n := by
  have hn : n ≠ 0 := Nat.pos_iff_ne_zero.mp h
  simp only [bitLength, hn, if_false, Nat.add_sub_cancel]
  exact Nat.log2_self_le hn

/-- The quotient rounded to the nearest integer, a tie going up. -/
def divHalfUp (n d : Nat) : Nat := (2 * n + d) / (2 * d)

/-- The quotient rounded to the nearest integer, a tie going to the even neighbour. -/
def divHalfEven (n d : Nat) : Nat :=
  let q := n / d
  let twice := 2 * (n % d)
  if twice < d then q
  else if d < twice then q + 1
  else if q % 2 = 0 then q else q + 1

def divCeil (n d : Nat) : Nat := (n + d - 1) / d

/-- A power of an integer, from the power of its absolute value. -/
def intPow (m : Int) (n : Nat) : Int :=
  if m < 0 ∧ n % 2 = 1 then -((m.natAbs ^ n : Nat) : Int) else ((m.natAbs ^ n : Nat) : Int)

theorem intPow_eq (m : Int) (n : Nat) : intPow m n = m ^ n := by
  unfold intPow
  rcases Int.natAbs_eq m with h | h
  · have hm : ¬ m < 0 := by omega
    simp only [hm, false_and, if_false, Int.natCast_pow]
    rw [← h]
  · by_cases hneg : m < 0
    · rcases Nat.mod_two_eq_zero_or_one n with hn | hn
      · simp only [hn, Nat.zero_ne_one, and_false, if_false, Int.natCast_pow]
        conv => rhs; rw [h]
        obtain ⟨k, rfl⟩ : ∃ k, n = 2 * k := ⟨n / 2, by omega⟩
        rw [Int.pow_mul, Int.pow_mul]
        congr 1
        simp only [Int.pow_succ, Int.pow_zero, Int.one_mul, Int.neg_mul_neg]
      · simp only [hn, hneg, and_self, if_true, Int.natCast_pow]
        conv => rhs; rw [h]
        obtain ⟨k, rfl⟩ : ∃ k, n = 2 * k + 1 := ⟨n / 2, by omega⟩
        rw [Int.pow_succ, Int.pow_succ, Int.pow_mul, Int.pow_mul, ← Int.mul_neg]
        congr 2
        simp only [Int.pow_succ, Int.pow_zero, Int.one_mul, Int.neg_mul_neg]
    · have hz : m = 0 := by omega
      subst hz
      simp

/-- A power of a rational with a natural exponent; numerator and denominator stay without common factor. -/
def ratPow (q : Rat) (n : Nat) : Rat :=
  { num := intPow q.num n
    den := q.den ^ n
    den_nz := by simp [q.den_nz]
    reduced := by
      rw [intPow_eq, Int.natAbs_pow]
      exact q.reduced.pow _ _ }

theorem ratPow_eq (q : Rat) (n : Nat) : ratPow q n = q ^ n := by
  apply Rat.ext
  · exact (intPow_eq q.num n).trans (Rat.num_pow q n).symm
  · exact (Rat.den_pow q n).symm

/-- The greatest natural whose square is at most `n`, by Newton's iteration from above. -/
def isqrt (n : Nat) : Nat :=
  if n ≤ 1 then n else go (2 ^ ((bitLength n + 1) / 2))
where
  /-- Replace a guess by the mean of it and its cofactor as long as that is smaller. -/
  go (guess : Nat) : Nat :=
    let next := (guess + n / guess) / 2
    if next < guess then go next else guess
  termination_by guess

end Reckoner.Number
