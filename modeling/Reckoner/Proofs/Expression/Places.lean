import Mathlib.Data.Rat.Floor
import Reckoner.Proofs.Expression.Values
import Reckoner.Proofs.Expression.Words

/-!
# Rounding to decimal places

A number is rounded to decimal places by the nearest multiple of a power of ten, ties going away from zero.  The function
that is called `round` finds it from the floor of the scaled size, and leaves integers as they are.  This is the
nearest multiple of an integer too, unless zeros are asked for before the point and the integer does not end in them.
-/

namespace Reckoner.Expression

open Reckoner.Algebra

/-! ### Nearest multiples -/

/-- The multiple of a power of ten that is nearest to a number: of two that are equally near, the one farther from
    zero. -/
structure IsRoundedTo (places : ℤ) (x r : ℚ) : Prop where
  multiple : ∃ k : ℤ, r = k * 10 ^ (-places)
  near : |x - r| ≤ 10 ^ (-places) / 2
  away (k : ℤ) (h : |x - k * 10 ^ (-places)| = |x - r|) : |k * (10 : ℚ) ^ (-places)| ≤ |r|

/-- The floor of the scaled size with a half added, scaled back, with the sign of the number. -/
def halfAway (places : ℤ) (x : ℚ) : ℚ := x.num.sign * ⌊|x| * 10 ^ places + 1 / 2⌋ / 10 ^ places

section Multiples

variable {places : ℤ} {x r s : ℚ}

theorem unit_pos (places : ℤ) : (0 : ℚ) < 10 ^ (-places) := zpow_pos (by norm_num) _

theorem unit_eq (places : ℤ) : (10 : ℚ) ^ (-places) = (10 ^ places)⁻¹ := zpow_neg _ _

/-- There is only one nearest multiple. -/
theorem IsRoundedTo.unique (hr : IsRoundedTo places x r) (hs : IsRoundedTo places x s) : r = s := by
  obtain ⟨k, hk⟩ := hr.multiple
  obtain ⟨j, hj⟩ := hs.multiple
  have hunit := unit_pos places
  by_contra hne
  -- two different multiples that near are at the ends of a unit, with the number in the middle
  have hstep : (10 : ℚ) ^ (-places) ≤ |r - s| := by
    have hindex : k ≠ j := by
      rintro rfl
      exact hne (hk.trans hj.symm)
    have hone : (1 : ℚ) ≤ |(k : ℚ) - j| := by exact_mod_cast Int.one_le_abs (sub_ne_zero.mpr hindex)
    rw [hk, hj, ← sub_mul, abs_mul, abs_of_pos hunit]
    exact le_mul_of_one_le_left hunit.le hone
  have htriangle : |r - s| ≤ |x - r| + |x - s| := by
    rw [abs_sub_comm x r]
    exact abs_sub_le r x s
  have heq : |x - r| = |x - s| := by linarith [hr.near, hs.near]
  have hsize : |r| = |s| := by
    apply le_antisymm
    · rw [hk] at heq ⊢
      exact hs.away k heq
    · rw [hj] at heq ⊢
      exact hr.away j heq.symm
  rcases abs_eq_abs.mp hsize with h | hopposite
  · exact hne h
  · have hdouble : 2 * |r| = 10 ^ (-places) := by
      have hdistance : |r - s| = 2 * |r| := by
        rw [show s = -r by linarith, sub_neg_eq_add, ← two_mul, abs_mul, abs_two]
      linarith [hr.near, hs.near]
    rw [hk, abs_mul, abs_of_pos hunit, ← mul_assoc] at hdouble
    have hhalf : 2 * |(k : ℚ)| = 1 := mul_right_cancel₀ hunit.ne' (hdouble.trans (one_mul _).symm)
    have hinteger : 2 * |k| = 1 := by exact_mod_cast hhalf
    omega

theorem halfAway_neg (places : ℤ) (x : ℚ) : halfAway places (-x) = -halfAway places x := by
  rw [halfAway, halfAway, abs_neg, Rat.num_neg_eq_neg_num, Int.sign_neg]
  push_cast
  ring

theorem halfAway_of_nonneg (hx : 0 ≤ x) : halfAway places x = ⌊x * 10 ^ places + 1 / 2⌋ * 10 ^ (-places) := by
  rw [halfAway, abs_of_nonneg hx, unit_eq, div_eq_mul_inv]
  rcases hx.eq_or_lt with rfl | hpos
  · norm_num
  · rw [Int.sign_eq_one_of_pos (Rat.num_pos.mpr hpos), Int.cast_one, one_mul]

/-- The nearest multiples of opposite numbers are opposite. -/
theorem IsRoundedTo.neg (h : IsRoundedTo places x r) : IsRoundedTo places (-x) (-r) where
  multiple := by
    obtain ⟨k, rfl⟩ := h.multiple
    exact ⟨-k, by push_cast; ring⟩
  near := by
    rw [neg_sub_neg, abs_sub_comm]
    exact h.near
  away k hk := by
    have haway := h.away (-k)
    rw [Int.cast_neg, neg_mul, sub_neg_eq_add, abs_neg] at haway
    rw [abs_neg]
    apply haway
    rw [neg_sub_neg, abs_sub_comm r x, ← neg_add', abs_neg] at hk
    exact hk

/-- The integer nearest to a number, a half going up. -/
theorem abs_sub_floor_half_le (y : ℚ) : |y - ⌊y + 1 / 2⌋| ≤ 1 / 2 := by
  have hbelow := Int.floor_le (y + 1 / 2)
  have habove := Int.lt_floor_add_one (y + 1 / 2)
  exact abs_le.mpr ⟨by linarith, by linarith⟩

theorem abs_le_floor_half {y : ℚ} (hy : 0 ≤ y) {k : ℤ} (h : |y - k| = |y - ⌊y + 1 / 2⌋|) : |k| ≤ ⌊y + 1 / 2⌋ := by
  obtain ⟨m, hm⟩ : ∃ m : ℤ, m = ⌊y + 1 / 2⌋ := ⟨_, rfl⟩
  have habove := Int.lt_floor_add_one (y + 1 / 2)
  rw [← hm] at h habove ⊢
  rcases abs_eq_abs.mp h with hsame | hother
  · have hindex : k = m := by exact_mod_cast (by linarith : (k : ℚ) = m)
    rw [hindex, abs_of_nonneg (hm ▸ Int.floor_nonneg.mpr (by linarith))]
  · -- the other end of a tie lies below
    have hless : k < m + 1 := by exact_mod_cast (by linarith : (k : ℚ) < m + 1)
    have hmore : -m ≤ k := by exact_mod_cast (by linarith : (-m : ℚ) ≤ k)
    exact abs_le.mpr ⟨hmore, Int.lt_add_one_iff.mp hless⟩

theorem isRoundedTo_of_nonneg (hx : 0 ≤ x) : IsRoundedTo places x (halfAway places x) := by
  have hunit := unit_pos places
  have hscale : (0 : ℚ) < 10 ^ places := zpow_pos (by norm_num) _
  have hdistance (k : ℤ) : |x - k * 10 ^ (-places)| = |x * 10 ^ places - k| * 10 ^ (-places) := by
    have hscaled : x = x * 10 ^ places * 10 ^ (-places) := by
      rw [unit_eq, mul_assoc, mul_inv_cancel₀ hscale.ne', mul_one]
    conv_lhs => rw [hscaled, ← sub_mul, abs_mul, abs_of_pos hunit]
  rw [halfAway_of_nonneg hx]
  refine ⟨⟨_, rfl⟩, ?_, ?_⟩
  · rw [hdistance]
    linarith [mul_le_mul_of_nonneg_right (abs_sub_floor_half_le (x * 10 ^ places)) hunit.le]
  · intro k hk
    rw [hdistance, hdistance] at hk
    have hindex := abs_le_floor_half (mul_nonneg hx hscale.le) (mul_right_cancel₀ hunit.ne' hk)
    rw [abs_mul, abs_mul]
    apply mul_le_mul_of_nonneg_right _ (abs_nonneg _)
    exact_mod_cast hindex.trans (le_abs_self _)

theorem isRoundedTo_halfAway (places : ℤ) (x : ℚ) : IsRoundedTo places x (halfAway places x) := by
  rcases le_total 0 x with hx | hx
  · exact isRoundedTo_of_nonneg hx
  · have hneg : IsRoundedTo places (- -x) (-halfAway places (-x)) := (isRoundedTo_of_nonneg (neg_nonneg.mpr hx)).neg
    rwa [halfAway_neg, neg_neg, neg_neg] at hneg

/-- A number is its own nearest multiple if it is a multiple at all. -/
theorem isRoundedTo_self : IsRoundedTo places x x ↔ ∃ k : ℤ, x = k * 10 ^ (-places) := by
  refine ⟨IsRoundedTo.multiple, fun h => ⟨h, ?_, ?_⟩⟩
  · rw [sub_self, abs_zero]
    exact (half_pos (unit_pos places)).le
  · intro k hk
    rw [sub_self, abs_zero, abs_eq_zero, sub_eq_zero] at hk
    exact hk ▸ le_rfl

/-- Integers have no digits behind the point. -/
theorem isMultiple_of_integer (hplaces : 0 ≤ places) (hx : x.den = 1) : ∃ k : ℤ, x = k * 10 ^ (-places) := by
  obtain ⟨n, rfl⟩ := Int.eq_ofNat_of_zero_le hplaces
  refine ⟨x.num * 10 ^ n, ?_⟩
  rw [unit_eq, zpow_natCast]
  push_cast
  rw [mul_assoc, mul_inv_cancel₀ (by positivity), mul_one, Rat.coe_int_num_of_den_eq_one hx]

end Multiples

/-! ### The function -/

namespace Formula

/-- A call of the function that rounds. -/
def rounded (operand places : Formula) : Formula := .call (.name "round") ["", ""] [operand, places]

end Formula

section Calls

variable {bits : Nat} {scope : Scope} {operand places : Formula} {x : ℚ} {n : ℤ}

theorem signTerm_rational (x : ℚ) : Term.signTerm (.rational x) = .rational (x.num.sign : ℤ) := rfl

theorem abs_rational (x : ℚ) : Term.abs (.rational x) = .rational |x| := by
  rw [Term.abs]
  split_ifs with hx
  · rw [abs_of_neg hx]
  · rw [abs_of_nonneg (not_lt.mp hx)]

theorem round?_rational (hx : x.den ≠ 1) (n : ℤ) : Term.round? (.rational x) n = some (.rational (halfAway n x)) := by
  have hscale : (10 : ℚ) ^ n ≠ 0 := zpow_ne_zero _ (by norm_num)
  simp only [Term.round?, if_neg hx, abs_rational, signTerm_rational, integerPower_eq_zpow, Term.mul_rational, Term.half,
    Term.add_rational, Term.floor?_rational, Term.ofInt, Option.bind_eq_bind, Option.bind_some, Option.pure_def,
    div_rational hscale]
  rfl

theorem places?_integer (n : ℤ) : places? (.number (.rational n)) = some n := by
  simp [places?, cutToWhole?, Term.unknowns]

/-- What the function gives for a rational number. -/
def roundedRational (n : ℤ) (x : ℚ) : ℚ := if x.den = 1 then x else halfAway n x

theorem roundedRational_neg (n : ℤ) (x : ℚ) : roundedRational n (-x) = -roundedRational n x := by
  rw [roundedRational, roundedRational, Rat.den_neg_eq_den, halfAway_neg]
  split_ifs <;> rfl

theorem applyBuiltin_round (bits : Nat) (x : ℚ) (n : ℤ) :
    applyBuiltin bits .round [.number (.rational x), .number (.rational n)] =
      .ok (.number (.rational (roundedRational n x))) := by
  rw [applyBuiltin, roundedRational]
  split_ifs with hx
  · rfl
  · rw [places?_integer]
    simp only [round?_rational hx, orFailure]

theorem nameOutcome_round (hscope : scope.find? "round" = none) : nameOutcome scope "round" = .ok (.function .round) := by
  simp [nameOutcome, nameValue?, hscope, namespaceValue?]

theorem evaluate_rounded (hscope : scope.find? "round" = none)
    (hoperand : operand.evaluate bits scope = .ok (.number (.rational x)))
    (hplaces : places.evaluate bits scope = .ok (.number (.rational n))) :
    (operand.rounded places).evaluate bits scope = .ok (.number (.rational (roundedRational n x))) := by
  simp only [Formula.rounded, Formula.evaluate, Formula.evaluateAll, nameOutcome_round hscope, hoperand, hplaces, Except.map]
  simpa [callValue] using applyBuiltin_round bits x n

theorem evaluate_minus (h : operand.evaluate bits scope = .ok (.number (.rational x))) :
    (Formula.unary .minus operand).evaluate bits scope = .ok (.number (.rational (-x))) := by
  simp [Formula.evaluate, h, operateUnary, Term.neg, Term.minusOne]

end Calls

/-- Rounding gives a rational number for every rational number and every number of places, and opposite numbers for
    opposite numbers.  It gives the nearest multiple, ties going away from zero, except for an integer that is to end in
    zeros and does not. -/
theorem round_is_nearest_multiple_iff {bits : Nat} {scope : Scope} {operand places : Formula} {x : ℚ} {n : ℤ}
    (hscope : scope.find? "round" = none) (hoperand : operand.evaluate bits scope = .ok (.number (.rational x)))
    (hplaces : places.evaluate bits scope = .ok (.number (.rational n))) :
    ∃ r : ℚ, (operand.rounded places).evaluate bits scope = .ok (.number (.rational r)) ∧
      ((Formula.unary .minus operand).rounded places).evaluate bits scope = .ok (.number (.rational (-r))) ∧
      (IsRoundedTo n x r ↔ (x.den = 1 → n < 0 → ∃ k : ℤ, x = k * 10 ^ (-n))) := by
  refine ⟨roundedRational n x, evaluate_rounded hscope hoperand hplaces, ?_, ?_⟩
  · rw [← roundedRational_neg]
    exact evaluate_rounded hscope (evaluate_minus hoperand) hplaces
  · rw [roundedRational]
    split_ifs with hx
    · rw [isRoundedTo_self]
      constructor
      · intro hmultiple _ _
        exact hmultiple
      · intro hmultiple
        rcases lt_or_ge n 0 with hn | hn
        · exact hmultiple hx hn
        · exact isMultiple_of_integer hn hx
    · constructor
      · intro _ hinteger
        exact absurd hinteger hx
      · intro _
        exact isRoundedTo_halfAway n x

/-- Fifteen and a half is rounded to the nearest ten. -/
theorem half_is_rounded_to_ten :
    ∃ r : ℚ, ((Formula.binary .div (.numeral 31) (.numeral 2)).rounded (.unary .minus (.numeral 1))).evaluate 64 [] =
      .ok (.number (.rational r)) ∧ IsRoundedTo (-1) (31 / 2) r := by
  have hoperand : (Formula.binary .div (.numeral 31) (.numeral 2)).evaluate 64 [] = .ok (.number (.rational (31 / 2))) :=
    @operate_rational .div _ _ _ (by norm_num [ArithmeticOperator.result?])
  have hplaces : (Formula.unary .minus (.numeral 1)).evaluate 64 [] = .ok (.number (.rational (-1 : ℤ))) := by
    rw [Int.cast_neg]
    exact evaluate_minus rfl
  obtain ⟨r, hvalue, -, hrounded⟩ := round_is_nearest_multiple_iff rfl hoperand hplaces
  exact ⟨r, hvalue, hrounded.mpr fun hinteger => absurd hinteger (by decide +kernel)⟩

/-- Fifteen is left as it is, although the nearest ten is twenty. -/
theorem fifteen_is_not_rounded_to_ten :
    rationalAnswer [] "round(15, -1)".toList = .ok (some 15) ∧ IsRoundedTo (-1) 15 20 ∧ ¬ IsRoundedTo (-1) 15 15 := by
  have htwenty : IsRoundedTo (-1) 15 20 := by
    have hvalue : halfAway (-1) 15 = 20 := by
      rw [halfAway_of_nonneg (by norm_num)]
      norm_num
    exact hvalue ▸ isRoundedTo_halfAway (-1) 15
  refine ⟨by decide +kernel, htwenty, ?_⟩
  intro hfifteen
  have heq := hfifteen.unique htwenty
  norm_num at heq

end Reckoner.Expression
