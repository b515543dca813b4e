import Mathlib.Algebra.Order.Field.Basic
import Mathlib.Algebra.Order.Field.Rat
import Mathlib.Algebra.Order.Field.Power
import Mathlib.Tactic.FieldSimp
import Mathlib.Tactic.Linarith
import Mathlib.Tactic.Ring
import Reckoner.Number.Decimal

/-!
# Decimal numbers

A quotient of naturals lies between the power of ten that is found for it and the next one.  Rounded to a number of
significant digits it is wrong by at most half a unit of the last of them, and not wrong at all if it is near enough to
a number with so few digits.  Neither rounding a number with few digits nor taking trailing zeros away changes it.
-/

namespace Reckoner.Number

/-! ### Powers of ten -/

theorem climb_eq_zero {n d : Nat} (h : n < 10 * d) : climb n d = 0 := by
  rw [climb, if_neg (by omega)]

theorem sink_eq_zero {n d : Nat} (h : d ≤ n) : sink n d = 0 := by
  rw [sink, if_neg (by omega)]

theorem climb_bounds {n d : Nat} (hd : 0 < d) (h : d ≤ n) :
    10 ^ climb n d * d ≤ n ∧ n < 10 ^ (climb n d + 1) * d := by
  fun_induction climb n d with
  | case1 d hmore ih =>
    obtain ⟨hlower, hupper⟩ := ih (by omega) hmore.2
    rw [pow_succ, mul_assoc, pow_succ _ (climb n (10 * d) + 1), mul_assoc]
    exact ⟨hlower, hupper⟩
  | case2 d hless =>
    rw [pow_zero, one_mul, zero_add, pow_one]
    omega

theorem sink_bounds {n d : Nat} (hn : 0 < n) (h : n < d) :
    d ≤ 10 ^ sink n d * n ∧ 10 ^ sink n d * n < 10 * d := by
  fun_induction sink n d with
  | case1 n hless ih =>
    rw [pow_succ, mul_assoc]
    rcases Nat.lt_or_ge (10 * n) d with hlt | hge
    · exact ih (by omega) hlt
    · rw [sink_eq_zero hge, pow_zero, one_mul]
      omega
  | case2 n hmore => exact absurd ⟨hn, h⟩ hmore

/-- Climbing and sinking together bring a quotient between one and ten. -/
theorem climb_sub_sink_bounds {n d : Nat} (hn : 0 < n) (hd : 0 < d) :
    (10 : ℚ) ^ ((climb n d : Int) - sink n d) ≤ n / d ∧ (n : ℚ) / d < 10 ^ ((climb n d : Int) - sink n d + 1) := by
  have hdivisor : (0 : ℚ) < d := by exact_mod_cast hd
  rcases Nat.lt_or_ge n d with hlt | hge
  · obtain ⟨hlower, hupper⟩ := sink_bounds hn hlt
    have hlower' : (d : ℚ) ≤ 10 ^ sink n d * n := by exact_mod_cast hlower
    have hupper' : (10 : ℚ) ^ sink n d * n < 10 * d := by exact_mod_cast hupper
    have hpower : (0 : ℚ) < 10 ^ sink n d := by positivity
    rw [climb_eq_zero (by omega), Nat.cast_zero, zero_sub, zpow_add_one₀ (by norm_num), zpow_neg, zpow_natCast]
    constructor
    · rw [le_div_iff₀ hdivisor, inv_mul_le_iff₀ hpower]
      exact hlower'
    · rw [div_lt_iff₀ hdivisor, mul_assoc, lt_inv_mul_iff₀ hpower]
      exact hupper'
  · obtain ⟨hlower, hupper⟩ := climb_bounds hd hge
    have hlower' : (10 : ℚ) ^ climb n d * d ≤ n := by exact_mod_cast hlower
    have hupper' : (n : ℚ) < 10 ^ (climb n d + 1) * d := by exact_mod_cast hupper
    rw [sink_eq_zero hge, Nat.cast_zero, sub_zero, ← Nat.cast_succ, zpow_natCast, zpow_natCast]
    exact ⟨by rwa [le_div_iff₀ hdivisor], by rwa [div_lt_iff₀ hdivisor]⟩

theorem scaleByTen_pos (k : Int) {n d : Nat} (hn : 0 < n) (hd : 0 < d) :
    0 < (scaleByTen k n d).1 ∧ 0 < (scaleByTen k n d).2 := by
  unfold scaleByTen
  split_ifs
  · exact ⟨by positivity, hd⟩
  · exact ⟨hn, by positivity⟩

theorem scaleByTen_eq (k : Int) (n : Nat) {d : Nat} :
    ((scaleByTen k n d).1 : ℚ) / (scaleByTen k n d).2 = n / d * 10 ^ k := by
  unfold scaleByTen
  split_ifs with hk
  · rw [← Int.toNat_of_nonneg hk, zpow_natCast]
    push_cast
    rw [Int.toNat_of_nonneg hk]
    ring
  · have hneg : k = -((-k).toNat : Int) := by omega
    rw [hneg, zpow_neg, zpow_natCast]
    push_cast
    rw [neg_neg, Int.toNat_of_nonneg (by omega)]
    rw [div_mul_eq_div_div, div_eq_mul_inv]

/-- The decimal exponent of a quotient. -/
theorem decimalExponent_bounds {n d : Nat} (hn : 0 < n) (hd : 0 < d) :
    (10 : ℚ) ^ decimalExponent n d ≤ n / d ∧ (n : ℚ) / d < 10 ^ (decimalExponent n d + 1) := by
  obtain ⟨estimate, hestimate⟩ : ∃ estimate : Int,
      estimate = Int.fdiv (((bitLength n : Int) - bitLength d) * 30103) 100000 := ⟨_, rfl⟩
  obtain ⟨hn', hd'⟩ := scaleByTen_pos (-estimate) hn hd
  obtain ⟨hlower, hupper⟩ := climb_sub_sink_bounds hn' hd'
  have hexponent : decimalExponent n d = estimate +
      ((climb (scaleByTen (-estimate) n d).1 (scaleByTen (-estimate) n d).2 : Int) -
        sink (scaleByTen (-estimate) n d).1 (scaleByTen (-estimate) n d).2) := by
    rw [decimalExponent, ← hestimate]
    dsimp only
    ring
  have hpower : (0 : ℚ) < 10 ^ estimate := by positivity
  rw [scaleByTen_eq, zpow_neg] at hlower hupper
  rw [hexponent, add_assoc, zpow_add₀ (by norm_num), zpow_add₀ (by norm_num) estimate]
  constructor
  · calc _ ≤ (10 : ℚ) ^ estimate * (n / d * (10 ^ estimate)⁻¹) := mul_le_mul_of_nonneg_left hlower hpower.le
      _ = n / d := by field_simp
  · calc (n : ℚ) / d = 10 ^ estimate * (n / d * (10 ^ estimate)⁻¹) := by field_simp
      _ < _ := mul_lt_mul_of_pos_left hupper hpower

/-! ### Values -/

namespace Decimal

/-- The number that a decimal stands for. -/
def value (x : Decimal) : ℚ := (if x.negative then -1 else 1) * (x.coefficient * 10 ^ x.exponent)

theorem value_eq_zero {x : Decimal} : x.value = 0 ↔ x.coefficient = 0 := by
  have hsign : (if x.negative then -1 else 1 : ℚ) ≠ 0 := by split_ifs <;> norm_num
  have hpower : (10 : ℚ) ^ x.exponent ≠ 0 := by positivity
  rw [value, mul_eq_zero, or_iff_right hsign, mul_eq_zero, or_iff_left hpower, Nat.cast_eq_zero]

theorem value_normal (x : Decimal) : x.normal.value = x.value := by
  unfold normal
  split_ifs with hzero
  · rw [value_eq_zero.mpr hzero]
    exact value_eq_zero.mpr rfl
  · fun_induction normal.go x with
    | case1 x hmore ih =>
      rw [ih (by dsimp only; omega)]
      have htens : x.coefficient = x.coefficient / 10 * 10 := by omega
      have hcast : (x.coefficient : ℚ) = (x.coefficient / 10 : Nat) * 10 := by exact_mod_cast htens
      simp only [value, zpow_add_one₀ (by norm_num : (10 : ℚ) ≠ 0), hcast]
      ring
    | case2 x hless => rfl

theorem coefficient_normal_mod {x : Decimal} (hx : x.coefficient ≠ 0) : x.normal.coefficient % 10 ≠ 0 := by
  rw [normal, if_neg hx]
  fun_induction normal.go x with
  | case1 x hmore ih => exact ih (by dsimp only; omega)
  | case2 x hless => omega

/-! ### Rounding -/

theorem abs_divHalfUp_sub_le (n : Nat) {d : Nat} (hd : 0 < d) : |(divHalfUp n d : ℚ) - n / d| ≤ 1 / 2 := by
  have hdivisor : (0 : ℚ) < d := by exact_mod_cast hd
  have hlower : ((2 * n + d) / (2 * d) : Nat) * (2 * d) ≤ 2 * n + d := Nat.div_mul_le_self _ _
  have hupper : 2 * n + d < ((2 * n + d) / (2 * d) + 1) * (2 * d) := by
    exact (Nat.lt_mul_div_succ (2 * n + d) (by omega : 0 < 2 * d)).trans_eq (mul_comm _ _)
  have hlower' : (divHalfUp n d : ℚ) * (2 * d) ≤ 2 * n + d := by exact_mod_cast hlower
  have hupper' : 2 * n + (d : ℚ) < (divHalfUp n d + 1) * (2 * d) := by exact_mod_cast hupper
  have hsame : (divHalfUp n d : ℚ) - n / d = (divHalfUp n d * d - n) / d := by field_simp
  rw [hsame, abs_le, le_div_iff₀ hdivisor, div_le_iff₀ hdivisor]
  constructor <;> linarith

/-- The place of the last digit that is kept of a quotient. -/
def lastPlace (digits n d : Nat) : Int := decimalExponent n d + 1 - digits

section Quotients

variable {digits n d : Nat}

theorem quotient_bounds (digits : Nat) (hn : 0 < n) (hd : 0 < d) :
    (10 : ℚ) ^ ((digits : Int) - 1) * 10 ^ lastPlace digits n d ≤ n / d ∧
      (n : ℚ) / d < 10 ^ (digits : Int) * 10 ^ lastPlace digits n d := by
  obtain ⟨hlower, hupper⟩ := decimalExponent_bounds hn hd
  rw [← zpow_add₀ (by norm_num), ← zpow_add₀ (by norm_num), lastPlace]
  ring_nf at hlower hupper ⊢
  exact ⟨hlower, hupper⟩

/-- Where its digits all carry over, a rounded quotient has one digit more. -/
theorem ofQuotient_eq (digits n d : Nat) {count : Nat} (hcount : divHalfUp (scaleByTen (-lastPlace digits n d) n d).1
    (scaleByTen (-lastPlace digits n d) n d).2 = count) :
    ofQuotient digits n d = if count = 10 ^ digits then ⟨false, 10 ^ (digits - 1), lastPlace digits n d + 1⟩
      else ⟨false, count, lastPlace digits n d⟩ := by
  rw [← hcount]
  rfl

theorem value_ofQuotient_eq_units (hdigits : 1 ≤ digits) (n d : Nat) : (ofQuotient digits n d).value =
    (divHalfUp (scaleByTen (-lastPlace digits n d) n d).1 (scaleByTen (-lastPlace digits n d) n d).2 : Nat) *
      10 ^ lastPlace digits n d := by
  rw [ofQuotient_eq digits n d rfl]
  split_ifs with hcarry
  · obtain ⟨k, rfl⟩ : ∃ k, digits = k + 1 := ⟨digits - 1, by omega⟩
    simp only [value, hcarry, Bool.false_eq_true, if_false, one_mul, zpow_add_one₀ (by norm_num : (10 : ℚ) ≠ 0)]
    push_cast
    rw [pow_succ]
    ring
  · simp only [value, Bool.false_eq_true, if_false, one_mul]

/-- A rounded quotient is a number of units of its last place, and wrong by at most half a unit. -/
theorem ofQuotient_spec (hdigits : 1 ≤ digits) (hn : 0 < n) (hd : 0 < d) :
    ∃ count : Nat, (ofQuotient digits n d).value = count * 10 ^ lastPlace digits n d ∧
      |(count : ℚ) - n / d / 10 ^ lastPlace digits n d| ≤ 1 / 2 ∧ (ofQuotient digits n d).negative = false ∧
        0 < (ofQuotient digits n d).coefficient ∧ (ofQuotient digits n d).coefficient < 10 ^ digits := by
  obtain ⟨hn', hd'⟩ := scaleByTen_pos (-lastPlace digits n d) hn hd
  have hround := abs_divHalfUp_sub_le (scaleByTen (-lastPlace digits n d) n d).1 hd'
  rw [scaleByTen_eq, zpow_neg, ← div_eq_mul_inv] at hround
  obtain ⟨count, hcount⟩ : ∃ count, count = divHalfUp (scaleByTen (-lastPlace digits n d) n d).1
      (scaleByTen (-lastPlace digits n d) n d).2 := ⟨_, rfl⟩
  rw [← hcount] at hround
  have hunit : (0 : ℚ) < 10 ^ lastPlace digits n d := by positivity
  obtain ⟨hlower, hupper⟩ := quotient_bounds digits hn hd
  rw [← le_div_iff₀ hunit] at hlower
  rw [← div_lt_iff₀ hunit, zpow_natCast] at hupper
  have hleast : 1 ≤ (10 : ℚ) ^ ((digits : Int) - 1) := one_le_zpow₀ (by norm_num) (by omega)
  have hpositive : 0 < count := by
    have h : (0 : ℚ) < count := by linarith [(abs_le.mp hround).1]
    exact_mod_cast h
  have hmost : count ≤ 10 ^ digits := by
    have h : (count : ℚ) < 10 ^ digits + 1 := by linarith [(abs_le.mp hround).2]
    have h' : count < 10 ^ digits + 1 := by exact_mod_cast h
    omega
  refine ⟨count, hcount ▸ value_ofQuotient_eq_units hdigits n d, hround, ?_⟩
  rw [ofQuotient_eq digits n d hcount.symm]
  split_ifs with hcarry
  · exact ⟨rfl, by positivity, Nat.pow_lt_pow_right (by norm_num) (by omega)⟩
  · exact ⟨rfl, hpositive, lt_of_le_of_ne hmost hcarry⟩

/-- A quotient near enough to a multiple of the unit of its last place is rounded to it. -/
theorem value_ofQuotient_of_near {count : Int} (hdigits : 1 ≤ digits) (hn : 0 < n) (hd : 0 < d)
    (hnear : |(n : ℚ) / d - count * 10 ^ lastPlace digits n d| < 10 ^ lastPlace digits n d / 2) :
    (ofQuotient digits n d).value = count * 10 ^ lastPlace digits n d := by
  obtain ⟨other, hvalue, hround, -⟩ := ofQuotient_spec hdigits hn hd
  have hunit : (0 : ℚ) < 10 ^ lastPlace digits n d := by positivity
  have hscaled : |(n : ℚ) / d / 10 ^ lastPlace digits n d - count| < 1 / 2 := by
    have hsame : (n : ℚ) / d / 10 ^ lastPlace digits n d - count =
        (n / d - count * 10 ^ lastPlace digits n d) / 10 ^ lastPlace digits n d := by
      field_simp
    rw [hsame, abs_div, abs_of_pos hunit, div_lt_iff₀ hunit]
    linarith
  have hclose : |((other : Int) - count : ℚ)| < 1 := by
    push_cast
    linarith [abs_sub_le (other : ℚ) (n / d / 10 ^ lastPlace digits n d) count]
  have hequal : (other : Int) = count := by
    have hint : |(other : Int) - count| < 1 := by exact_mod_cast hclose
    rw [Int.abs_lt_one_iff] at hint
    omega
  rw [hvalue, ← hequal, Int.cast_natCast]

end Quotients

end Decimal

end Reckoner.Number
