import Mathlib.Data.Rat.Cast.Order
import Reckoner.Proofs.Number.Accuracy
import Reckoner.Proofs.Number.Decimals
import Reckoner.Proofs.Number.Doubles
import Reckoner.Proofs.Number.Roundings

/-!
# Decimal numbers with few digits

A decimal number is written in one way, whatever its trailing zeros.  With few digits, it is the only such number near
the binary fraction that it is rounded to, so it is found again from that fraction.
-/

namespace Reckoner.Number

namespace Decimal

/-! ### Leading digits -/

section Leading

variable {x y : Decimal}

theorem abs_value (x : Decimal) : |x.value| = x.coefficient * 10 ^ x.exponent := by
  have hsign : |(if x.negative then -1 else 1 : ℚ)| = 1 := by split_ifs <;> simp
  rw [value, abs_mul, hsign, one_mul, abs_of_nonneg (by positivity)]

/-- The exponent of the leading digit tells the order of magnitude. -/
theorem leadingExponent_bounds (hx : x.coefficient ≠ 0) :
    (10 : ℚ) ^ x.leadingExponent ≤ |x.value| ∧ |x.value| < 10 ^ (x.leadingExponent + 1) := by
  have hdigits : x.digits = Nat.toDigits 10 x.coefficient := Nat.toList_repr
  have hpositive : 0 < x.digits.length := hdigits ▸ Nat.length_toDigits_pos
  have hupper : x.coefficient < 10 ^ x.digits.length :=
    (Nat.length_toDigits_le_iff (by decide) hpositive).mp (by rw [hdigits])
  have hlower : 10 ^ (x.digits.length - 1) ≤ x.coefficient := by
    rcases Nat.eq_zero_or_pos (x.digits.length - 1) with hone | hmore
    · rw [hone, pow_zero]
      exact Nat.one_le_iff_ne_zero.mpr hx
    · by_contra hless
      have hshort := (Nat.length_toDigits_le_iff (by decide) hmore).mpr (Nat.not_le.mp hless)
      rw [← hdigits] at hshort
      omega
  have hunit : (0 : ℚ) < 10 ^ x.exponent := by positivity
  have hplaces : x.leadingExponent + 1 = x.digits.length + x.exponent := by
    simp only [leadingExponent]
    omega
  rw [abs_value, hplaces, leadingExponent, add_comm x.exponent, zpow_add₀ (by norm_num), zpow_add₀ (by norm_num),
    zpow_natCast, zpow_natCast, mul_le_mul_iff_left₀ hunit, mul_lt_mul_iff_left₀ hunit]
  exact ⟨by exact_mod_cast hlower, by exact_mod_cast hupper⟩

/-- Numbers of the same size have the same exponent of their leading digit. -/
theorem leadingExponent_eq (hx : x.coefficient ≠ 0) (h : x.value = y.value) : x.leadingExponent = y.leadingExponent := by
  have hy : y.coefficient ≠ 0 := fun hzero => hx (value_eq_zero.mp (h.trans (value_eq_zero.mpr hzero)))
  obtain ⟨hxlower, hxupper⟩ := leadingExponent_bounds hx
  obtain ⟨hylower, hyupper⟩ := leadingExponent_bounds hy
  rw [h] at hxlower hxupper
  have hle := (zpow_lt_zpow_iff_right₀ (by norm_num : (1 : ℚ) < 10)).mp (hxlower.trans_lt hyupper)
  have hge := (zpow_lt_zpow_iff_right₀ (by norm_num : (1 : ℚ) < 10)).mp (hylower.trans_lt hxupper)
  omega

/-! ### Uniqueness -/

/-- One of two equal numbers without trailing zeros does not have the smaller exponent. -/
theorem exponent_le_of_value_eq (hx : x.coefficient % 10 ≠ 0) (h : |x.value| = |y.value|) : y.exponent ≤ x.exponent := by
  by_contra hless
  obtain ⟨k, hk⟩ : ∃ k : Nat, y.exponent = x.exponent + (k + 1 : Nat) := ⟨(y.exponent - x.exponent - 1).toNat, by omega⟩
  have hunit : (10 : ℚ) ^ x.exponent ≠ 0 := by positivity
  rw [abs_value, abs_value, hk, zpow_add₀ (by norm_num), zpow_natCast, mul_comm ((10 : ℚ) ^ x.exponent), ← mul_assoc,
    mul_left_inj' hunit] at h
  have hmultiple : x.coefficient = y.coefficient * 10 ^ k * 10 := by
    rw [mul_assoc, ← pow_succ]
    exact_mod_cast h
  exact hx (by rw [hmultiple, Nat.mul_mod_left])

theorem coefficient_normal_le (x : Decimal) : x.normal.coefficient ≤ x.coefficient := by
  unfold normal
  split_ifs
  · exact Nat.zero_le _
  · fun_induction normal.go x with
    | case1 x hmore ih => exact (ih (by dsimp only; omega)).trans (Nat.div_le_self _ _)
    | case2 x hless => exact le_rfl

/-- Without trailing zeros, equal numbers are the same decimal. -/
theorem normal_eq_of_value_eq (h : x.value = y.value) : x.normal = y.normal := by
  by_cases hx : x.coefficient = 0
  · have hy : y.coefficient = 0 := value_eq_zero.mp (h.symm.trans (value_eq_zero.mpr hx))
    rw [normal, if_pos hx, normal, if_pos hy]
  · have hy : y.coefficient ≠ 0 := fun hzero => hx (value_eq_zero.mp (h.trans (value_eq_zero.mpr hzero)))
    have hnormal : x.normal.value = y.normal.value := by rw [value_normal, value_normal, h]
    have habs : |x.normal.value| = |y.normal.value| := congrArg _ hnormal
    have hexponent : x.normal.exponent = y.normal.exponent :=
      le_antisymm (exponent_le_of_value_eq (coefficient_normal_mod hy) habs.symm)
        (exponent_le_of_value_eq (coefficient_normal_mod hx) habs)
    have hunit : (10 : ℚ) ^ y.normal.exponent ≠ 0 := by positivity
    have hcoefficient : x.normal.coefficient = y.normal.coefficient := by
      rw [abs_value, abs_value, hexponent, mul_left_inj' hunit] at habs
      exact_mod_cast habs
    have hnonzero : y.normal.value ≠ 0 := by
      rw [value_normal]
      exact fun hzero => hy (value_eq_zero.mp hzero)
    have hnegative : x.normal.negative = y.normal.negative := by
      rw [value, hexponent, hcoefficient, value] at hnormal
      rw [value] at hnonzero
      have hsign := mul_right_cancel₀ (right_ne_zero_of_mul hnonzero) hnormal
      cases hxs : x.normal.negative <;> cases hys : y.normal.negative <;> rw [hxs, hys] at hsign <;> first
        | rfl
        | norm_num at hsign
    cases hxn : x.normal
    cases hyn : y.normal
    simp_all

end Leading

/-! ### Rounding -/

section Rounding

variable {digits n d : Nat} {x y : Decimal} {e : Int}

theorem coefficient_round_lt (hdigits : 1 ≤ digits) (x : Decimal) : (x.round digits).coefficient < 10 ^ digits := by
  unfold round
  split_ifs with hzero hshort
  · exact Nat.pow_pos (by decide)
  · exact hshort
  · obtain ⟨_, -, -, -, -, hless⟩ := ofQuotient_spec hdigits (Nat.pos_of_ne_zero hzero) Nat.one_pos
    exact hless

/-- The last place that is kept of a quotient does not lie in front of a place that it has few digits in front of. -/
theorem lastPlace_le (hn : 0 < n) (hd : 0 < d) (hbound : (n : ℚ) / d < 10 ^ digits * 10 ^ e) : lastPlace digits n d ≤ e := by
  obtain ⟨hlower, -⟩ := decimalExponent_bounds hn hd
  rw [← zpow_natCast, ← zpow_add₀ (by norm_num)] at hbound
  have hless := (zpow_lt_zpow_iff_right₀ (by norm_num : (1 : ℚ) < 10)).mp (hlower.trans_lt hbound)
  rw [lastPlace]
  omega

/-- A quotient near a number with few digits is rounded to it. -/
theorem value_ofQuotient_of_short {c : Nat} (hdigits : 1 ≤ digits) (hn : 0 < n) (hd : 0 < d)
    (hbound : (n : ℚ) / d < 10 ^ digits * 10 ^ e)
    (hnear : |(n : ℚ) / d - c * 10 ^ e| < 10 ^ lastPlace digits n d / 2) :
    (ofQuotient digits n d).value = c * 10 ^ e := by
  have hle := lastPlace_le hn hd hbound
  have hcount : (c : ℚ) * 10 ^ e =
      ((c * 10 ^ (e - lastPlace digits n d).toNat : Nat) : Int) * 10 ^ lastPlace digits n d := by
    have hsplit : e = ((e - lastPlace digits n d).toNat : Int) + lastPlace digits n d := by omega
    conv_lhs => rw [hsplit, zpow_add₀ (by norm_num), zpow_natCast]
    push_cast
    ring
  rw [hcount] at hnear ⊢
  exact value_ofQuotient_of_near hdigits hn hd hnear

/-- A rational near another one has its sign. -/
theorem num_neg_iff_of_near {q v ε : ℚ} (hv : 0 < |v|) (hε : ε < 1) (hnear : |q - v| ≤ ε * |v|) : q.num < 0 ↔ v < 0 := by
  rw [Rat.num_neg]
  constructor
  · intro hneg
    by_contra hpos
    rw [abs_of_nonneg (not_lt.mp hpos)] at hnear hv
    nlinarith [(abs_le.mp hnear).1]
  · intro hneg
    by_contra hpos
    rw [abs_of_neg hneg] at hnear hv
    nlinarith [(abs_le.mp hnear).2, not_lt.mp hpos]

/-- What is less than half as much again as a number with few digits has no more than one digit more. -/
theorem lt_of_few_digits {size ε : ℚ} {short : Nat} (hdigits : short < digits) (hshort : x.coefficient < 10 ^ short)
    (hε : ε < 1 / 2) (hupper : size ≤ (1 + ε) * |x.value|) : size < 10 ^ digits * 10 ^ x.exponent := by
  have hfew : (x.coefficient : ℚ) + 1 ≤ 10 ^ short := by exact_mod_cast hshort
  have hmore : (10 : ℚ) ^ short * 10 ≤ 10 ^ digits := by
    rw [← pow_succ]
    exact pow_le_pow_right₀ (by norm_num) hdigits
  refine hupper.trans_lt ?_
  rw [abs_value, ← mul_assoc]
  refine mul_lt_mul_of_pos_right ?_ (by positivity)
  have hcoefficient : (0 : ℚ) ≤ x.coefficient := Nat.cast_nonneg _
  nlinarith

/-- The error is a small part of the number, and the number a bounded count of units of the last place. -/
theorem distance_lt_half_unit {size v ε : ℚ} (hn : 0 < n) (hd : 0 < d) (hsize : (n : ℚ) / d = size)
    (hε : 2 * ε * 10 ^ digits < 1 - ε) (hnonneg : 0 ≤ ε) (hless : ε < 1) (hlower : (1 - ε) * v ≤ size)
    (hdistance : |size - v| ≤ ε * v) : |size - v| < 10 ^ lastPlace digits n d / 2 := by
  obtain ⟨-, hunits⟩ := quotient_bounds digits hn hd
  have hunit : (0 : ℚ) < 10 ^ lastPlace digits n d := by positivity
  rw [hsize, zpow_natCast] at hunits
  have hscaled : ε * v * (1 - ε) < 10 ^ lastPlace digits n d / 2 * (1 - ε) := by
    calc ε * v * (1 - ε) = ε * ((1 - ε) * v) := by ring
      _ ≤ ε * (10 ^ digits * 10 ^ lastPlace digits n d) := mul_le_mul_of_nonneg_left (hlower.trans hunits.le) hnonneg
      _ = 2 * ε * 10 ^ digits * (10 ^ lastPlace digits n d / 2) := by ring
      _ < (1 - ε) * (10 ^ lastPlace digits n d / 2) := by gcongr
      _ = 10 ^ lastPlace digits n d / 2 * (1 - ε) := mul_comm _ _
  exact hdistance.trans_lt (lt_of_mul_lt_mul_right hscaled (by linarith))

/-- A rational near a number with few digits is rounded to it. -/
theorem value_ofRat_of_near {q ε : ℚ} {short : Nat} (hdigits : short < digits) (hx : x.coefficient ≠ 0)
    (hshort : x.coefficient < 10 ^ short) (hε : 2 * ε * 10 ^ digits < 1 - ε) (hnonneg : 0 ≤ ε)
    (hnear : |q - x.value| ≤ ε * |x.value|) : (ofRat digits q).value = x.value := by
  have hvalue : 0 < |x.value| := abs_pos.mpr fun hzero => hx (value_eq_zero.mp hzero)
  have hpower : (10 : ℚ) ≤ 10 ^ digits := le_self_pow₀ (by norm_num) (by omega)
  have hhalf : ε < 1 / 2 := by nlinarith
  have hlower : (1 - ε) * |x.value| ≤ |q| := by linarith [abs_sub_abs_le_abs_sub x.value q, abs_sub_comm x.value q]
  have hupper : |q| ≤ (1 + ε) * |x.value| := by linarith [abs_sub_abs_le_abs_sub q x.value]
  have hq : q ≠ 0 := abs_pos.mp (lt_of_lt_of_le (mul_pos (by linarith) hvalue) hlower)
  have hn : 0 < q.num.natAbs := Int.natAbs_pos.mpr (Rat.num_ne_zero.mpr hq)
  have hquotient := natAbs_num_div_den q
  have hrounded : (ofQuotient digits q.num.natAbs q.den).value = |x.value| := by
    have hdistance : |(|q| - |x.value|)| ≤ ε * |x.value| := (abs_abs_sub_abs_le_abs_sub q x.value).trans hnear
    have hbound := lt_of_few_digits hdigits hshort hhalf hupper
    have hclose := distance_lt_half_unit hn q.den_pos hquotient hε hnonneg (by linarith) hlower hdistance
    rw [abs_value] at hclose ⊢
    exact value_ofQuotient_of_short (by omega) hn q.den_pos (hquotient ▸ hbound) (hquotient ▸ hclose)
  have hsign := num_neg_iff_of_near hvalue (by linarith) hnear
  obtain ⟨_, -, -, hpositive, -⟩ := ofQuotient_spec (by omega : 1 ≤ digits) hn q.den_pos
  rw [value, hpositive, if_neg Bool.false_ne_true, one_mul] at hrounded
  rw [ofRat, if_neg (Rat.num_ne_zero.mpr hq), value]
  dsimp only
  rw [hrounded]
  by_cases hneg : q.num < 0
  · rw [decide_eq_true hneg, if_pos rfl, abs_of_neg (hsign.mp hneg)]
    ring
  · rw [decide_eq_false hneg, if_neg Bool.false_ne_true, one_mul, abs_of_nonneg (not_lt.mp fun h => hneg (hsign.mpr h))]

end Rounding

end Decimal

/-! ### Binary fractions -/

namespace Binary

variable {x : Binary} {n : Nat}

theorem cast_toRat (x : Binary) : (x.toRat : ℝ) = x.value := by
  unfold toRat value
  split_ifs with hexponent
  · obtain ⟨k, hk⟩ := Int.eq_ofNat_of_zero_le hexponent
    rw [hk, Int.toNat_natCast, zpow_natCast]
    push_cast
    rfl
  · obtain ⟨k, hk⟩ := Int.eq_ofNat_of_zero_le (by omega : 0 ≤ -x.exponent)
    rw [hk, Int.toNat_natCast, Rat.mkRat_eq_div, ← neg_neg x.exponent, hk, zpow_neg, zpow_natCast, ← div_eq_mul_inv]
    push_cast
    rfl

/-- How near a rational is to the binary fraction that it is cut and then rounded to. -/
theorem abs_toRat_sub_le (bits : Nat) (q : ℚ) :
    |((ofRat .toZero (bits + 4) q).round .nearest bits).toRat - q| ≤ 3 / 2 ^ bits * |q| := by
  have hnear := (ofRat_isNear .toZero (bits + 4) q).trans (roundoff_pos bits).le
    (round_isNear .nearest bits (ofRat .toZero (bits + 4) q))
  have hpower : (1 : ℝ) ≤ 2 ^ bits := one_le_pow₀ one_le_two
  have hsmall : roundoff (bits + 4) + roundoff bits + roundoff bits * roundoff (bits + 4) ≤ 3 / 2 ^ bits := by
    have hfine : roundoff (bits + 4) = roundoff bits / 16 := by
      simp only [roundoff, pow_add]
      ring
    have hcoarse : roundoff bits ≤ 2 := by
      rw [roundoff, div_le_iff₀ (by positivity)]
      linarith
    have hthree : 3 / 2 ^ bits = roundoff bits * (3 / 2) := by
      simp only [roundoff]
      ring
    rw [hfine, hthree]
    nlinarith [roundoff_pos bits]
  have hreal := hnear.mono hsmall
  rw [IsNear, ← cast_toRat] at hreal
  refine (Rat.cast_le (K := ℝ)).mp ?_
  push_cast
  exact hreal

end Binary

/-! ### Numerals -/

theorem AutoNotation.write_eq_of_value_eq (style : AutoNotation) {x y : Decimal} (h : x.value = y.value) :
    style.write x = style.write y := by
  have hzero : x.coefficient = 0 ↔ y.coefficient = 0 := by
    rw [← Decimal.value_eq_zero, ← Decimal.value_eq_zero, h]
  simp only [write, hzero, Decimal.normal_eq_of_value_eq h]

end Reckoner.Number
