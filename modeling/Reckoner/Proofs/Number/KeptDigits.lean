import Reckoner.Proofs.Number.Roundings
import Reckoner.Proofs.Number.ShortDecimals

/-!
# Decimal and binary roundings

What decimal numbers and binary fractions do when they are cut to digits or bits is to keep the significant ones: half
up in the first case, towards zero or to the even neighbour in the second.  So each of these roundings keeps the order
of numbers and their signs.
-/

namespace Reckoner.Number

/-! ### Decimal numbers -/

namespace Decimal

variable {digits n d : Nat}

theorem negative_ofQuotient (digits n d : Nat) : (ofQuotient digits n d).negative = false := by
  rw [ofQuotient_eq digits n d rfl]
  split_ifs <;> rfl

theorem value_ofQuotient (hdigits : 1 ≤ digits) (hn : 0 < n) (hd : 0 < d) :
    (ofQuotient digits n d).value = keep divHalfUp 10 digits (n / d) := by
  obtain ⟨hn', hd'⟩ := scaleByTen_pos (-lastPlace digits n d) hn hd
  obtain ⟨hlower, hupper⟩ := quotient_bounds digits hn hd
  have hunit : (0 : ℚ) < 10 ^ lastPlace digits n d := by positivity
  have hscaled := scaleByTen_eq (-lastPlace digits n d) n (d := d)
  rw [zpow_neg, ← div_eq_mul_inv] at hscaled
  have hquotient : (n : ℚ) / d = (scaleByTen (-lastPlace digits n d) n d).1 /
      (scaleByTen (-lastPlace digits n d) n d).2 * ((10 : Nat) : ℚ) ^ lastPlace digits n d := by
    rw [hscaled, Nat.cast_ofNat, div_mul_cancel₀ _ hunit.ne']
  have hkept : keep divHalfUp 10 digits (n / d) =
      divHalfUp (scaleByTen (-lastPlace digits n d) n d).1 (scaleByTen (-lastPlace digits n d) n d).2 *
        10 ^ lastPlace digits n d := by
    rw [hquotient, keep_eq isCut_divHalfUp (by norm_num) hd']
    · rw [Nat.cast_ofNat]
    · rw [hscaled, le_div_iff₀ hunit]
      exact_mod_cast hlower
    · rw [hscaled, div_lt_iff₀ hunit]
      exact_mod_cast hupper
  rw [hkept, value_ofQuotient_eq_units hdigits]

theorem value_ofRat (hdigits : 1 ≤ digits) (q : ℚ) : (ofRat digits q).value = keep divHalfUp 10 digits q := by
  by_cases hq : q = 0
  · rw [hq, keep_zero isCut_divHalfUp]
    exact value_eq_zero.mpr rfl
  · have hn : 0 < q.num.natAbs := Int.natAbs_pos.mpr (Rat.num_ne_zero.mpr hq)
    have hcut := value_ofQuotient hdigits hn q.den_pos
    rw [natAbs_num_div_den, value, negative_ofQuotient, if_neg Bool.false_ne_true, one_mul] at hcut
    rw [ofRat, if_neg (Rat.num_ne_zero.mpr hq), value]
    dsimp only
    rw [hcut]
    by_cases hneg : q < 0
    · rw [decide_eq_true (Rat.num_neg.mpr hneg), if_pos rfl, abs_of_neg hneg, keep_neg isCut_divHalfUp]
      ring
    · rw [decide_eq_false (mt Rat.num_neg.mp hneg), if_neg Bool.false_ne_true, one_mul, abs_of_nonneg (not_lt.mp hneg)]

theorem value_round (hdigits : 1 ≤ digits) (x : Decimal) :
    (x.round digits).value = keep divHalfUp 10 digits x.value := by
  have hsize : |x.value| = x.coefficient * ((10 : Nat) : ℚ) ^ x.exponent := by rw [abs_value, Nat.cast_ofNat]
  unfold round
  split_ifs with hzero hshort
  · rw [value_eq_zero.mpr hzero, keep_zero isCut_divHalfUp]
    exact value_eq_zero.mpr rfl
  · exact (keep_of_short isCut_divHalfUp (by norm_num) hsize hshort).symm
  · have hcut := value_ofQuotient hdigits (Nat.pos_of_ne_zero hzero) Nat.one_pos
    have hpoint := keep_mul_zpow isCut_divHalfUp (by norm_num : 1 < 10) digits (x.coefficient : ℚ) x.exponent
    rw [Nat.cast_one, div_one, value, negative_ofQuotient, if_neg Bool.false_ne_true, one_mul] at hcut
    rw [Nat.cast_ofNat] at hpoint
    have hmagnitude : ((ofQuotient digits x.coefficient 1).coefficient : ℚ) *
        10 ^ ((ofQuotient digits x.coefficient 1).exponent + x.exponent) =
          keep divHalfUp 10 digits (x.coefficient * 10 ^ x.exponent) := by
      rw [hpoint, zpow_add₀ (by norm_num), ← mul_assoc, hcut]
    rw [value, value, hmagnitude]
    cases x.negative with
    | false => simp
    | true => simp [keep_neg isCut_divHalfUp]

/-- Rounding does not change a number with few digits. -/
theorem value_round_of_short {x y : Decimal} (hdigits : 1 ≤ digits) (hshort : y.coefficient < 10 ^ digits)
    (h : x.value = y.value) : (x.round digits).value = x.value := by
  have hsize : |x.value| = y.coefficient * ((10 : Nat) : ℚ) ^ y.exponent := by rw [h, abs_value, Nat.cast_ofNat]
  rw [value_round hdigits, keep_of_short isCut_divHalfUp (by norm_num) hsize hshort]

end Decimal

/-! ### Binary fractions -/

namespace Binary

variable {direction : Direction} {bits n d : Nat}

theorem toRat_eq (x : Binary) : x.toRat = x.mantissa * 2 ^ x.exponent := by
  have hreal : ((x.toRat : ℚ) : ℝ) = ((x.mantissa * 2 ^ x.exponent : ℚ) : ℝ) := by
    rw [cast_toRat, value]
    push_cast
    rfl
  exact_mod_cast hreal

theorem toRat_neg (x : Binary) : x.neg.toRat = -x.toRat := by
  rw [toRat_eq, toRat_eq, neg]
  push_cast
  ring

theorem toRat_scale (x : Binary) (k : Int) : (x.scale k).toRat = x.toRat * 2 ^ k := by
  rw [toRat_eq, toRat_eq, scale, zpow_add₀ (by norm_num)]
  ring


theorem toRat_abs (x : Binary) : x.abs.toRat = |x.toRat| := by
  have hreal : ((x.abs.toRat : ℚ) : ℝ) = ((|x.toRat| : ℚ) : ℝ) := by
    rw [cast_toRat, value_abs, Rat.cast_abs, cast_toRat]
  exact_mod_cast hreal

theorem toRat_mul (x y : Binary) : (x.mul y).toRat = x.toRat * y.toRat := by
  have hreal : (((x.mul y).toRat : ℚ) : ℝ) = ((x.toRat * y.toRat : ℚ) : ℝ) := by
    rw [cast_toRat, value_mul, Rat.cast_mul, cast_toRat, cast_toRat]
  exact_mod_cast hreal

theorem mantissa_pos {x : Binary} : 0 < x.mantissa ↔ 0 < x.toRat := by
  have hunit : (0 : ℚ) < 2 ^ x.exponent := by positivity
  rw [toRat_eq, mul_pos_iff_of_pos_right hunit, Int.cast_pos]

theorem Direction.isCut_divide (h : direction.opposite = direction) : IsCut direction.divide := by
  cases direction with
  | toZero => exact isCut_div
  | nearest => exact isCut_divHalfEven
  | down => cases h
  | up => cases h

/-- The most significant bits of a natural. -/
theorem toRat_cut (bits : Nat) (hcut : IsCut direction.divide) {drop : Nat} (hn : 0 < n) (e : Int)
    (hdrop : drop + bits = bitLength n) :
    toRat ⟨(direction.divide n (2 ^ drop) : Nat), e + drop⟩ = keep direction.divide 2 bits (n * 2 ^ e) := by
  obtain ⟨hlower, hupper⟩ := bitLength_bounds hn
  have hunit : (0 : ℚ) < 2 ^ drop := by positivity
  have hnumber : (n : ℚ) * 2 ^ e = n / (2 ^ drop : Nat) * ((2 : Nat) : ℚ) ^ (e + drop) := by
    push_cast
    rw [zpow_add₀ (by norm_num), zpow_natCast]
    field_simp
  have hleast : (2 : ℚ) ^ ((bits : Int) - 1) * 2 ^ drop ≤ n := by
    have hplaces : (bits : Int) - 1 + drop = bitLength n - 1 := by omega
    rwa [← zpow_natCast, ← zpow_add₀ (by norm_num), hplaces]
  have hmost : (n : ℚ) < 2 ^ (bits : Int) * 2 ^ drop := by
    rwa [zpow_natCast, ← pow_add, add_comm, hdrop]
  rw [hnumber, keep_eq hcut (by norm_num) (by positivity), toRat_eq]
  · push_cast
    rfl
  · push_cast
    rwa [le_div_iff₀ hunit]
  · push_cast
    rwa [div_lt_iff₀ hunit]

theorem toRat_round (hdirection : direction.opposite = direction) (hbits : 1 ≤ bits) (x : Binary) :
    (x.round direction bits).toRat = keep direction.divide 2 bits x.toRat := by
  have hcut := Direction.isCut_divide hdirection
  obtain ⟨m, e⟩ := x
  have hsize : |toRat ⟨m, e⟩| = m.natAbs * ((2 : Nat) : ℚ) ^ e := by
    have hunit : (0 : ℚ) < 2 ^ e := by positivity
    rw [toRat_eq, abs_mul, abs_of_pos hunit, Nat.cast_natAbs, Int.cast_abs, Nat.cast_ofNat]
  unfold round
  dsimp only
  rw [hdirection]
  split_ifs with hlength hneg
  · refine (keep_of_short hcut (by norm_num) hsize ?_).symm
    exact (lt_two_pow_bitLength _).trans_le (Nat.pow_le_pow_right (by norm_num) hlength)
  · have hkept := toRat_cut bits hcut (by omega : 0 < m.natAbs) e
      (by omega : bitLength m.natAbs - bits + bits = bitLength m.natAbs)
    have hvalue : toRat ⟨m, e⟩ = -(m.natAbs * 2 ^ e) := by
      rw [toRat_eq, Nat.cast_natAbs, abs_of_neg hneg]
      push_cast
      ring
    rw [hvalue, keep_neg hcut, ← hkept]
    exact toRat_neg ⟨_, _⟩
  · have hpositive : 0 < m.natAbs := by
      by_contra hzero
      have hbits : bitLength m.natAbs = 0 := by simp [Nat.eq_zero_of_not_pos hzero, bitLength]
      omega
    have hkept := toRat_cut bits hcut hpositive e
      (by omega : bitLength m.natAbs - bits + bits = bitLength m.natAbs)
    have hvalue : toRat ⟨m, e⟩ = m.natAbs * 2 ^ e := by
      rw [toRat_eq, Nat.cast_natAbs, abs_of_nonneg (not_lt.mp hneg)]
    rw [hvalue, ← hkept]

/-! ### Quotients of naturals -/

theorem toRat_ofQuotient (bits : Nat) (hdirection : direction.opposite = direction) (hn : 0 < n) (hd : 0 < d) :
    (ofQuotient direction bits n d).toRat = keep direction.divide 2 bits (n / d) := by
  have hcut := Direction.isCut_divide hdirection
  have hdivisor : (0 : ℚ) < d := by exact_mod_cast hd
  have hquotient : (0 : ℚ) < n / d := div_pos (by exact_mod_cast hn) hdivisor
  obtain ⟨order, hlower, hupper, hvalue⟩ := exists_order_of_quotient direction bits hn hd
  obtain ⟨shift, hshift⟩ : ∃ shift, shift = (bits : Int) - order := ⟨_, rfl⟩
  rw [hvalue, ← hshift]
  -- the quotient in units of its last bit
  have hleast : (2 : ℚ) ^ ((bits : Int) - 1) ≤ n / d * 2 ^ shift := by
    have hplaces : (bits : Int) - 1 = order - 1 + shift := by omega
    rw [hplaces, zpow_add₀ (by norm_num)]
    exact mul_le_mul_of_nonneg_right hlower (by positivity)
  have hmost : (n : ℚ) / d * 2 ^ shift < 2 ^ (bits : Int) := by
    have hplaces : (bits : Int) = order + shift := by omega
    rw [hplaces, zpow_add₀ (by norm_num)]
    exact mul_lt_mul_of_pos_right hupper (by positivity)
  have hcut' {n' d' : Nat} (hd' : 0 < d') (hscaled : (n' : ℚ) / d' = n / d * 2 ^ shift) :
      toRat ⟨(direction.divide n' d' : Nat), -shift⟩ = keep direction.divide 2 bits (n / d) := by
    have hnumber : (n : ℚ) / d = n' / d' * ((2 : Nat) : ℚ) ^ (-shift) := by
      rw [hscaled, Nat.cast_ofNat, mul_assoc, ← zpow_add₀ (by norm_num), add_neg_cancel, zpow_zero, mul_one]
    rw [hnumber, keep_eq hcut (by norm_num) hd', toRat_eq]
    · push_cast
      rfl
    · rw [hscaled]
      exact_mod_cast hleast
    · rw [hscaled]
      exact_mod_cast hmost
  split_ifs with hsign
  · obtain ⟨k, hk⟩ := Int.eq_ofNat_of_zero_le hsign
    refine hcut' hd ?_
    rw [hk, Int.toNat_natCast, zpow_natCast]
    push_cast
    ring
  · obtain ⟨k, hk⟩ := Int.eq_ofNat_of_zero_le (by omega : 0 ≤ -shift)
    refine hcut' (by positivity) ?_
    rw [hk, Int.toNat_natCast, ← neg_neg shift, hk, zpow_neg, zpow_natCast]
    push_cast
    rw [← div_div, div_eq_mul_inv (_ / _)]

theorem toRat_ofRat (hdirection : direction.opposite = direction) (q : ℚ) :
    (ofRat direction bits q).toRat = keep direction.divide 2 bits q := by
  have hcut := Direction.isCut_divide hdirection
  unfold ofRat
  rw [hdirection]
  split_ifs with hzero hneg
  · rw [Rat.zero_of_num_zero hzero, keep_zero hcut]
    rfl
  · have hkept := toRat_ofQuotient bits hdirection (by omega : 0 < q.num.natAbs) q.den_pos
    rw [natAbs_num_div_den, abs_of_neg (Rat.num_neg.mp hneg), keep_neg hcut] at hkept
    rw [toRat_neg, hkept, neg_neg]
  · have hkept := toRat_ofQuotient bits hdirection (by omega : 0 < q.num.natAbs) q.den_pos
    rwa [natAbs_num_div_den, abs_of_nonneg (not_lt.mp (mt Rat.num_neg.mpr hneg))] at hkept

/-- The quotient of two positive fractions. -/
theorem toRat_divRounded (bits : Nat) (hdirection : direction.opposite = direction) {x y : Binary} (hx : 0 < x.toRat)
    (hy : 0 < y.toRat) : (x.divRounded direction bits y).toRat = keep direction.divide 2 bits (x.toRat / y.toRat) := by
  have hcut := Direction.isCut_divide hdirection
  have hxm := mantissa_pos.mpr hx
  have hym := mantissa_pos.mpr hy
  have hzero : ¬ x.isZero := by simpa [isZero] using hxm.ne'
  have hkept := toRat_ofQuotient bits hdirection (by omega : 0 < x.mantissa.natAbs) (by omega : 0 < y.mantissa.natAbs)
  have hscaled := keep_mul_zpow hcut (by norm_num : 1 < 2) bits ((x.mantissa.natAbs : ℚ) / y.mantissa.natAbs)
    (x.exponent - y.exponent)
  have hquotient : x.toRat / y.toRat =
      x.mantissa.natAbs / y.mantissa.natAbs * 2 ^ (x.exponent - y.exponent) := by
    rw [toRat_eq, toRat_eq, zpow_sub₀ (by norm_num), Nat.cast_natAbs, Nat.cast_natAbs, abs_of_pos hxm,
      abs_of_pos hym]
    field_simp
  rw [Nat.cast_ofNat] at hscaled
  simp only [divRounded, hzero, decide_eq_false hxm.not_gt, decide_eq_false hym.not_gt, bne_self_eq_false,
    Bool.false_eq_true, if_false]
  rw [toRat_scale, hkept, ← hscaled, hquotient]

end Binary

end Reckoner.Number
