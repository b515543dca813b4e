import Reckoner.Proofs.Number.KeptDigits
import Reckoner.Proofs.Number.Powers

/-!
# Decimal expansions of binary fractions

A binary fraction that is cut to decimal digits is expanded first.  A small one is expanded exactly.  Of a large one, a
power of ten is divided out with so many bits that the expansion is wrong by far less than the last digit.  The error
is also far smaller than the gap between two binary fractions with as many bits as the digits need, so that expanding
keeps the order of these.
-/

namespace Reckoner.Number

namespace Decimal

/-! ### Powers that are divided out -/

/-- The bits that are kept while a power of ten is divided out. -/
def spareBits (digits : Nat) (x : Binary) : Nat := 4 * digits + 160 + bitLength x.order.natAbs

/-- The power of ten that is divided out of a binary fraction. -/
def powerUsed (digits : Nat) (x : Binary) : Binary :=
  (Interval.pow (spareBits digits x) (.ofInt 10) (powerOut x).natAbs).pick (spareBits digits x)

variable {digits : Nat} {x y : Binary}

theorem reduced_eq (digits : Nat) (x : Binary) : reduced digits x =
    if 0 ≤ powerOut x then Binary.divRounded .nearest (spareBits digits x) x.abs (powerUsed digits x)
    else (x.abs.mul (powerUsed digits x)).round .nearest (spareBits digits x) := rfl

theorem natAbs_powerOut_le (h : 2 ≤ x.order.natAbs) : (powerOut x).natAbs ≤ x.order.natAbs := by
  unfold powerOut
  rw [Int.fdiv_eq_ediv_of_nonneg _ (by decide)]
  omega

/-- The errors that dividing out a power of ten may cause are far smaller than the digits that are kept. -/
theorem drift_spareBits_le (digits : Nat) (h : 2 ≤ x.order.natAbs) :
    drift (spareBits digits x) (2 * (powerOut x).natAbs + 2) ≤ 1 / 2 ^ (4 * digits + 155) := by
  have hfactors : 2 * (2 * (powerOut x).natAbs + 2) ≤ 4 * 2 ^ bitLength x.order.natAbs := by
    have hlength := lt_two_pow_bitLength x.order.natAbs
    have hpower := natAbs_powerOut_le h
    omega
  have hbound : 2 * ((2 * (powerOut x).natAbs + 2 : Nat) : ℝ) * roundoff (spareBits digits x) ≤
      1 / 2 ^ (4 * digits + 155) := by
    have hreal : 2 * ((2 * (powerOut x).natAbs + 2 : Nat) : ℝ) ≤ 4 * 2 ^ bitLength x.order.natAbs := by
      exact_mod_cast hfactors
    calc _ ≤ 4 * 2 ^ bitLength x.order.natAbs * roundoff (spareBits digits x) :=
          mul_le_mul_of_nonneg_right hreal (roundoff_pos _).le
      _ = 1 / 2 ^ (4 * digits + 157) := by
          have hsplit : (2 : ℝ) ^ (4 * digits + 160) = 8 * 2 ^ (4 * digits + 157) := by ring
          rw [roundoff, spareBits, pow_add, hsplit]
          field_simp
          norm_num
      _ ≤ 1 / 2 ^ (4 * digits + 155) := by gcongr <;> norm_num
  have hone : (1 : ℝ) / 2 ^ (4 * digits + 155) ≤ 1 := by
    rw [div_le_one (by positivity)]
    exact one_le_pow₀ one_le_two
  exact (drift_le (hbound.trans hone)).trans hbound

theorem powerUsed_isNear (digits : Nat) (h : 2 ≤ x.order.natAbs) :
    IsNear (1 / 2 ^ (4 * digits + 155)) (powerUsed digits x).value (10 ^ (powerOut x).natAbs) := by
  have hdrift := drift_spareBits_le digits h
  have hone : (1 : ℝ) / 2 ^ (4 * digits + 155) < 1 := by
    rw [div_lt_one (by positivity)]
    exact one_lt_pow₀ one_lt_two (by omega)
  have hsmall : drift (spareBits digits x) (2 * (powerOut x).natAbs - 2) < 1 :=
    (drift_mono _ (by omega)).trans_lt (hdrift.trans_lt hone)
  have hpick := (Interval.isWithin_pow (by decide : (0 : Int) < 10) hsmall).pick
  exact_mod_cast hpick.mono ((drift_mono _ (by omega)).trans hdrift)

/-- How far an expansion may be from the binary fraction, in proportion to it. -/
noncomputable def expansionError (digits : Nat) : ℝ := roundoff (4 * digits + 153)

theorem expansionError_eq (digits : Nat) : expansionError digits = 1 / 2 ^ (4 * digits + 152) := by
  rw [expansionError, roundoff, pow_succ]
  field_simp

theorem expansionError_pos (digits : Nat) : 0 < expansionError digits := roundoff_pos _

/-- What is left of a binary fraction when a power of ten has been divided out. -/
theorem reduced_isNear (h : 2 ≤ x.order.natAbs) :
    IsNear (expansionError digits) (reduced digits x).value (|x.value| / 10 ^ powerOut x) := by
  obtain ⟨η, hη⟩ : ∃ η : ℝ, η = 1 / 2 ^ (4 * digits + 155) := ⟨_, rfl⟩
  have hpower := powerUsed_isNear digits h
  have herror : expansionError digits = 8 * η := by
    have hsplit : (2 : ℝ) ^ (4 * digits + 155) = 8 * 2 ^ (4 * digits + 152) := by ring
    rw [expansionError_eq, hη, hsplit]
    field_simp
  have hpos : 0 < η := hη ▸ by positivity
  have hhalf : η ≤ 1 / 2 := by
    rw [hη]
    exact one_div_le_one_div_of_le two_pos (le_self_pow₀ one_le_two (by omega))
  have hround : roundoff (spareBits digits x) ≤ η := by
    rw [roundoff, hη, spareBits, div_le_div_iff₀ (by positivity) (by positivity), one_mul, ← pow_succ']
    exact pow_le_pow_right₀ one_le_two (by omega)
  rw [← hη] at hpower
  have hrounded : η + roundoff (spareBits digits x) + roundoff (spareBits digits x) * η ≤ 8 * η := by
    nlinarith [roundoff_pos (spareBits digits x)]
  have hquotient : 2 * (0 + η) + roundoff (spareBits digits x) + roundoff (spareBits digits x) * (2 * (0 + η)) ≤ 8 * η := by
    nlinarith [roundoff_pos (spareBits digits x)]
  have hten : (10 : ℝ) ^ (powerOut x).natAbs ≠ 0 := by positivity
  rw [reduced_eq, herror]
  split_ifs with hsign
  · have hpower' : (10 : ℝ) ^ powerOut x = 10 ^ (powerOut x).natAbs := by
      rw [← zpow_natCast, Int.natAbs_of_nonneg hsign]
    have hnonzero : ¬ (powerUsed digits x).isZero := by
      intro hzero
      have hleast := hpower.lower (by positivity)
      rw [Binary.isZero_iff.mp hzero] at hleast
      have hpositive : 0 < (1 - η) * (10 : ℝ) ^ (powerOut x).natAbs := mul_pos (by linarith) (by positivity)
      linarith
    have hdiv := (IsNear.refl le_rfl |x.value|).div hhalf hpower hten
    have hcut := Binary.divRounded_isNear .nearest (spareBits digits x) x.abs hnonzero
    rw [Binary.value_abs] at hcut
    rw [hpower']
    exact (hdiv.trans (roundoff_pos _).le hcut).mono hquotient
  · have hpower' : |x.value| / (10 : ℝ) ^ powerOut x = |x.value| * 10 ^ (powerOut x).natAbs := by
      have hnegative : powerOut x = -((powerOut x).natAbs : Int) := by omega
      conv_lhs => rw [hnegative, zpow_neg, zpow_natCast, div_inv_eq_mul]
    have hmul := hpower.const_mul |x.value|
    have hcut := Binary.round_isNear .nearest (spareBits digits x) (x.abs.mul (powerUsed digits x))
    rw [Binary.value_mul, Binary.value_abs] at hcut
    rw [hpower']
    exact (hmul.trans (roundoff_pos _).le hcut).mono hrounded

/-! ### Expansions -/

/-- The number that is cut to decimal digits in the place of a binary fraction. -/
def expansion (digits : Nat) (x : Binary) : ℚ :=
  if x.isZero then 0
  else if x.order.natAbs ≤ exactRange then x.toRat
  else (if x.sign < 0 then -1 else 1) * ((reduced digits x).toRat * 10 ^ powerOut x)

theorem sign_neg_iff (x : Binary) : x.sign < 0 ↔ x.value < 0 := by
  have hunit : (0 : ℝ) < 2 ^ x.exponent := by positivity
  rw [Binary.sign, Int.sign_neg_iff, Binary.value, mul_neg_iff]
  simp [hunit, hunit.not_gt]

theorem expansion_isNear (digits : Nat) (x : Binary) :
    IsNear (expansionError digits) (expansion digits x : ℝ) x.value := by
  have herror := expansionError_pos digits
  unfold expansion
  split_ifs with hzero hsmall hnegative
  · rw [Binary.isZero_iff.mp hzero, Rat.cast_zero]
    exact .refl herror.le 0
  · rw [Binary.cast_toRat]
    exact .refl herror.le _
  all_goals
    have hlarge : 2 ≤ x.order.natAbs := by
      unfold exactRange at hsmall
      omega
    have hreduced := (@reduced_isNear digits x hlarge).const_mul ((10 : ℝ) ^ powerOut x)
    rw [mul_div_cancel₀ _ (by positivity : (10 : ℝ) ^ powerOut x ≠ 0)] at hreduced
    push_cast
    rw [Binary.cast_toRat, mul_comm (reduced digits x).value]
  · rw [abs_of_neg ((sign_neg_iff x).mp hnegative)] at hreduced
    simpa using hreduced.neg
  · rw [abs_of_nonneg (not_lt.mp (mt (sign_neg_iff x).mpr hnegative))] at hreduced
    rwa [one_mul]

theorem expansionError_lt_one (digits : Nat) : expansionError digits < 1 := by
  rw [expansionError_eq, div_lt_one (by positivity)]
  exact one_lt_pow₀ one_lt_two (by omega)

theorem reduced_pos (digits : Nat) (h : 2 ≤ x.order.natAbs) (hx : ¬ x.isZero) : 0 < (reduced digits x).toRat := by
  have hvalue : 0 < |x.value| := abs_pos.mpr (mt Binary.isZero_iff.mpr hx)
  have hquotient : 0 < |x.value| / 10 ^ powerOut x := div_pos hvalue (by positivity)
  have hleast := (@reduced_isNear digits x h).lower hquotient.le
  rw [← Binary.cast_toRat (reduced digits x)] at hleast
  have hpositive : 0 < (1 - expansionError digits) * (|x.value| / 10 ^ powerOut x) :=
    mul_pos (by linarith [expansionError_lt_one digits]) hquotient
  exact_mod_cast hpositive.trans_le hleast

/-- Cutting a binary fraction to digits is cutting its expansion. -/
theorem value_ofBinary (hdigits : 1 ≤ digits) (x : Binary) :
    (ofBinary digits x).value = keep divHalfUp 10 digits (expansion digits x) := by
  unfold ofBinary expansion
  split_ifs with hzero hsmall hnegative
  · rw [keep_zero isCut_divHalfUp]
    exact value_eq_zero.mpr rfl
  · exact value_ofRat hdigits _
  all_goals
    have hlarge : 2 ≤ x.order.natAbs := by
      unfold exactRange at hsmall
      omega
    have hpos := reduced_pos digits hlarge hzero
    have hn : 0 < (reduced digits x).toRat.num.natAbs := Int.natAbs_pos.mpr (Rat.num_ne_zero.mpr hpos.ne')
    have hcut := value_ofQuotient hdigits hn (reduced digits x).toRat.den_pos
    have hpoint := keep_mul_zpow isCut_divHalfUp (by norm_num : 1 < 10) digits (reduced digits x).toRat (powerOut x)
    rw [natAbs_num_div_den, abs_of_pos hpos, value, negative_ofQuotient, if_neg Bool.false_ne_true, one_mul] at hcut
    rw [Nat.cast_ofNat] at hpoint
    rw [value]
    dsimp only
    rw [zpow_add₀ (by norm_num), ← mul_assoc ((ofQuotient _ _ _).coefficient : ℚ), hcut, ← hpoint]
  · rw [decide_eq_true hnegative, if_pos rfl, neg_one_mul, neg_one_mul, keep_neg isCut_divHalfUp]
  · rw [decide_eq_false hnegative, if_neg Bool.false_ne_true, one_mul, one_mul]

/-! ### Signs and order -/

theorem expansion_neg (digits : Nat) (x : Binary) : expansion digits x.neg = -expansion digits x := by
  have hzero : x.neg.isZero = x.isZero := by simp [Binary.isZero, Binary.neg]
  have horder : x.neg.order = x.order := by simp [Binary.order, Binary.neg]
  have habs : x.neg.abs = x.abs := by simp [Binary.abs, Binary.neg]
  have hpower : powerOut x.neg = powerOut x := by rw [powerOut, powerOut, horder]
  have hreduced : reduced digits x.neg = reduced digits x := by simp only [reduced, horder, hpower, habs]
  unfold expansion
  rw [hzero, horder, hpower, hreduced, Binary.toRat_neg]
  split_ifs with hx hsmall hneg hpos
  · rw [neg_zero]
  · rfl
  · rw [sign_neg_iff, Binary.value_neg] at hneg
    rw [sign_neg_iff] at hpos
    linarith
  · ring
  · ring
  · rw [sign_neg_iff, Binary.value_neg] at hneg
    rw [sign_neg_iff] at *
    have hx := mt Binary.isZero_iff.mpr hx
    exact absurd (le_antisymm (by linarith) (by linarith)) hx

theorem expansion_pos (digits : Nat) (hx : 0 < x.toRat) : 0 < expansion digits x := by
  have hvalue : 0 < x.value := by
    rw [← Binary.cast_toRat]
    exact_mod_cast hx
  have hleast := (expansion_isNear digits x).lower hvalue.le
  have hpositive : 0 < (1 - expansionError digits) * x.value :=
    mul_pos (by linarith [expansionError_lt_one digits]) hvalue
  exact_mod_cast hpositive.trans_le hleast

theorem toRat_powerUsed_pos (digits : Nat) (h : 2 ≤ x.order.natAbs) : 0 < (powerUsed digits x).toRat := by
  have hone : (1 : ℝ) / 2 ^ (4 * digits + 155) < 1 := by
    rw [div_lt_one (by positivity)]
    exact one_lt_pow₀ one_lt_two (by omega)
  have hleast := (powerUsed_isNear digits h).lower (by positivity)
  rw [← Binary.cast_toRat] at hleast
  have hpositive : 0 < (1 - 1 / 2 ^ (4 * digits + 155)) * (10 : ℝ) ^ (powerOut x).natAbs :=
    mul_pos (by linarith) (by positivity)
  exact_mod_cast hpositive.trans_le hleast

/-- The fractions of one order are divided by the same power. -/
theorem reduced_le_of_order_eq (digits : Nat) (hlarge : 2 ≤ x.order.natAbs) (horder : x.order = y.order)
    (hx : 0 < x.toRat) (h : x.toRat ≤ y.toRat) : (reduced digits x).toRat ≤ (reduced digits y).toRat := by
  have hpower : powerOut x = powerOut y := by rw [powerOut, powerOut, horder]
  have hspare : spareBits digits x = spareBits digits y := by rw [spareBits, spareBits, horder]
  have hused : powerUsed digits x = powerUsed digits y := by rw [powerUsed, powerUsed, hspare, hpower]
  have hpos := toRat_powerUsed_pos digits hlarge
  have hy := hx.trans_le h
  have hxabs : x.abs.toRat = x.toRat := by rw [Binary.toRat_abs, abs_of_pos hx]
  have hyabs : y.abs.toRat = y.toRat := by rw [Binary.toRat_abs, abs_of_pos hy]
  have hbits : 1 ≤ spareBits digits y := by
    rw [spareBits]
    omega
  have hmono : Monotone (keep divHalfEven 2 (spareBits digits y)) :=
    monotone_keep isCut_divHalfEven (by norm_num) hbits
  rw [hused] at hpos
  rw [reduced_eq, reduced_eq, hpower, hspare, hused]
  split_ifs
  · rw [Binary.toRat_divRounded _ rfl (hxabs ▸ hx) hpos, Binary.toRat_divRounded _ rfl (hyabs ▸ hy) hpos, hxabs, hyabs]
    exact hmono (div_le_div_of_nonneg_right h hpos.le)
  · rw [Binary.toRat_round rfl hbits, Binary.toRat_round rfl hbits, Binary.toRat_mul, Binary.toRat_mul, hxabs, hyabs]
    exact hmono (mul_le_mul_of_nonneg_right h hpos.le)

theorem not_isZero_of_pos (hx : 0 < x.toRat) : ¬ x.isZero := by
  intro hzero
  have hvalue := Binary.isZero_iff.mp hzero
  rw [← Binary.cast_toRat] at hvalue
  exact hx.ne' (by exact_mod_cast hvalue)

theorem expansion_le_of_order_eq (digits : Nat) (horder : x.order = y.order) (hx : 0 < x.toRat) (h : x.toRat ≤ y.toRat) :
    expansion digits x ≤ expansion digits y := by
  have hy := hx.trans_le h
  have hsign {z : Binary} (hz : 0 < z.toRat) : ¬ z.sign < 0 := by
    rw [Binary.sign, Int.sign_neg_iff, not_lt]
    exact (Binary.mantissa_pos.mpr hz).le
  have hpower : powerOut x = powerOut y := by rw [powerOut, powerOut, horder]
  simp only [expansion, not_isZero_of_pos hx, not_isZero_of_pos hy, hsign hx, hsign hy, horder, hpower, if_false, one_mul,
    Bool.false_eq_true]
  split_ifs with hsmall
  · exact h
  · have hlarge : 2 ≤ x.order.natAbs := by
      unfold exactRange at hsmall
      omega
    exact mul_le_mul_of_nonneg_right (reduced_le_of_order_eq digits hlarge horder hx h) (by positivity)

/-- A fraction with few bits keeps away from the next power of two. -/
theorem value_le_of_bits {bits : Nat} (hbits : 1 ≤ bits) (hmantissa : x.mantissa.natAbs ≤ 2 ^ bits) :
    |x.value| ≤ (1 - 1 / 2 ^ bits) * 2 ^ x.order := by
  have hunit : (0 : ℝ) < 2 ^ x.exponent := by positivity
  have hlength := lt_two_pow_bitLength x.mantissa.natAbs
  have hsize : (x.mantissa.natAbs : ℝ) ≤ (1 - 1 / 2 ^ bits) * 2 ^ bitLength x.mantissa.natAbs := by
    rcases le_or_gt (bitLength x.mantissa.natAbs) bits with hshort | hlong
    · have hless : (x.mantissa.natAbs : ℝ) + 1 ≤ 2 ^ bitLength x.mantissa.natAbs := by exact_mod_cast hlength
      have hgap : 1 / 2 ^ bits * (2 : ℝ) ^ bitLength x.mantissa.natAbs ≤ 1 := by
        rw [one_div_mul_eq_div, div_le_one (by positivity)]
        exact pow_le_pow_right₀ one_le_two hshort
      linarith
    · have hhalf : (1 : ℝ) / 2 ^ bits ≤ 1 / 2 := one_div_le_one_div_of_le two_pos (le_self_pow₀ one_le_two (by omega))
      have hpower : (2 : ℝ) ^ bits * 2 ≤ 2 ^ bitLength x.mantissa.natAbs := by
        rw [← pow_succ]
        exact pow_le_pow_right₀ one_le_two hlong
      have hmost : (x.mantissa.natAbs : ℝ) ≤ 2 ^ bits := by exact_mod_cast hmantissa
      nlinarith
  rw [Binary.value_natAbs, Binary.order, zpow_add₀ two_ne_zero, zpow_natCast, mul_comm ((2 : ℝ) ^ x.exponent), ← mul_assoc]
  exact mul_le_mul_of_nonneg_right hsize hunit.le

/-- Expanding keeps the order of fractions with few bits. -/
theorem expansion_le_of_pos {bits : Nat} (hbits : 1 ≤ bits) (hfew : bits < 4 * digits + 152)
    (hmantissa : x.mantissa.natAbs ≤ 2 ^ bits) (hx : 0 < x.toRat) (h : x.toRat ≤ y.toRat) :
    expansion digits x ≤ expansion digits y := by
  have hreal {z : Binary} (hz : 0 < z.toRat) : 0 < z.value := by
    rw [← Binary.cast_toRat]
    exact_mod_cast hz
  have hxpos := hreal hx
  have hypos := hreal (hx.trans_le h)
  have hvalues : x.value ≤ y.value := by
    rw [← Binary.cast_toRat, ← Binary.cast_toRat]
    exact_mod_cast h
  have horders : x.order ≤ y.order := by
    apply Binary.order_mono (not_isZero_of_pos hx)
    rwa [abs_of_pos hxpos, abs_of_pos hypos]
  rcases horders.eq_or_lt with heq | hlt
  · exact expansion_le_of_order_eq digits heq hx h
  · -- a power of two lies between the fractions, and the errors do not reach it
    obtain ⟨ε, hε⟩ : ∃ ε, ε = expansionError digits := ⟨_, rfl⟩
    have hupper := (expansion_isNear digits x).upper hxpos.le
    have hlower := (expansion_isNear digits y).lower hypos.le
    have hgap := value_le_of_bits hbits hmantissa
    have hbelow : (2 : ℝ) ^ x.order ≤ y.value := by
      have hnext : (2 : ℝ) ^ (x.order + 1) ≤ 2 ^ y.order := zpow_le_zpow_right₀ one_le_two hlt
      have hreaches := Binary.order_le_value (not_isZero_of_pos (hx.trans_le h))
      rw [zpow_add_one₀ two_ne_zero] at hnext
      rw [abs_of_pos hypos] at hreaches
      linarith
    have herror : 2 * expansionError digits ≤ 1 / 2 ^ bits := by
      rw [expansionError_eq, mul_one_div, div_le_div_iff₀ (by positivity) (by positivity), one_mul, ← pow_succ']
      exact pow_le_pow_right₀ one_le_two hfew
    rw [abs_of_pos hxpos] at hgap
    rw [← hε] at hupper hlower herror
    have hεpos : 0 < ε := hε ▸ expansionError_pos digits
    have hpower : (0 : ℝ) < 2 ^ x.order := by positivity
    have hchain : (expansion digits x : ℝ) ≤ expansion digits y := by
      calc (expansion digits x : ℝ) ≤ (1 + ε) * x.value := hupper
        _ ≤ (1 + ε) * ((1 - 1 / 2 ^ bits) * 2 ^ x.order) := mul_le_mul_of_nonneg_left hgap (by linarith)
        _ ≤ (1 - ε) * 2 ^ x.order := by
            rw [← mul_assoc]
            refine mul_le_mul_of_nonneg_right ?_ hpower.le
            nlinarith [mul_nonneg hεpos.le (by positivity : (0 : ℝ) ≤ 1 / 2 ^ bits)]
        _ ≤ (1 - ε) * y.value := mul_le_mul_of_nonneg_left hbelow (by linarith [hε ▸ expansionError_lt_one digits])
        _ ≤ expansion digits y := hlower
    exact_mod_cast hchain

theorem expansion_of_isZero (digits : Nat) (hx : x.isZero) : expansion digits x = 0 := by rw [expansion, if_pos hx]

theorem isZero_of_toRat_eq_zero (hx : x.toRat = 0) : x.isZero := by
  rw [Binary.isZero_iff, ← Binary.cast_toRat, hx, Rat.cast_zero]

theorem expansion_le {bits : Nat} (hbits : 1 ≤ bits) (hfew : bits < 4 * digits + 152)
    (hxfew : x.mantissa.natAbs ≤ 2 ^ bits) (hyfew : y.mantissa.natAbs ≤ 2 ^ bits) (h : x.toRat ≤ y.toRat) :
    expansion digits x ≤ expansion digits y := by
  have hnegative {z : Binary} (hz : z.toRat < 0) : expansion digits z < 0 := by
    have hpos := expansion_pos digits (x := z.neg) (by rw [Binary.toRat_neg]; linarith)
    rw [expansion_neg] at hpos
    linarith
  rcases lt_trichotomy x.toRat 0 with hx | hx | hx
  · rcases lt_trichotomy y.toRat 0 with hy | hy | hy
    · have hle := expansion_le_of_pos hbits hfew (x := y.neg) (y := x.neg) (by simpa [Binary.neg] using hyfew)
        (by rw [Binary.toRat_neg]; linarith) (by rw [Binary.toRat_neg, Binary.toRat_neg]; linarith)
      rw [expansion_neg, expansion_neg] at hle
      linarith
    · rw [expansion_of_isZero digits (isZero_of_toRat_eq_zero hy)]
      exact (hnegative hx).le
    · exact ((hnegative hx).trans (expansion_pos digits hy)).le
  · rw [expansion_of_isZero digits (isZero_of_toRat_eq_zero hx)]
    rcases (hx ▸ h).eq_or_lt with hy | hy
    · rw [expansion_of_isZero digits (isZero_of_toRat_eq_zero hy.symm)]
    · exact (expansion_pos digits hy).le
  · exact expansion_le_of_pos hbits hfew hxfew hx h

theorem abs_expansion_sub_le (digits : Nat) (x : Binary) :
    |expansion digits x - x.toRat| ≤ 1 / 2 ^ (4 * digits + 152) * |x.toRat| := by
  have hnear := expansion_isNear digits x
  rw [IsNear, ← Binary.cast_toRat, expansionError_eq] at hnear
  refine (Rat.cast_le (K := ℝ)).mp ?_
  push_cast
  exact hnear

end Decimal

end Reckoner.Number
