import Reckoner.Expression.Display
import Reckoner.Proofs.Number.Expansions

/-!
# Working values of displayed numbers

Before a rational is rounded to the digits that are shown, it is rounded to a binary number and then to a decimal one,
its working value.  The working value grows with the rational and changes its sign with it, and a decimal number with
fewer digits than are kept is its own working value.
-/

namespace Reckoner.Expression

open Reckoner.Number

/-! ### Bits of digits -/

theorem bitsOfDigits_pos (digits : Int) : 1 ≤ Settings.bitsOfDigits digits := le_max_left _ _

theorem bitsOfDigits_le (digits : Nat) : Settings.bitsOfDigits digits ≤ 4 * digits + 5 := by
  have hupper := (divHalfEven_bounds ((digits + 1) * 33219280948873626) (10 ^ (16 : Nat))).2
  have hquotient : (digits + 1) * 33219280948873626 / 10 ^ (16 : Nat) ≤ 4 * (digits + 1) := by
    rw [Nat.div_le_iff_le_mul_add_pred (by norm_num)]
    omega
  have hcast : ((digits : Int) + 1).toNat = digits + 1 := by omega
  rw [Settings.bitsOfDigits, hcast]
  omega

/-- A power of ten is below the power of two that is above its enclosure. -/
theorem ten_pow_le_of_order {bits n : Nat} {e : Int} (hbits : 8 * n * roundoff bits ≤ 1)
    (horder : (Interval.pow bits (.ofInt 10) n).upper.order ≤ e) : (10 : ℝ) ^ n ≤ 2 ^ (e + 1) := by
  have hpos := roundoff_pos bits
  have hcount : ((2 * n - 2 : Nat) : ℝ) ≤ 2 * n := by exact_mod_cast Nat.sub_le _ _
  have hfactors : 2 * ((2 * n - 2 : Nat) : ℝ) * roundoff bits ≤ 1 / 2 := by
    have hmul := mul_le_mul_of_nonneg_right hcount hpos.le
    linarith
  have hdrift := drift_le (hfactors.trans (by norm_num))
  have hpower := Interval.isWithin_pow (by decide : (0 : Int) < 10) (by linarith : drift bits (2 * n - 2) < 1)
  have hlower := hpower.2.lower (by positivity)
  have hupper : (Interval.pow bits (.ofInt 10) n).upper.value ≤ 2 ^ e :=
    ((le_abs_self _).trans (Binary.value_lt_order _).le).trans (zpow_le_zpow_right₀ one_le_two horder)
  have hten : (0 : ℝ) < 10 ^ n := by positivity
  push_cast at hlower
  rw [zpow_add_one₀ two_ne_zero]
  nlinarith

/-- The bits that are taken for a digit are not fewer than a digit needs. -/
theorem ten_pow_le_bits_of_digit : (10 : ℝ) ^ (10 ^ (16 : Nat) : Nat) ≤ 2 ^ (33219280948873626 : Nat) := by
  have horder : ((Interval.pow 128 (.ofInt 10) (10 ^ (16 : Nat))).upper).order ≤ 33219280948873625 := by decide +kernel
  have hbits : 8 * ((10 ^ (16 : Nat) : Nat) : ℝ) * roundoff 128 ≤ 1 := by
    rw [roundoff]
    norm_num
  have hlast : (33219280948873625 : Int) + 1 = (33219280948873626 : Nat) := by norm_num
  have hpower := ten_pow_le_of_order hbits horder
  rwa [hlast, zpow_natCast] at hpower

theorem le_divHalfEven (n : Nat) {d : Nat} (hd : 0 < d) : 2 * n ≤ (2 * divHalfEven n d + 1) * d := by
  have hdivision := Nat.div_add_mod n d
  have hless := Nat.mod_lt n hd
  unfold divHalfEven
  dsimp only
  split_ifs <;> nlinarith

/-- The bits that hold a number of digits hold them to within a digit. -/
theorem hundred_pow_le {bits n k m : Nat} (hk : 0 < k) (hdigit : (10 : ℝ) ^ k ≤ 2 ^ m)
    (hbits : 2 * (n * m) ≤ (2 * bits + 1) * k) : 100 ^ n ≤ 2 ^ (2 * bits + 1) := by
  have hreal : ((100 : ℝ) ^ n) ^ k ≤ (2 ^ (2 * bits + 1)) ^ k := by
    calc ((100 : ℝ) ^ n) ^ k = ((10 ^ k) ^ 2) ^ n := by
          rw [← pow_mul, ← pow_mul, ← pow_mul, show (100 : ℝ) = 10 ^ 2 by norm_num, ← pow_mul]
          ring_nf
      _ ≤ ((2 ^ m) ^ 2) ^ n := by gcongr
      _ = 2 ^ (2 * (n * m)) := by
          rw [← pow_mul, ← pow_mul]
          ring_nf
      _ ≤ 2 ^ ((2 * bits + 1) * k) := pow_le_pow_right₀ one_le_two hbits
      _ = (2 ^ (2 * bits + 1)) ^ k := pow_mul _ _ _
  exact_mod_cast (pow_le_pow_iff_left₀ (by positivity) (by positivity) hk.ne').mp hreal

theorem seven_mul_ten_pow_le (digits : Nat) : 7 * 10 ^ digits ≤ 2 ^ Settings.bitsOfDigits digits := by
  have hcast : ((digits : Int) + 1).toNat = digits + 1 := by omega
  have hrounded := le_divHalfEven ((digits + 1) * 33219280948873626) (by norm_num : 0 < 10 ^ (16 : Nat))
  have hbits : divHalfEven ((digits + 1) * 33219280948873626) (10 ^ (16 : Nat)) ≤ Settings.bitsOfDigits digits := by
    rw [Settings.bitsOfDigits, hcast]
    exact le_max_right _ _
  generalize Settings.bitsOfDigits digits = bits at hbits ⊢
  have henough := hundred_pow_le (by norm_num) ten_pow_le_bits_of_digit
    (hrounded.trans (Nat.mul_le_mul_right _ (Nat.add_le_add_right (Nat.mul_le_mul_left 2 hbits) 1)))
  have hsquare : (7 * 10 ^ digits) ^ 2 ≤ (2 ^ bits) ^ 2 := by
    have hhundred : (7 * 10 ^ digits) ^ 2 = 49 * 100 ^ digits := by
      rw [mul_pow, ← pow_mul, mul_comm digits, pow_mul]
      norm_num
    have hfour : 2 * (2 ^ bits) ^ 2 = 2 ^ (2 * bits + 1) := by
      rw [← pow_mul, mul_comm bits, pow_succ, mul_comm]
    rw [pow_succ] at henough
    rw [hhundred]
    omega
  exact (Nat.pow_le_pow_iff_left (by norm_num)).mp hsquare

/-! ### Values on the way to the shown one -/

namespace DisplayStyle

variable {style : DisplayStyle} {v w : ℚ}

/-- The binary number that a rational is rounded to. -/
def binary (style : DisplayStyle) (v : Rat) : Binary :=
  let bits := Settings.bitsOfDigits style.keptDigits
  (Binary.ofRat .toZero (bits + 4) v).round .nearest bits

/-- The decimal that the binary number is rounded to. -/
def working (style : DisplayStyle) (v : Rat) : Decimal := .ofBinary style.keptDigits.toNat (style.binary v)

/-- The decimal that a rational is shown as. -/
def shown (style : DisplayStyle) (v : Rat) : Decimal :=
  let bits := Settings.bitsOfDigits style.keptDigits
  style.decimal ((Binary.ofRat .toZero (bits + 4) v).round .nearest bits)

theorem shown_eq (style : DisplayStyle) (v : Rat) : style.shown v = (style.working v).round style.digits.toNat := rfl

theorem displayValue_rational (hdigits : 1 ≤ style.digits) (v : Rat) :
    style.displayValue (.number (.rational v)) = style.write (style.shown v) := by
  have hsome : ¬ style.digits < 1 := not_lt.mpr hdigits
  simp only [displayValue, display, hsome, if_false, approximate?]
  rfl

/-- At least five digits more are kept than are shown. -/
theorem digits_add_five_le (hdigits : 1 ≤ style.digits) : style.digits.toNat + 5 ≤ style.keptDigits.toNat := by
  unfold keptDigits
  omega

theorem keptDigits_eq (hdigits : 1 ≤ style.digits) : style.keptDigits = (style.keptDigits.toNat : Int) := by
  have hkept := digits_add_five_le hdigits
  omega

theorem toRat_binary (style : DisplayStyle) (v : Rat) : (style.binary v).toRat =
    keep divHalfEven 2 (Settings.bitsOfDigits style.keptDigits)
      (keep (· / ·) 2 (Settings.bitsOfDigits style.keptDigits + 4) v) := by
  obtain ⟨bits, hbits⟩ : ∃ bits, bits = Settings.bitsOfDigits style.keptDigits := ⟨_, rfl⟩
  have hcut : (Binary.ofRat .toZero (bits + 4) v).toRat = keep (· / ·) 2 (bits + 4) v := Binary.toRat_ofRat rfl v
  have hround : ((Binary.ofRat .toZero (bits + 4) v).round .nearest bits).toRat =
      keep divHalfEven 2 bits (Binary.ofRat .toZero (bits + 4) v).toRat :=
    Binary.toRat_round rfl (hbits ▸ bitsOfDigits_pos _) _
  rw [binary, ← hbits, hround, hcut]

theorem natAbs_binary_le (style : DisplayStyle) (v : Rat) :
    (style.binary v).mantissa.natAbs ≤ 2 ^ Settings.bitsOfDigits style.keptDigits :=
  Double.natAbs_round_le _ _

theorem binary_mono (style : DisplayStyle) (h : v ≤ w) : (style.binary v).toRat ≤ (style.binary w).toRat := by
  rw [toRat_binary, toRat_binary]
  exact monotone_keep isCut_divHalfEven (by norm_num) (bitsOfDigits_pos _)
    (monotone_keep isCut_div (by norm_num) (by omega) h)

theorem toRat_binary_neg (style : DisplayStyle) (v : Rat) : (style.binary (-v)).toRat = -(style.binary v).toRat := by
  rw [toRat_binary, toRat_binary, keep_neg isCut_div, keep_neg isCut_divHalfEven]

/-! ### Working values -/

theorem bits_lt (hdigits : 1 ≤ style.digits) :
    Settings.bitsOfDigits style.keptDigits < 4 * style.keptDigits.toNat + 152 := by
  have hle := bitsOfDigits_le style.keptDigits.toNat
  rw [← keptDigits_eq hdigits] at hle
  omega

theorem expansion_binary_mono (hdigits : 1 ≤ style.digits) (h : (style.binary v).toRat ≤ (style.binary w).toRat) :
    Decimal.expansion style.keptDigits.toNat (style.binary v) ≤ Decimal.expansion style.keptDigits.toNat (style.binary w) :=
  Decimal.expansion_le (bitsOfDigits_pos _) (bits_lt hdigits) (natAbs_binary_le style v) (natAbs_binary_le style w) h

theorem expansion_binary_neg (hdigits : 1 ≤ style.digits) (v : Rat) :
    Decimal.expansion style.keptDigits.toNat (style.binary (-v)) =
      -Decimal.expansion style.keptDigits.toNat (style.binary v) := by
  have hrat : (style.binary (-v)).toRat = (style.binary v).neg.toRat := by rw [toRat_binary_neg, Binary.toRat_neg]
  have hfew : (style.binary v).neg.mantissa.natAbs ≤ 2 ^ Settings.bitsOfDigits style.keptDigits := by
    simpa [Binary.neg] using natAbs_binary_le style v
  rw [← Decimal.expansion_neg]
  exact le_antisymm
    (Decimal.expansion_le (bitsOfDigits_pos _) (bits_lt hdigits) (natAbs_binary_le style _) hfew hrat.le)
    (Decimal.expansion_le (bitsOfDigits_pos _) (bits_lt hdigits) hfew (natAbs_binary_le style _) hrat.ge)

theorem value_working (hdigits : 1 ≤ style.digits) (v : Rat) : (style.working v).value =
    keep divHalfUp 10 style.keptDigits.toNat (Decimal.expansion style.keptDigits.toNat (style.binary v)) := by
  have hkept := digits_add_five_le hdigits
  exact Decimal.value_ofBinary (by omega) _

theorem value_shown (hdigits : 1 ≤ style.digits) (v : Rat) :
    (style.shown v).value = keep divHalfUp 10 style.digits.toNat (style.working v).value := by
  rw [shown_eq]
  exact Decimal.value_round (by omega) _

/-- Greater numbers have greater working values. -/
theorem working_mono (hdigits : 1 ≤ style.digits) (h : v ≤ w) : (style.working v).value ≤ (style.working w).value := by
  have hkept := digits_add_five_le hdigits
  rw [value_working hdigits, value_working hdigits]
  exact monotone_keep isCut_divHalfUp (by norm_num) (by omega) (expansion_binary_mono hdigits (binary_mono style h))

theorem working_neg (hdigits : 1 ≤ style.digits) (v : Rat) :
    (style.working (-v)).value = -(style.working v).value := by
  rw [value_working hdigits, value_working hdigits, expansion_binary_neg hdigits, keep_neg isCut_divHalfUp]

/-- Greater numbers are not shown as smaller ones. -/
theorem shown_mono (hdigits : 1 ≤ style.digits) (h : v ≤ w) : (style.shown v).value ≤ (style.shown w).value := by
  rw [value_shown hdigits, value_shown hdigits]
  exact monotone_keep isCut_divHalfUp (by norm_num) (by omega) (working_mono hdigits h)

theorem shown_neg (hdigits : 1 ≤ style.digits) (v : Rat) : (style.shown (-v)).value = -(style.shown v).value := by
  rw [value_shown hdigits, value_shown hdigits, working_neg hdigits, keep_neg isCut_divHalfUp]

theorem working_pos (hdigits : 1 ≤ style.digits) (hv : 0 < v) : 0 < (style.working v).value := by
  have hkept := digits_add_five_le hdigits
  have hbinary : 0 < (style.binary v).toRat := by
    rw [toRat_binary]
    exact keep_pos isCut_divHalfEven (by norm_num) (bitsOfDigits_pos _)
      (keep_pos isCut_div (by norm_num) (by omega) hv)
  rw [value_working hdigits]
  exact keep_pos isCut_divHalfUp (by norm_num) (by omega) (Decimal.expansion_pos _ hbinary)

theorem shown_pos (hdigits : 1 ≤ style.digits) (hv : 0 < v) : 0 < (style.shown v).value := by
  rw [value_shown hdigits]
  exact keep_pos isCut_divHalfUp (by norm_num) (by omega) (working_pos hdigits hv)

/-! ### Numbers with few digits -/

/-- How near a rational is to the expansion of its binary number. -/
theorem abs_expansion_sub_le (hdigits : 1 ≤ style.digits) (v : Rat) :
    |Decimal.expansion style.keptDigits.toNat (style.binary v) - v| ≤
      61 / 20 / 2 ^ Settings.bitsOfDigits style.keptDigits * |v| := by
  have hbinary := Binary.abs_toRat_sub_le (Settings.bitsOfDigits style.keptDigits) v
  have hexpansion := Decimal.abs_expansion_sub_le style.keptDigits.toNat (style.binary v)
  have hlt := bits_lt hdigits
  have hle := bitsOfDigits_le style.keptDigits.toNat
  rw [← keptDigits_eq hdigits] at hle
  change |(style.binary v).toRat - v| ≤ _ at hbinary
  generalize (style.binary v).toRat = b at hbinary hexpansion
  generalize Decimal.expansion style.keptDigits.toNat (style.binary v) = e at hexpansion ⊢
  generalize Settings.bitsOfDigits style.keptDigits = bits at hbinary hle ⊢
  have hpower : (1 : ℚ) ≤ 2 ^ bits := one_le_pow₀ (by norm_num)
  have hsmall : (1 : ℚ) / 2 ^ (4 * style.keptDigits.toNat + 152) ≤ 1 / 80 / 2 ^ bits := by
    rw [div_div, div_le_div_iff₀ (by positivity) (by positivity), one_mul, one_mul]
    calc (80 : ℚ) * 2 ^ bits ≤ 2 ^ 7 * 2 ^ bits := by gcongr; norm_num
      _ = 2 ^ (7 + bits) := (pow_add _ _ _).symm
      _ ≤ 2 ^ (4 * style.keptDigits.toNat + 152) := pow_le_pow_right₀ (by norm_num) (by omega)
  have hsize : |b| ≤ 4 * |v| := by
    have hthree : 3 / 2 ^ bits * |v| ≤ 3 * |v| :=
      mul_le_mul_of_nonneg_right (div_le_self (by norm_num) hpower) (abs_nonneg v)
    linarith [abs_sub_abs_le_abs_sub b v]
  have hrest : 1 / 2 ^ (4 * style.keptDigits.toNat + 152) * |b| ≤ 1 / 20 / 2 ^ bits * |v| := by
    calc _ ≤ 1 / 80 / 2 ^ bits * (4 * |v|) := mul_le_mul hsmall hsize (abs_nonneg b) (by positivity)
      _ = 1 / 20 / 2 ^ bits * |v| := by ring
  calc |e - v| ≤ |e - b| + |b - v| := abs_sub_le e b v
    _ ≤ 1 / 20 / 2 ^ bits * |v| + 3 / 2 ^ bits * |v| := add_le_add (hexpansion.trans hrest) hbinary
    _ = 61 / 20 / 2 ^ bits * |v| := by ring

theorem value_working_zero (hdigits : 1 ≤ style.digits) : (style.working 0).value = 0 := by
  have hneg := working_neg hdigits 0
  rw [neg_zero] at hneg
  linarith

/-- A decimal with fewer digits than are kept is its own working value. -/
theorem value_working_of_short (hdigits : 1 ≤ style.digits) {x : Decimal} {short : Nat}
    (hshort : short < style.keptDigits.toNat) (hx : x.coefficient < 10 ^ short) :
    (style.working x.value).value = x.value := by
  by_cases hzero : x.coefficient = 0
  · rw [Decimal.value_eq_zero.mpr hzero, value_working_zero hdigits]
  · have hbits := seven_mul_ten_pow_le style.keptDigits.toNat
    have hnear := abs_expansion_sub_le hdigits x.value
    rw [← keptDigits_eq hdigits] at hbits
    rw [value_working hdigits, ← Decimal.value_ofRat (by omega)]
    generalize Settings.bitsOfDigits style.keptDigits = bits at hbits hnear
    generalize style.keptDigits.toNat = kept at *
    have hten : (10 : ℚ) ≤ 10 ^ kept := le_self_pow₀ (by norm_num) (by omega)
    have hpower : 7 * (10 : ℚ) ^ kept ≤ 2 ^ bits := by exact_mod_cast hbits
    have herror : 61 / 20 / (2 : ℚ) ^ bits * 10 ^ kept ≤ 61 / 140 := by
      rw [div_mul_eq_mul_div, div_le_iff₀ (by positivity)]
      linarith
    have hless : 61 / 20 / (2 : ℚ) ^ bits ≤ 61 / 1400 := by
      have hmul : 61 / 20 / (2 : ℚ) ^ bits * 10 ≤ 61 / 20 / 2 ^ bits * 10 ^ kept :=
        mul_le_mul_of_nonneg_left hten (by positivity)
      linarith
    exact Decimal.value_ofRat_of_near hshort hzero hx (by linarith) (by positivity) hnear

end DisplayStyle

end Reckoner.Expression
