import Reckoner.Proofs.Expression.ShownForms

/-!
# Nearest displayed numbers

A displayed rational is rounded twice, to its working value and to the digits that are shown.  The number that is shown
is the nearest one with so few digits, unless the first rounding goes up to a tie.  Then the second rounding goes up
again, although the rational is nearer to the number below.
-/

namespace Reckoner.Expression

open Reckoner.Algebra Reckoner.Number

namespace DisplayStyle

variable {style : DisplayStyle} {v m : ℚ} {text : String}

/-! ### Ties -/

/-- A tie between shown numbers is its own working value. -/
theorem value_working_of_tie (hdigits : 1 ≤ style.digits) (hm : 0 < m) (h : IsTie style.digits.toNat m) :
    (style.working m).value = m := by
  have hkept := digits_add_five_le hdigits
  obtain ⟨n, e, hn, hsize⟩ := h.exists_digits
  have hvalue : Decimal.value ⟨false, n, e⟩ = m := by
    rw [abs_of_pos hm] at hsize
    simp [Decimal.value, hsize]
  have hworking := value_working_of_short (x := ⟨false, n, e⟩) hdigits (by omega) hn
  rwa [hvalue] at hworking

/-- A positive rational is shown as the nearest number, unless its working value is a tie that lies above it. -/
theorem isHalfUp_shown_iff_of_pos (hdigits : 1 ≤ style.digits) (hv : 0 < v) :
    IsHalfUp style.digits.toNat v (style.shown v).value ↔
      ¬ (IsTie style.digits.toNat (style.working v).value ∧ v < (style.working v).value) := by
  have hsome : 1 ≤ style.digits.toNat := by omega
  have hpositive := working_pos hdigits hv
  rw [isHalfUp_iff hsome, value_shown hdigits]
  constructor
  · rintro heq ⟨⟨c, e, hlower, hupper, hsize⟩, hless⟩
    rw [abs_of_pos hpositive] at hsize
    have hunit : (0 : ℚ) < 10 ^ e := by positivity
    have hdown := keep_le_of_lt_tie hsome hlower hupper hv (hsize ▸ hless)
    rw [← heq, hsize, keep_tie hsome hlower hupper] at hdown
    linarith
  · intro hno
    rcases lt_trichotomy (keep divHalfUp 10 style.digits.toNat (style.working v).value)
      (keep divHalfUp 10 style.digits.toNat v) with hlt | heq | hgt
    · obtain ⟨m, htie, hless, hle⟩ := exists_tie_between hsome hpositive hlt
      have hmono := working_mono hdigits hle
      rw [value_working_of_tie hdigits (hpositive.trans hless) htie] at hmono
      linarith
    · exact heq
    · obtain ⟨m, htie, hless, hle⟩ := exists_tie_between hsome hv hgt
      have hmono := working_mono hdigits hless.le
      rw [value_working_of_tie hdigits (hv.trans hless) htie] at hmono
      have hequal : (style.working v).value = m := le_antisymm hmono hle
      rw [hequal] at hno
      exact absurd ⟨htie, hless⟩ hno

theorem isHalfUp_shown_iff (hdigits : 1 ≤ style.digits) (v : ℚ) :
    IsHalfUp style.digits.toNat v (style.shown v).value ↔
      ¬ (IsTie style.digits.toNat (style.working v).value ∧ |v| < |(style.working v).value|) := by
  rcases lt_trichotomy v 0 with hv | rfl | hv
  · have hopposite := isHalfUp_shown_iff_of_pos hdigits (neg_pos.mpr hv)
    have hpositive := working_pos hdigits (neg_pos.mpr hv)
    rw [shown_neg hdigits, working_neg hdigits, isHalfUp_neg, isTie_neg] at hopposite
    rw [working_neg hdigits] at hpositive
    rwa [abs_of_neg hv, abs_of_neg (by linarith)]
  · rw [value_shown_zero hdigits, value_working_zero hdigits]
    refine iff_of_true ?_ fun h => lt_irrefl _ h.2
    have hzero := isHalfUp_keep (by omega : 1 ≤ style.digits.toNat) 0
    rwa [keep_zero isCut_divHalfUp] at hzero
  · rw [abs_of_pos hv, abs_of_pos (working_pos hdigits hv)]
    exact isHalfUp_shown_iff_of_pos hdigits hv

/-! ### Distances -/

/-- How near a rational is to its working value. -/
theorem abs_working_sub_le (hdigits : 1 ≤ style.digits) (v : ℚ) :
    |(style.working v).value - v| ≤ 10 ^ (1 - style.keptDigits) * |v| := by
  have hbits := seven_mul_ten_pow_le style.keptDigits.toNat
  have hexpansion := abs_expansion_sub_le hdigits v
  have hlast := @abs_keep_sub_le style.keptDigits.toNat
    (Decimal.expansion style.keptDigits.toNat (style.binary v))
  rw [← keptDigits_eq hdigits] at hbits
  rw [← value_working hdigits] at hlast
  rw [keptDigits_eq hdigits]
  generalize Decimal.expansion style.keptDigits.toNat (style.binary v) = e at hexpansion hlast
  generalize (style.working v).value = w at hlast ⊢
  generalize Settings.bitsOfDigits style.keptDigits = bits at hbits hexpansion
  generalize style.keptDigits.toNat = kept at *
  obtain ⟨unit, hunit⟩ : ∃ unit : ℚ, unit = 1 / 10 ^ kept := ⟨_, rfl⟩
  have hpositive : 0 < unit := hunit ▸ by positivity
  have hone : unit ≤ 1 := by
    rw [hunit, div_le_one (by positivity)]
    exact one_le_pow₀ (by norm_num)
  have hplace : (10 : ℚ) ^ (1 - (kept : Int)) = 10 * unit := by
    rw [hunit, zpow_sub₀ (by norm_num), zpow_one, zpow_natCast]
    ring
  have herror : 61 / 20 / (2 : ℚ) ^ bits ≤ 61 / 140 * unit := by
    have hpower : 7 * (10 : ℚ) ^ kept ≤ 2 ^ bits := by exact_mod_cast hbits
    rw [hunit, div_mul_div_comm, mul_one, div_div, div_le_div_iff₀ (by positivity) (by positivity)]
    linarith
  have hnear : |e - v| ≤ 61 / 140 * unit * |v| :=
    hexpansion.trans (mul_le_mul_of_nonneg_right herror (abs_nonneg v))
  have hsize : |e| ≤ 3 / 2 * |v| := by
    have hfraction : 61 / 140 * unit * |v| ≤ 1 / 2 * |v| := mul_le_mul_of_nonneg_right (by linarith) (abs_nonneg v)
    linarith [abs_sub_abs_le_abs_sub e v]
  rw [hplace] at hlast ⊢
  calc |w - v| ≤ |w - e| + |e - v| := abs_sub_le w e v
    _ ≤ 10 * unit / 2 * (3 / 2 * |v|) + 61 / 140 * unit * |v| :=
        add_le_add (hlast.trans (mul_le_mul_of_nonneg_left hsize (by linarith))) hnear
    _ = (15 / 2 + 61 / 140) * (unit * |v|) := by ring
    _ ≤ 10 * (unit * |v|) := mul_le_mul_of_nonneg_right (by norm_num) (by positivity)
    _ = 10 * unit * |v| := by ring

/-- A rational that has no tie close above it is shown as the nearest number. -/
theorem isHalfUp_shown_of_no_tie (hdigits : 1 ≤ style.digits)
    (h : ∀ m, IsTie style.digits.toNat m → |v| < m → (1 + 10 ^ (1 - style.keptDigits)) * |v| < m) :
    IsHalfUp style.digits.toNat v (style.shown v).value := by
  rw [isHalfUp_shown_iff hdigits]
  rintro ⟨htie, hless⟩
  have hnear := abs_working_sub_le hdigits v
  have hfar := h _ (isTie_abs.mpr htie) hless
  linarith [abs_sub_abs_le_abs_sub (style.working v).value v]

end DisplayStyle

/-- The text of a rational denotes the nearest number with the digits that are shown, halves going away from zero, if and
    only if its working value is not a tie of greater size.  That is so if there is no tie within the working precision
    above the size of the rational.  All rationals in range have a text. -/
theorem display_is_nearest_iff (style : DisplayStyle) (hdigits : 1 ≤ style.digits) :
    (∀ (v : ℚ) (text : String), style.displayValue (.number (.rational v)) = .ok text →
      ∃ a, numeralValue? text.toList = some a ∧
        (IsHalfUp style.digits.toNat v a ↔
          ¬ (IsTie style.digits.toNat (style.working v).value ∧ |v| < |(style.working v).value|)) ∧
        ((∀ m, IsTie style.digits.toNat m → |v| < m → (1 + 10 ^ (1 - style.keptDigits)) * |v| < m) →
          IsHalfUp style.digits.toNat v a)) ∧
    (∀ v : ℚ, v = 0 ∨ (10 : ℚ) ^ (-(displayExponentLimit : Int)) ≤ |v| ∧ |v| ≤ 10 ^ (displayExponentLimit : Int) →
      ∃ text, style.displayValue (.number (.rational v)) = .ok text) := by
  refine ⟨fun v text h => ?_, fun v => DisplayStyle.exists_text hdigits⟩
  exact ⟨_, DisplayStyle.numeralValue?_of_displayValue hdigits h, DisplayStyle.isHalfUp_shown_iff hdigits v,
    DisplayStyle.isHalfUp_shown_of_no_tie hdigits⟩

theorem third_is_nearest :
    let style : DisplayStyle := .ofSettings .standard
    1 ≤ style.digits ∧ style.displayValue (.number (.rational (1 / 3))) = .ok "0.333333333333" ∧
      ∃ a, numeralValue? "0.333333333333".toList = some a ∧ IsHalfUp 12 (1 / 3) a := by
  intro style
  have hdigits : 1 ≤ style.digits := by decide
  have htext : style.displayValue (.number (.rational (1 / 3))) = .ok "0.333333333333" := by decide +kernel
  obtain ⟨a, hvalue, hnearest, -⟩ := (display_is_nearest_iff style hdigits).1 _ _ htext
  have hworking : style.working (1 / 3) = ⟨false, (10 ^ 64 - 1) / 3, -64⟩ := by decide +kernel
  refine ⟨hdigits, htext, a, hvalue, hnearest.mpr fun ⟨_, hless⟩ => ?_⟩
  rw [hworking, Decimal.value] at hless
  norm_num at hless

/-- A number just below a tie is shown as the number above it, although it is nearer to the number below. -/
theorem near_tie_is_rounded_twice :
    (DisplayStyle.ofSettings .standard).displayValue (.number (.rational (1 + 5 / 10 ^ 12 - 1 / 10 ^ 100))) =
        .ok "1.00000000001" ∧
      numeralValue? "1.00000000001".toList = some (1 + 1 / 10 ^ 11) ∧
      IsHalfUp 12 (1 + 5 / 10 ^ 12 - 1 / 10 ^ 100) 1 ∧ ¬ IsHalfUp 12 (1 + 5 / 10 ^ 12 - 1 / 10 ^ 100) (1 + 1 / 10 ^ 11) := by
  have hone : IsHalfUp 12 (1 + 5 / 10 ^ 12 - 1 / 10 ^ 100) 1 := by
    have hdown := @keep_le_of_lt_tie 12 (10 ^ 11) (1 + 5 / 10 ^ 12 - 1 / 10 ^ 100) (-11) (by norm_num) (by norm_num)
      (by norm_num) (by norm_num) (by norm_num)
    have hup := @monotone_keep divHalfUp 10 12 isCut_divHalfUp (by norm_num) (by norm_num) 1
      (1 + 5 / 10 ^ 12 - 1 / 10 ^ 100) (by norm_num)
    rw [keep_of_short (m := 1) (e := 0) isCut_divHalfUp (by norm_num) (by norm_num) (by norm_num)] at hup
    rw [isHalfUp_iff (by norm_num)]
    refine le_antisymm hup (hdown.trans_eq ?_)
    norm_num
  have hvalue := numeralValue?_write ⟨-20, 20, 12⟩ ⟨false, 100000000001, -11⟩
  refine ⟨by decide +kernel, ?_, hone, fun hother => ?_⟩
  · have htext : AutoNotation.write ⟨-20, 20, 12⟩ ⟨false, 100000000001, -11⟩ = "1.00000000001".toList := by decide +kernel
    rw [← htext, hvalue, Decimal.value]
    norm_num
  · have hequal := hone.unique hother
    norm_num at hequal

end Reckoner.Expression
