import Reckoner.Proofs.Expression.ShownLiterals
import Reckoner.Proofs.Expression.WorkingValues

/-!
# Shown numbers are read back

With the standard settings, the text of a rational evaluates to the decimal number that it denotes, and that number has
the same text, as long as the exponent of its leading digit lets the text be read exactly.
-/

namespace Reckoner.Expression

open Reckoner.Algebra Reckoner.Document Reckoner.Number Reckoner.Text

/-- How numbers are displayed with the standard settings. -/
def standardStyle : DisplayStyle := .ofSettings .standard

theorem displayValue_standard (v : Rat) : standardStyle.displayValue (.number (.rational v)) =
    standardStyle.write (standardStyle.shown v) := DisplayStyle.displayValue_rational (by decide) v

theorem coefficient_shown_lt (v : Rat) : (standardStyle.shown v).coefficient < 10 ^ 12 :=
  Decimal.coefficient_round_lt (by decide) _

/-! ### Showing a shown number again -/

/-- A decimal with as few digits as are shown is shown as itself. -/
theorem value_shown {x : Decimal} (hshort : x.coefficient < 10 ^ 12) :
    (standardStyle.shown x.value).value = x.value := by
  have hkept : (standardStyle.working x.value).value = x.value :=
    DisplayStyle.value_working_of_short (by decide) (by decide : 12 < standardStyle.keptDigits.toNat) hshort
  have hdigits : standardStyle.digits.toNat = 12 := by decide
  rw [DisplayStyle.shown_eq, hdigits, Decimal.value_round_of_short (by decide) hshort hkept, hkept]

/-! ### Texts -/

theorem maxExactDigits_standard : Settings.standard.maxExactDigits = (10000 : Nat) := rfl

/-- The text of a decimal with few digits evaluates to its value. -/
theorem evaluateExpression_write {x : Decimal} (hshort : x.coefficient < 10 ^ 12)
    (hexponent : x.leadingExponent.natAbs ≤ 10000) :
    evaluateExpression .standard [] (standardStyle.autoNotation.write x) =
      ⟨.ok (.numeric (.rational x.value)), [], none⟩ := by
  by_cases hx : x.coefficient = 0
  · have hliteral : IsLiteral ['0'] .whole := .whole ⟨by decide, by decide, by decide⟩
    have hvalue : MakesExactly ['0'] .whole 0 := by
      simpa [Nat.ofDigitChars_cons] using MakesExactly.whole ⟨by decide, by decide, by decide⟩ (by decide : ['0'].length ≤ maxDigits)
    rw [AutoNotation.write, if_pos hx, Decimal.value_eq_zero.mpr hx]
    exact evaluateExpression_signed false hliteral.readsAsOne hvalue leavesReserved_nil (by decide +kernel)
  · have hleading : x.normal.leadingExponent = x.leadingExponent :=
      Decimal.leadingExponent_eq (coefficient_normal hx) (Decimal.value_normal x)
    have hdigits : x.normal.digits.length ≤ 12 :=
      length_toString_le (by decide) ((Decimal.coefficient_normal_le x).trans_lt hshort)
    have hsize : (toString x.normal.leadingExponent.natAbs).toList.length ≤ 5 := by
      rw [hleading]
      exact length_toString_le (by decide) (hexponent.trans_lt (by decide))
    have hlength : 2 * x.normal.digits.length + standardStyle.autoNotation.lower.natAbs +
        standardStyle.autoNotation.upper.natAbs ≤ maxDigits :=
      (Nat.add_le_add_right (Nat.add_le_add_right (Nat.mul_le_mul_left 2 hdigits) _) _).trans (by decide)
    obtain ⟨maker, numeral, hwrite, hliteral, hvalue⟩ :=
      exists_makesExactly_write hx hlength (hsize.trans (by decide))
    have hlarge : (x.normal.leadingExponent.natAbs : Int) ≤ Settings.standard.maxExactDigits := by
      rw [hleading, maxExactDigits_standard]
      exact Int.ofNat_le.mpr hexponent
    have hexact : readsExactly .standard (standardStyle.autoNotation.write x) = .ok true :=
      readsExactly_write hx (hsize.trans (by decide)) hlarge (by decide)
    have hsigned : signedRat x.normal.negative x.normal.magnitude = x.value := by
      rw [← Decimal.value_normal]
      cases hnegative : x.normal.negative <;> simp [signedRat, Decimal.value, Decimal.magnitude, hnegative]
    rw [hwrite] at hexact ⊢
    rw [evaluateExpression_signed _ hliteral.readsAsOne hvalue leavesReserved_nil hexact, hsigned]

/-- The text of a rational evaluates to the number that it denotes, and that number has the same text. -/
theorem shown_number_is_read_back (v : Rat)
    (h : ((standardStyle.shown v).leadingExponent.natAbs : Int) ≤ Settings.standard.maxExactDigits) :
    ∃ text w, standardStyle.displayValue (.number (.rational v)) = .ok text ∧ numeralValue? text.toList = some w ∧
      evaluateExpression .standard [] text.toList = ⟨.ok (.numeric (.rational w)), [], none⟩ ∧
      standardStyle.displayValue (.number (.rational w)) = .ok text := by
  have hexponent : (standardStyle.shown v).leadingExponent.natAbs ≤ 10000 := by
    rw [maxExactDigits_standard] at h
    exact Int.ofNat_le.mp h
  have hshort := coefficient_shown_lt v
  rw [displayValue_standard]
  generalize standardStyle.shown v = x at hexponent hshort ⊢
  have hwrite {y : Decimal} (hvalue : y.value = x.value) :
      standardStyle.write y = .ok (String.ofList (standardStyle.autoNotation.write x)) := by
    have hrange : ¬ (y.coefficient ≠ 0 ∧ displayExponentLimit < y.leadingExponent.natAbs) := by
      rintro ⟨hy, hlarge⟩
      rw [Decimal.leadingExponent_eq hy hvalue] at hlarge
      exact absurd (hlarge.trans_le hexponent) (by decide)
    rw [DisplayStyle.write, if_neg hrange, AutoNotation.write_eq_of_value_eq _ hvalue]
  refine ⟨_, x.value, hwrite rfl, ?_, ?_, ?_⟩
  · rw [String.toList_ofList]
    exact numeralValue?_write _ x
  · rw [String.toList_ofList]
    exact evaluateExpression_write hshort hexponent
  · rw [displayValue_standard]
    exact hwrite (value_shown hshort)

theorem two_thirds_is_read_back :
    ((standardStyle.shown (2 / 3)).leadingExponent.natAbs : Int) ≤ Settings.standard.maxExactDigits ∧
      ∃ text w, standardStyle.displayValue (.number (.rational (2 / 3))) = .ok text ∧
        numeralValue? text.toList = some w ∧
        evaluateExpression .standard [] text.toList = ⟨.ok (.numeric (.rational w)), [], none⟩ ∧
        standardStyle.displayValue (.number (.rational w)) = .ok text :=
  have hexponent : ((standardStyle.shown (2 / 3)).leadingExponent.natAbs : Int) ≤ Settings.standard.maxExactDigits := by
    decide +kernel
  ⟨hexponent, shown_number_is_read_back (2 / 3) hexponent⟩

end Reckoner.Expression
