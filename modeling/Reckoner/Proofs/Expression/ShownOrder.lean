import Reckoner.Proofs.Expression.ShownValues
import Reckoner.Proofs.Expression.WorkingValues

/-!
# Order and signs of displayed numbers

Of two rationals, the text of the greater one does not denote the smaller number, whatever notation either of them is
written in.  The text of a negative rational is that of its opposite behind a minus sign.  A rational has a text unless
it is too large or too small for the exponents that can be displayed.
-/

namespace Reckoner.Number

variable {style : AutoNotation} {x y : Decimal}

/-! ### Signs of decimals -/

theorem Decimal.normal_withSign (negative : Bool) (hx : x.coefficient ≠ 0) :
    Decimal.normal { x with negative } = { x.normal with negative } := by
  rw [Decimal.normal, if_neg hx, Decimal.normal, if_neg hx]
  fun_induction Decimal.normal.go x with
  | case1 x hmore ih =>
    rw [Decimal.normal.go, if_pos hmore]
    exact ih (by dsimp only; omega)
  | case2 x hless => rw [Decimal.normal.go, if_neg hless]

theorem Decimal.not_negative_of_value_pos (hx : 0 < x.value) : x.negative = false := by
  have hsize : (0 : ℚ) ≤ x.coefficient * 10 ^ x.exponent := by positivity
  cases hsign : x.negative with
  | false => rfl
  | true =>
    rw [Decimal.value, hsign, if_pos rfl] at hx
    linarith

theorem Decimal.value_withSign (hx : 0 < x.value) : Decimal.value { x with negative := true } = -x.value := by
  rw [Decimal.value, Decimal.value, Decimal.not_negative_of_value_pos hx]
  simp

/-- The numeral of the opposite of a positive number is the numeral of the number behind a minus sign. -/
theorem AutoNotation.write_neg (style : AutoNotation) (hx : 0 < x.value) (h : y.value = -x.value) :
    style.write y = '-' :: style.write x := by
  have hcoefficient : x.coefficient ≠ 0 := fun hzero => hx.ne' (Decimal.value_eq_zero.mpr hzero)
  have hnormal : x.normal.negative = false :=
    (Expression.negative_normal hcoefficient).trans (Decimal.not_negative_of_value_pos hx)
  rw [AutoNotation.write_eq_of_value_eq style (h.trans (Decimal.value_withSign hx).symm), AutoNotation.write,
    AutoNotation.write, if_neg hcoefficient, if_neg hcoefficient, Decimal.normal_withSign true hcoefficient]
  simp only [hnormal, if_true, Bool.false_eq_true, if_false]
  rfl

end Reckoner.Number

namespace Reckoner.Expression

open Reckoner.Algebra Reckoner.Number

namespace DisplayStyle

variable {style : DisplayStyle} {v w : ℚ}

/-! ### Signs of shown numbers -/

/-- A decimal with as few digits as are shown is shown as itself. -/
theorem value_shown_of_short (hdigits : 1 ≤ style.digits) {x : Decimal} (hx : x.coefficient < 10 ^ style.digits.toNat) :
    (style.shown x.value).value = x.value := by
  have hkept := digits_add_five_le hdigits
  have hworking := value_working_of_short hdigits (by omega) hx
  rw [shown_eq, Decimal.value_round_of_short (by omega) hx hworking, hworking]

theorem value_shown_zero (hdigits : 1 ≤ style.digits) : (style.shown 0).value = 0 := by
  have hneg := shown_neg hdigits 0
  rw [neg_zero] at hneg
  linarith

theorem value_shown_abs (hdigits : 1 ≤ style.digits) (v : ℚ) : (style.shown |v|).value = |(style.shown v).value| := by
  have hzero := value_shown_zero hdigits
  rcases le_total 0 v with hv | hv
  · have hle := shown_mono hdigits hv
    rw [abs_of_nonneg hv, abs_of_nonneg (by linarith)]
  · have hle := shown_mono hdigits hv
    rw [abs_of_nonpos hv, abs_of_nonpos (by linarith), shown_neg hdigits]

/-! ### Range -/

theorem value_shown_ten_zpow (hdigits : 1 ≤ style.digits) (e : Int) : (style.shown (10 ^ e)).value = 10 ^ e := by
  have hvalue : Decimal.value ⟨false, 1, e⟩ = 10 ^ e := by simp [Decimal.value]
  have hfew : 1 < 10 ^ style.digits.toNat := Nat.one_lt_pow (by omega) (by norm_num)
  have hshown := value_shown_of_short (x := ⟨false, 1, e⟩) hdigits hfew
  rwa [hvalue] at hshown

/-- A decimal is written unless its leading digit is out of range. -/
theorem write_of_bounds {x : Decimal} (h : x.value = 0 ∨
      (10 : ℚ) ^ (-(displayExponentLimit : Int)) ≤ |x.value| ∧ |x.value| ≤ 10 ^ (displayExponentLimit : Int)) :
    style.write x = .ok (String.ofList (style.autoNotation.write x)) := by
  have hrange : ¬ (x.coefficient ≠ 0 ∧ displayExponentLimit < x.leadingExponent.natAbs) := by
    rintro ⟨hx, hlarge⟩
    obtain ⟨hleast, hmost⟩ := h.resolve_left fun hzero => hx (Decimal.value_eq_zero.mp hzero)
    obtain ⟨hlower, hupper⟩ := Decimal.leadingExponent_bounds hx
    have hten : (1 : ℚ) < 10 := by norm_num
    have hle := (zpow_le_zpow_iff_right₀ hten).mp (hlower.trans hmost)
    have hlt := (zpow_lt_zpow_iff_right₀ hten).mp (hleast.trans_lt hupper)
    omega
  rw [write, if_neg hrange]

/-- Zero and every rational that is neither too large nor too small are displayed. -/
theorem exists_text (hdigits : 1 ≤ style.digits) (h : v = 0 ∨
      (10 : ℚ) ^ (-(displayExponentLimit : Int)) ≤ |v| ∧ |v| ≤ 10 ^ (displayExponentLimit : Int)) :
    ∃ text, style.displayValue (.number (.rational v)) = .ok text := by
  refine ⟨_, (displayValue_rational hdigits v).trans (write_of_bounds ?_)⟩
  rcases h with rfl | ⟨hleast, hmost⟩
  · exact .inl (value_shown_zero hdigits)
  · have hlower := shown_mono hdigits hleast
    have hupper := shown_mono hdigits hmost
    rw [value_shown_ten_zpow hdigits, value_shown_abs hdigits] at hlower hupper
    exact .inr ⟨hlower, hupper⟩

/-! ### Texts -/

theorem toList_eq_of_write {x : Decimal} {text : String} (h : style.write x = .ok text) :
    text.toList = style.autoNotation.write x := by
  unfold write at h
  split at h
  · cases h
  · cases h
    exact String.toList_ofList

theorem numeralValue?_of_displayValue (hdigits : 1 ≤ style.digits) {text : String}
    (h : style.displayValue (.number (.rational v)) = .ok text) :
    numeralValue? text.toList = some (style.shown v).value := by
  rw [displayValue_rational hdigits] at h
  rw [toList_eq_of_write h]
  exact numeralValue?_write _ _

/-- The text of the opposite of a positive number is the text of the number behind a minus sign. -/
theorem write_neg {x y : Decimal} (hx : 0 < x.value) (h : y.value = -x.value) :
    style.write y = (style.write x).map ("-" ++ ·) := by
  have hxzero : x.coefficient ≠ 0 := fun hzero => hx.ne' (Decimal.value_eq_zero.mpr hzero)
  have hyzero : y.coefficient ≠ 0 := by
    intro hzero
    rw [Decimal.value_eq_zero.mpr hzero] at h
    linarith
  have hopposite : y.value = Decimal.value { x with negative := true } := h.trans (Decimal.value_withSign hx).symm
  have hleading : y.leadingExponent = x.leadingExponent := (Decimal.leadingExponent_eq hyzero hopposite).trans rfl
  simp only [write, hxzero, hyzero, hleading, ne_eq, not_false_eq_true, true_and]
  split_ifs
  · rfl
  · rw [AutoNotation.write_neg _ hx h]
    apply congrArg Except.ok
    apply String.toList_injective
    simp

end DisplayStyle

/-- Displayed numbers keep the order and the signs of rationals, and all rationals in range are displayed. -/
theorem display_keeps_order_and_signs (style : DisplayStyle) (hdigits : 1 ≤ style.digits) :
    (∀ (v w : ℚ) (s t : String), v ≤ w → style.displayValue (.number (.rational v)) = .ok s →
      style.displayValue (.number (.rational w)) = .ok t →
        ∃ a b, numeralValue? s.toList = some a ∧ numeralValue? t.toList = some b ∧ a ≤ b) ∧
    (∀ v : ℚ, 0 < v → style.displayValue (.number (.rational (-v))) =
      (style.displayValue (.number (.rational v))).map ("-" ++ ·)) ∧
    (∀ v : ℚ, v = 0 ∨ (10 : ℚ) ^ (-(displayExponentLimit : Int)) ≤ |v| ∧ |v| ≤ 10 ^ (displayExponentLimit : Int) →
      ∃ text, style.displayValue (.number (.rational v)) = .ok text) := by
  refine ⟨fun v w s t h hs ht => ?_, fun v hv => ?_, fun v => DisplayStyle.exists_text hdigits⟩
  · exact ⟨_, _, DisplayStyle.numeralValue?_of_displayValue hdigits hs, DisplayStyle.numeralValue?_of_displayValue hdigits ht,
      DisplayStyle.shown_mono hdigits h⟩
  · rw [DisplayStyle.displayValue_rational hdigits, DisplayStyle.displayValue_rational hdigits]
    exact DisplayStyle.write_neg (DisplayStyle.shown_pos hdigits hv) (DisplayStyle.shown_neg hdigits v)

theorem thirds_are_in_order :
    let style : DisplayStyle := .ofSettings .standard
    1 ≤ style.digits ∧ style.displayValue (.number (.rational (1 / 3))) = .ok "0.333333333333" ∧
      style.displayValue (.number (.rational (-(1 / 3)))) = .ok "-0.333333333333" ∧
      ∃ a b, numeralValue? "-0.333333333333".toList = some a ∧ numeralValue? "0.333333333333".toList = some b ∧ a ≤ b := by
  intro style
  have hdigits : 1 ≤ style.digits := by decide
  obtain ⟨horder, hsigns, -⟩ := display_keeps_order_and_signs style hdigits
  have hthird : style.displayValue (.number (.rational (1 / 3))) = .ok "0.333333333333" := by decide +kernel
  have hopposite : style.displayValue (.number (.rational (-(1 / 3)))) = .ok "-0.333333333333" := by
    rw [hsigns (1 / 3) (by norm_num), hthird]
    rfl
  exact ⟨hdigits, hthird, hopposite, horder _ _ _ _ (by norm_num) hopposite hthird⟩

end Reckoner.Expression
