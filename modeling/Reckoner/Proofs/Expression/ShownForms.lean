import Mathlib.Data.List.DropRight
import Reckoner.Proofs.Expression.ShownOrder
import Reckoner.Proofs.Number.Nearest

/-!
# Forms of displayed numbers

The text of a rational is the canonical numeral of its working value, rounded half up to the digits that are shown.
The exponent of the rounded number decides whether that is fixed or scientific notation, neither has needless zeros,
and two texts are the same only if they denote the same number.
-/

namespace Reckoner.Number

open Reckoner.Text

/-! ### Canonical numerals -/

/-- Fixed notation of a number that is not zero, without needless zeros and without a point that has no digits on one
    of its sides. -/
inductive IsCanonicalFixed : List Char → Prop
  | whole {front : List Char} (hfront : IsInteger front) (hzero : front ≠ ['0']) : IsCanonicalFixed front
  | pointed {front fraction : List Char} (hfront : IsInteger front) (hfraction : IsDigits fraction)
      (hlast : fraction.getLast? ≠ some '0') : IsCanonicalFixed (front ++ '.' :: fraction)

/-- Scientific notation without needless zeros: a digit that is not zero, behind the point the others if there are any,
    and an exponent with its sign. -/
inductive IsCanonicalScientific : List Char → Prop
  | mk {d : Char} {run exponent : List Char} (negative : Bool) (hd : isAsciiDigit d) (hzero : d ≠ '0')
      (hrun : ∀ c ∈ run, isAsciiDigit c) (hlast : run.getLast? ≠ some '0') (hexponent : IsInteger exponent)
      (hsign : negative = true → exponent ≠ ['0']) :
      IsCanonicalScientific (mantissa (d :: run) ++ 'e' :: (if negative then '-' else '+') :: exponent)

/-- The digits of a numeral in front of its exponent, without the zeros at both ends. -/
def significantDigits (s : List Char) : List Char :=
  (((s.takeWhile (· ≠ 'e')).filter isAsciiDigit).dropWhile (· = '0')).rdropWhile (· = '0')

/-- What auto notation makes of a number: zero is one digit, and other numbers are in fixed or in scientific notation,
    by the exponent of their leading digit. -/
structure IsAutoText (style : AutoNotation) (r : ℚ) (text : List Char) : Prop where
  value : numeralValue? text = some r
  zero (h : r = 0) : text = ['0']
  form (h : r ≠ 0) : ∃ body, text = (if r < 0 then ['-'] else []) ++ body ∧
    (IsCanonicalFixed body ↔ style.lower ≤ Int.log 10 |r| ∧ Int.log 10 |r| < style.upper) ∧
    (IsCanonicalScientific body ↔ ¬ (style.lower ≤ Int.log 10 |r| ∧ Int.log 10 |r| < style.upper)) ∧
    (significantDigits body).length ≤ style.precision.toNat

section Forms

variable {s front fraction digits : List Char}

theorem not_mem_pointed (hfront : IsDigits front) (hfraction : IsDigits fraction) : 'e' ∉ front ++ '.' :: fraction := by
  rw [List.mem_append, List.mem_cons]
  rintro (hmem | heq | hmem)
  · exact Expression.not_mem_digits hfront.2 (by decide) hmem
  · cases heq
  · exact Expression.not_mem_digits hfraction.2 (by decide) hmem

/-- The two notations have no numeral in common. -/
theorem IsCanonicalFixed.not_scientific (h : IsCanonicalFixed s) : ¬ IsCanonicalScientific s := by
  have hletter : 'e' ∉ s := by
    cases h with
    | whole hfront => exact Expression.not_mem_digits hfront.1.2 (by decide)
    | pointed hfront hfraction => exact not_mem_pointed hfront.1 hfraction
  intro hscientific
  cases hscientific with
  | mk => exact hletter (by simp)

/-! ### Significant digits -/

theorem filter_digits (h : ∀ c ∈ s, isAsciiDigit c) : s.filter isAsciiDigit = s := List.filter_eq_self.mpr h

theorem takeWhile_of_all_ne (h : 'e' ∉ s) : s.takeWhile (· ≠ 'e') = s :=
  List.takeWhile_eq_self_iff.mpr fun _ hc => decide_eq_true fun heq => h (heq ▸ hc)

theorem takeWhile_of_not_mem (h : 'e' ∉ s) (rest : List Char) : (s ++ 'e' :: rest).takeWhile (· ≠ 'e') = s := by
  rw [List.takeWhile_append_of_pos]
  · simp
  · intro c hc
    exact decide_eq_true fun heq => h (heq ▸ hc)

theorem length_trimmed_le (front back : Nat) (digits : List Char) :
    (((List.replicate front '0' ++ (digits ++ List.replicate back '0')).dropWhile (· = '0')).rdropWhile
      (· = '0')).length ≤ digits.length := by
  have hzeros {n : Nat} : ∀ c ∈ List.replicate n '0', decide (c = '0') = true := by simp
  rw [List.dropWhile_append_of_pos hzeros]
  obtain ⟨dropped, hdropped⟩ := List.dropWhile_suffix (l := digits ++ List.replicate back '0') (· = '0')
  generalize (digits ++ List.replicate back '0').dropWhile _ = kept at hdropped ⊢
  rcases List.append_eq_append_iff.mp hdropped with ⟨a, hdigits, rfl⟩ | ⟨a, -, hback⟩
  · have hlength := congrArg List.length hdigits
    rw [List.length_append] at hlength
    rw [List.rdropWhile, List.reverse_append, List.reverse_replicate, List.dropWhile_append_of_pos hzeros,
      List.length_reverse]
    exact ((List.dropWhile_suffix _).length_le.trans_eq List.length_reverse).trans (by omega)
  · have hnone : kept.rdropWhile (· = '0') = [] := by
      rw [List.rdropWhile_eq_nil_iff]
      intro c hc
      exact hzeros c (hback ▸ List.mem_append_right a hc)
    rw [hnone]
    exact Nat.zero_le _

theorem length_significant_le {front back : Nat}
    (h : (s.takeWhile (· ≠ 'e')).filter isAsciiDigit = List.replicate front '0' ++ (digits ++ List.replicate back '0')) :
    (significantDigits s).length ≤ digits.length := by
  rw [significantDigits, h]
  exact length_trimmed_le front back digits

/-- A digit behind which the value is a multiple of ten is a zero. -/
theorem ofDigitChars_mod_ten (h : s.getLast? = some '0') : Nat.ofDigitChars 10 s 0 % 10 = 0 := by
  obtain ⟨front, rfl⟩ := List.getLast?_eq_some_iff.mp h
  rw [Nat.ofDigitChars_append, Nat.ofDigitChars_cons, Nat.ofDigitChars_nil]
  exact Nat.mul_mod_right 10 _

end Forms

/-! ### Written numbers -/

section Written

variable {x : Decimal} {style : AutoNotation}

theorem getLast?_digits (hlast : x.coefficient % 10 ≠ 0) : x.digits.getLast? ≠ some '0' := by
  intro hzero
  rw [← ofDigitChars_digits x] at hlast
  exact hlast (ofDigitChars_mod_ten hzero)

theorem isCanonicalFixed_fixed (hlast : x.coefficient % 10 ≠ 0) : IsCanonicalFixed x.fixed := by
  have hx : x.coefficient ≠ 0 := fun hzero => hlast (by rw [hzero])
  unfold Decimal.fixed
  split_ifs with hexponent
  · refine .whole (isInteger_append_digits hx fun c hc => isAsciiDigit_of_mem_replicate hc) fun hzero => ?_
    obtain ⟨d, run, hd⟩ := List.exists_cons_of_ne_nil (isDigits_digits x).1
    rw [hd, List.cons_append] at hzero
    exact Expression.head?_digits hx (by rw [hd, (List.cons.inj hzero).1]; rfl)
  · obtain ⟨front, fraction, heq, hfront, hfraction, -, hdigits⟩ :=
      @exists_pointed_digits x hx (-x.exponent).toNat (by omega)
    rw [heq]
    refine .pointed hfront hfraction fun hzero => ?_
    have hend : (front ++ fraction).getLast? = some '0' := by
      rw [List.getLast?_append_of_ne_nil _ hfraction.1, hzero]
    have hmultiple := ofDigitChars_mod_ten hend
    rw [hdigits, ofDigitChars_padded] at hmultiple
    exact hlast hmultiple

theorem isInteger_toString (n : Nat) : IsInteger (toString n).toList := by
  refine ⟨isDigits_toString n, fun hhead => ?_⟩
  have hdigits : (toString n).toList = Expression.digitsOfNat n := Nat.toList_repr
  rw [hdigits] at hhead ⊢
  rw [Expression.head?_digitsOfNat hhead]
  rfl

theorem isCanonicalScientific_scientific (hlast : x.coefficient % 10 ≠ 0) : IsCanonicalScientific x.scientific := by
  have hx : x.coefficient ≠ 0 := fun hzero => hlast (by rw [hzero])
  have hdigits := isDigits_digits x
  have hend := getLast?_digits hlast
  have hhead := Expression.head?_digits hx
  rw [scientific_eq]
  obtain ⟨d, run, hd⟩ := List.exists_cons_of_ne_nil hdigits.1
  rw [hd] at hdigits hend hhead ⊢
  have hrun : run.getLast? ≠ some '0' := fun hzero => hend (by rw [List.getLast?_cons, hzero]; rfl)
  have hsign : decide (x.leadingExponent < 0) = true → (toString x.leadingExponent.natAbs).toList ≠ ['0'] := by
    intro hneg hzero
    have hvalue := ofDigitChars_toString x.leadingExponent.natAbs
    rw [hzero] at hvalue
    have hnone : x.leadingExponent.natAbs = 0 := hvalue.symm
    simp only [decide_eq_true_eq] at hneg
    omega
  have hcanonical := IsCanonicalScientific.mk _ (hdigits.2 d List.mem_cons_self) (fun heq => hhead (by rw [heq]; rfl))
    (fun c hc => hdigits.2 c (List.mem_cons_of_mem d hc)) hrun (isInteger_toString _) hsign
  simpa only [decide_eq_true_eq] using hcanonical

theorem length_significant_fixed (hx : x.coefficient ≠ 0) : (significantDigits x.fixed).length ≤ x.digits.length := by
  have hdigits := isDigits_digits x
  unfold Decimal.fixed
  split_ifs with hexponent
  · have hall : ∀ c ∈ x.digits ++ List.replicate x.exponent.toNat '0', isAsciiDigit c := fun c hc =>
      (List.mem_append.mp hc).elim (hdigits.2 c) isAsciiDigit_of_mem_replicate
    refine @length_significant_le _ _ 0 x.exponent.toNat ?_
    rw [takeWhile_of_all_ne (Expression.not_mem_digits hall (by decide)), filter_digits hall]
    rfl
  · obtain ⟨front, fraction, heq, hfront, hfraction, -, hpadded⟩ :=
      @exists_pointed_digits x hx (-x.exponent).toNat (by omega)
    refine @length_significant_le _ _ ((-x.exponent).toNat + 1 - x.digits.length) 0 ?_
    rw [heq, takeWhile_of_all_ne (not_mem_pointed hfront.1 hfraction), List.filter_append, filter_digits hfront.1.2,
      List.filter_cons_of_neg (by decide), filter_digits hfraction.2, hpadded]
    simp

theorem filter_mantissa (h : ∀ c ∈ s, isAsciiDigit c) : (mantissa s).filter isAsciiDigit = s := by
  unfold mantissa
  split
  · rfl
  · exact filter_digits h
  · rename_i d rest _
    rw [List.filter_cons_of_pos (h d List.mem_cons_self), List.filter_cons_of_neg (by decide),
      filter_digits fun c hc => h c (List.mem_cons_of_mem d hc)]

theorem not_mem_mantissa (h : ∀ c ∈ s, isAsciiDigit c) : 'e' ∉ mantissa s := by
  have hletter := Expression.not_mem_digits h (by decide : isAsciiDigit 'e' = false)
  unfold mantissa
  split
  · simp
  · exact hletter
  · rw [List.mem_cons, not_or] at hletter
    simpa using hletter

theorem length_significant_scientific (x : Decimal) : (significantDigits x.scientific).length ≤ x.digits.length := by
  have hdigits := isDigits_digits x
  refine @length_significant_le _ _ 0 0 ?_
  rw [scientific_eq, takeWhile_of_not_mem (not_mem_mantissa hdigits.2), filter_mantissa hdigits.2]
  simp

theorem Decimal.value_lt_zero (hx : x.coefficient ≠ 0) : x.value < 0 ↔ x.negative = true := by
  have hsize : (0 : ℚ) < x.coefficient * 10 ^ x.exponent := by positivity
  cases hnegative : x.negative with
  | false => simpa [Decimal.value, hnegative] using hsize.le
  | true => simpa [Decimal.value, hnegative] using hsize

/-- A number with few digits is written in auto notation. -/
theorem isAutoText_write (hshort : x.coefficient < 10 ^ style.precision.toNat) (hprecision : 1 ≤ style.precision) :
    IsAutoText style x.value (style.write x) where
  value := numeralValue?_write style x
  zero hzero := by rw [AutoNotation.write, if_pos (Decimal.value_eq_zero.mp hzero)]
  form hvalue := by
    have hx : x.coefficient ≠ 0 := fun hzero => hvalue (Decimal.value_eq_zero.mpr hzero)
    have hnormal := Expression.coefficient_normal hx
    have hlast := Decimal.coefficient_normal_mod hx
    have hlog : Int.log 10 |x.value| = x.normal.leadingExponent := by
      obtain ⟨hlower, hupper⟩ := Decimal.leadingExponent_bounds hnormal
      rw [Decimal.value_normal] at hlower hupper
      exact log_eq (by norm_num) (by exact_mod_cast hlower) (by exact_mod_cast hupper)
    have hfew : x.normal.digits.length ≤ style.precision.toNat :=
      length_toString_le (by omega) ((Decimal.coefficient_normal_le x).trans_lt hshort)
    have hsign : x.value < 0 ↔ x.normal.negative = true := by
      rw [Expression.negative_normal hx]
      exact Decimal.value_lt_zero hx
    refine ⟨if style.lower ≤ x.normal.leadingExponent ∧ x.normal.leadingExponent < style.upper
        then x.normal.fixed else x.normal.scientific, ?_, ?_⟩
    · rw [AutoNotation.write, if_neg hx]
      dsimp only
      simp only [hsign]
      cases x.normal.negative <;> rfl
    · rw [hlog]
      have hfixed := isCanonicalFixed_fixed hlast
      have hscientific := isCanonicalScientific_scientific hlast
      split_ifs with hrange
      · exact ⟨iff_of_true hfixed hrange, iff_of_false hfixed.not_scientific (not_not.mpr hrange),
          (length_significant_fixed hnormal).trans hfew⟩
      · exact ⟨iff_of_false (fun hcontra => hcontra.not_scientific hscientific) hrange, iff_of_true hscientific hrange,
          (length_significant_scientific _).trans hfew⟩

end Written

end Reckoner.Number

namespace Reckoner.Expression

open Reckoner.Algebra Reckoner.Number

namespace DisplayStyle

variable {style : DisplayStyle} {v w r q : ℚ} {s t text : String}

/-- What is shown of a rational is its working value rounded half up. -/
theorem isHalfUp_shown (hdigits : 1 ≤ style.digits) (v : ℚ) :
    IsHalfUp style.digits.toNat (style.working v).value (style.shown v).value := by
  rw [value_shown hdigits]
  exact isHalfUp_keep (by omega) _

theorem isAutoText_of_displayValue (hdigits : 1 ≤ style.digits)
    (h : style.displayValue (.number (.rational v)) = .ok text) :
    IsAutoText style.autoNotation (style.shown v).value text.toList := by
  rw [displayValue_rational hdigits] at h
  rw [toList_eq_of_write h]
  refine isAutoText_write ?_ hdigits
  rw [shown_eq]
  exact Decimal.coefficient_round_lt (by omega : 1 ≤ style.digits.toNat) _

theorem text_eq_iff (hdigits : 1 ≤ style.digits) (hs : style.displayValue (.number (.rational v)) = .ok s)
    (ht : style.displayValue (.number (.rational w)) = .ok t) :
    s = t ↔ (style.shown v).value = (style.shown w).value := by
  constructor
  · rintro rfl
    have hvalue := (numeralValue?_of_displayValue hdigits hs).symm.trans (numeralValue?_of_displayValue hdigits ht)
    exact Option.some.inj hvalue
  · intro hvalue
    rw [displayValue_rational hdigits] at hs ht
    apply String.toList_injective
    rw [toList_eq_of_write hs, toList_eq_of_write ht, AutoNotation.write_eq_of_value_eq _ hvalue]

end DisplayStyle

/-- A rational is displayed as the canonical numeral of its working value rounded half up, so two of them have the same
    text only if they are rounded to the same number, and all rationals in range are displayed. -/
theorem display_is_canonical (style : DisplayStyle) (hdigits : 1 ≤ style.digits) :
    (∀ (v : ℚ) (text : String), style.displayValue (.number (.rational v)) = .ok text →
      ∃ r, IsHalfUp style.digits.toNat (style.working v).value r ∧ IsAutoText style.autoNotation r text.toList) ∧
    (∀ (v w r q : ℚ) (s t : String), style.displayValue (.number (.rational v)) = .ok s →
      style.displayValue (.number (.rational w)) = .ok t → IsHalfUp style.digits.toNat (style.working v).value r →
        IsHalfUp style.digits.toNat (style.working w).value q → (s = t ↔ r = q)) ∧
    (∀ v : ℚ, v = 0 ∨ (10 : ℚ) ^ (-(displayExponentLimit : Int)) ≤ |v| ∧ |v| ≤ 10 ^ (displayExponentLimit : Int) →
      ∃ text, style.displayValue (.number (.rational v)) = .ok text) := by
  refine ⟨fun v text h => ?_, fun v w r q s t hs ht hr hq => ?_, fun v => DisplayStyle.exists_text hdigits⟩
  · exact ⟨_, DisplayStyle.isHalfUp_shown hdigits v, DisplayStyle.isAutoText_of_displayValue hdigits h⟩
  · rw [hr.unique (DisplayStyle.isHalfUp_shown hdigits v), hq.unique (DisplayStyle.isHalfUp_shown hdigits w)]
    exact DisplayStyle.text_eq_iff hdigits hs ht

/-- Rounding carries a number over the bound of fixed notation. -/
theorem carried_number_is_scientific :
    let style : DisplayStyle := .ofSettings .standard
    1 ≤ style.digits ∧ style.displayValue (.number (.rational 99999999999999999999)) = .ok "1e+20" ∧
      ∃ r, IsHalfUp style.digits.toNat (style.working 99999999999999999999).value r ∧
        IsAutoText style.autoNotation r "1e+20".toList := by
  intro style
  have hdigits : 1 ≤ style.digits := by decide
  have htext : style.displayValue (.number (.rational 99999999999999999999)) = .ok "1e+20" := by decide +kernel
  exact ⟨hdigits, htext, (display_is_canonical style hdigits).1 _ _ htext⟩

end Reckoner.Expression
