import Reckoner.Proofs.Expression.SignedLiterals

/-!
# Written numbers as exact literals

The numeral that a decimal number is written as makes a literal of exactly its value, in fixed and in scientific
notation, unless it has more digits than are read.
-/

namespace Reckoner.Expression

open Reckoner.Algebra Reckoner.Document Reckoner.Number Reckoner.Text

/-! ### Literals of decimals -/

section Decimals

variable {x : Decimal}

/-- A decimal in scientific notation, as a numeral with its parts. -/
theorem exists_numeral_scientific (x : Decimal) : ∃ n : Numeral, n.text = x.scientific ∧ n.IsAscii ∧ n.whole.length = 1 ∧
    n.decimals.length + 1 = x.digits.length ∧ n.exponentDigits = (toString x.leadingExponent.natAbs).toList ∧
      n.value = x.magnitude := by
  have hall := isDigits_digits x
  have hsize := isDigits_toString x.leadingExponent.natAbs
  obtain ⟨d, run, hd⟩ := List.exists_cons_of_ne_nil hall.1
  have hone : ∀ c ∈ [d], isAsciiDigit c := by simpa using hall.2 d (by simp [hd])
  have hrun : ∀ c ∈ run, isAsciiDigit c := fun c hc => hall.2 c (hd ▸ List.mem_cons_of_mem d hc)
  have hdigits {digits : List Char} (h : ∀ c ∈ digits, isAsciiDigit c) : ∀ c ∈ digits, isDigit c :=
    fun c hc => isDigit_of_isAsciiDigit (h c hc)
  obtain ⟨fraction, hfraction, hpoint⟩ : ∃ fraction : Option (List Char), fraction.getD [] = run ∧
      mantissa (d :: run) = [d] ++ pointText fraction := by
    cases run with
    | nil => exact ⟨none, rfl, rfl⟩
    | cons e more => exact ⟨some (e :: more), rfl, rfl⟩
  obtain ⟨sign, hsign⟩ : ∃ sign, sign = if x.leadingExponent < 0 then '-' else '+' := ⟨_, rfl⟩
  have hmarks : [sign] = [] ∨ [sign] = ['+'] ∨ [sign] = ['-'] := by
    right
    rw [hsign]
    split_ifs <;> decide
  obtain ⟨e, he⟩ : ∃ e : NumeralExponent, e.letter = 'e' ∧ e.sign = [sign] ∧
      e.digits = (toString x.leadingExponent.natAbs).toList :=
    ⟨⟨'e', [sign], _, .inl rfl, hmarks, hdigits hsize.2, hsize.1⟩, rfl, rfl, rfl⟩
  obtain ⟨hletter, hesign, hedigits⟩ := he
  have hpower : e.value = x.leadingExponent := by
    rw [NumeralExponent.value, hesign, hedigits, decimalValue_eq_ofDigitChars hsize.2, ofDigitChars_toString, hsign]
    split_ifs with hnegative hminus hminus
    · omega
    · exact absurd rfl hminus
    · exact absurd hminus (by decide)
    · omega
  obtain ⟨n, hwhole, hnfraction, hnexponent⟩ : ∃ n : Numeral, n.whole = [d] ∧ n.fraction = fraction ∧ n.exponent = some e :=
    ⟨⟨[d], fraction, some e, hdigits hone, hfraction ▸ hdigits hrun, by simp⟩, rfl, rfl, rfl⟩
  have hdecimals : n.decimals = run := by rw [Numeral.decimals, hnfraction, hfraction]
  have hexponent : n.exponentDigits = (toString x.leadingExponent.natAbs).toList := by
    rw [Numeral.exponentDigits, hnexponent, Option.elim_some, hedigits]
  refine ⟨n, ?_, ⟨hwhole ▸ hone, hdecimals ▸ hrun, hexponent ▸ hsize.2⟩, by simp [hwhole], ?_, hexponent, ?_⟩
  · rw [scientific_eq, hd, hpoint, ← hsign, Numeral.text, Numeral.exponentText, hwhole, hnfraction, hnexponent,
      Option.elim_some, NumeralExponent.text, hletter, hesign, hedigits, List.singleton_append]
    rfl
  · rw [hdecimals, hd, List.length_cons]
  · have hplaces : x.leadingExponent - run.length = x.exponent := by
      simp only [Decimal.leadingExponent, hd, List.length_cons, Nat.add_sub_cancel]
      omega
    rw [Numeral.value, Numeral.power, hdecimals, hwhole, hnexponent, Option.elim_some, hpower, hplaces,
      List.singleton_append, ← hd, decimalValue_eq_ofDigitChars hall.2, ofDigitChars_digits, Decimal.magnitude]

theorem makesExactly_scientific (hdigits : x.digits.length ≤ maxDigits)
    (hsize : (toString x.leadingExponent.natAbs).toList.length ≤ maxDigits) :
    MakesExactly x.scientific .decimal x.magnitude := by
  obtain ⟨n, htext, hascii, hwhole, hdecimals, hexponent, hvalue⟩ := exists_numeral_scientific x
  have hlimit : 1 ≤ maxDigits := by decide
  rw [← htext, ← hvalue]
  exact .decimal (rationalOfText?_numeral ⟨hascii, by omega, by omega, by rwa [hexponent]⟩)

theorem exists_makesExactly_fixed (hx : x.coefficient ≠ 0) (hlength : x.digits.length + x.exponent.natAbs ≤ maxDigits) :
    ∃ maker, IsLiteral x.fixed maker ∧ MakesExactly x.fixed maker x.magnitude := by
  have hdigits := isDigits_digits x
  unfold Decimal.fixed
  split_ifs with hexponent
  · have hinteger : IsInteger (x.digits ++ List.replicate x.exponent.toNat '0') :=
      isInteger_append_digits hx fun c hc => isAsciiDigit_of_mem_replicate hc
    have hwhole : IsWhole (x.digits ++ List.replicate x.exponent.toNat '0') :=
      ⟨hinteger.1.1, hinteger.1.2, fun hhead => by simp [hinteger.2 hhead]⟩
    have hvalue : x.magnitude = Nat.ofDigitChars 10 (x.digits ++ List.replicate x.exponent.toNat '0') 0 := by
      obtain ⟨k, hk⟩ := Int.eq_ofNat_of_zero_le hexponent
      rw [Nat.ofDigitChars_append, Nat.ofDigitChars_replicate_zero, ofDigitChars_digits, Decimal.magnitude, hk,
        Int.toNat_natCast, zpow_natCast]
      push_cast
      rw [mul_comm]
    refine ⟨.whole, .whole hwhole, ?_⟩
    rw [hvalue]
    refine .whole hwhole ?_
    rw [List.length_append, List.length_replicate]
    omega
  · obtain ⟨front, fraction, heq, hfront, hfraction, hscale, hpadded⟩ :=
      @exists_pointed_digits x hx (-x.exponent).toNat (by omega)
    have hpositive : 0 < x.digits.length := List.length_pos_of_ne_nil hdigits.1
    have hsum := congrArg List.length hpadded
    rw [List.length_append, List.length_append, List.length_replicate] at hsum
    have hrational := rationalOfText?_pointed hfront.1.2 hfraction.2 (.inl hfront.1.1) (by omega) (by omega)
    rw [heq]
    refine ⟨.decimal, .pointed hfront.1 hfraction, .decimal (hrational.trans (congrArg some ?_))⟩
    rw [hpadded, ofDigitChars_padded, hscale, Decimal.magnitude, div_eq_mul_inv, ← zpow_natCast, ← zpow_neg, Int.toNat_of_nonneg (by omega),
      neg_neg]

/-- A written number is a literal with a sign, which makes the value of the number. -/
theorem exists_makesExactly_write {style : AutoNotation} (hx : x.coefficient ≠ 0)
    (hlength : 2 * x.normal.digits.length + style.lower.natAbs + style.upper.natAbs ≤ maxDigits)
    (hsize : (toString x.normal.leadingExponent.natAbs).toList.length ≤ maxDigits) :
    ∃ maker numeral, style.write x = signText x.normal.negative ++ numeral ∧ IsLiteral numeral maker ∧
      MakesExactly numeral maker x.normal.magnitude := by
  have hnormal := coefficient_normal hx
  have hpositive : 0 < x.normal.digits.length := List.length_pos_of_ne_nil (isDigits_digits x.normal).1
  have hbody : ∃ maker, IsLiteral (if style.lower ≤ x.normal.leadingExponent ∧ x.normal.leadingExponent < style.upper
      then x.normal.fixed else x.normal.scientific) maker ∧
        MakesExactly (if style.lower ≤ x.normal.leadingExponent ∧ x.normal.leadingExponent < style.upper
          then x.normal.fixed else x.normal.scientific) maker x.normal.magnitude := by
    split_ifs with hrange
    · refine exists_makesExactly_fixed hnormal ?_
      unfold Decimal.leadingExponent at hrange
      omega
    · exact ⟨.decimal, .scientific (isScientific_scientific _), makesExactly_scientific (by omega) hsize⟩
  obtain ⟨maker, hliteral, hvalue⟩ := hbody
  refine ⟨maker, _, ?_, hliteral, hvalue⟩
  rw [AutoNotation.write, if_neg hx]
  cases hnegative : x.normal.negative <;> simp [signText, hnegative]

/-! ### Exponents of written numbers -/

theorem exponentOf_toString (n : Nat) : exponentOf (toString n).toList = n := by
  rw [exponentOf_eq_decimalValue, decimalValue_eq_ofDigitChars (isDigits_toString n).2, ofDigitChars_toString]

/-- The only exponent that is found in a written number is that of its leading digit, in scientific notation. -/
theorem literalExponents_write {style : AutoNotation} (hx : x.coefficient ≠ 0) :
    literalExponents false 0 (style.write x) =
      if style.lower ≤ x.normal.leadingExponent ∧ x.normal.leadingExponent < style.upper then []
      else [(toString x.normal.leadingExponent.natAbs).toList] := by
  have hwrite : style.write x = signText x.normal.negative ++
      if style.lower ≤ x.normal.leadingExponent ∧ x.normal.leadingExponent < style.upper then x.normal.fixed
      else x.normal.scientific := by
    rw [AutoNotation.write, if_neg hx]
    cases hnegative : x.normal.negative <;> simp [signText, hnegative]
  have hsign : ∀ c ∈ signText x.normal.negative, isDigit c = false := by cases x.normal.negative <;> decide
  have hinside : insideAfter false (signText x.normal.negative) = false := by cases x.normal.negative <;> decide
  rw [hwrite, literalExponents_of_not_digits hsign, hinside]
  split_ifs with hrange
  · apply literalExponents_eq_nil
    intro c hc
    rcases mem_of_isFixed (isFixed_fixed _) hc with hdigit | rfl
    · constructor <;>
      · rintro rfl
        exact absurd hdigit (by decide)
    · decide
  · obtain ⟨n, htext, hascii, hwhole, -, hexponent, -⟩ := exists_numeral_scientific x.normal
    have hsome : ¬ (n.whole = [] ∨ n.exponentDigits = []) := by
      rintro (hnone | hnone)
      · simp [hnone] at hwhole
      · rw [hexponent] at hnone
        exact (isDigits_toString _).1 hnone
    rw [← htext, literalExponents_text hascii, if_neg hsome, hexponent]

/-- A written number whose exponent is not too large is read exactly. -/
theorem readsExactly_write {style : AutoNotation} {settings : Settings} (hx : x.coefficient ≠ 0)
    (hsize : (toString x.normal.leadingExponent.natAbs).toList.length ≤ integerLimit)
    (hexact : (x.normal.leadingExponent.natAbs : Int) ≤ settings.maxExactDigits)
    (hlargest : settings.maxExactDigits ≤ settings.maxDecimalExponent) :
    readsExactly settings (style.write x) = .ok true := by
  have hread : ∀ field ∈ literalExponents false 0 (style.write x), field.length ≤ integerLimit := by
    rw [literalExponents_write hx]
    split_ifs
    · simp
    · simpa using hsize
  have hlarge : ((((literalExponents false 0 (style.write x)).map exponentOf).foldl max 0 : Nat) : Int) ≤
      settings.maxExactDigits := by
    rw [literalExponents_write hx]
    split_ifs
    · simp only [List.map_nil, List.foldl_nil]
      omega
    · rw [List.map_singleton, exponentOf_toString, List.foldl_cons, List.foldl_nil, Nat.zero_max]
      exact hexact
  rw [readsExactly_of_found rfl hread, if_neg (by omega), decide_eq_true hlarge]

end Decimals

end Reckoner.Expression
