import Reckoner.Proofs.Expression.LiteralTexts
import Reckoner.Proofs.Number.Numerals

/-!
# Displayed numbers as literals

The numeral of a displayed number, without its sign, is read as one literal wherever no character goes on with it.  In
front of its point or its end it has no needless zero, and its sign is that of the number.
-/

namespace Reckoner.Expression

open Reckoner.Algebra Reckoner.Number Reckoner.Text

/-! ### Numerals of one literal -/

/-- A numeral that is read as one literal, with the maker of that literal. -/
inductive IsLiteral : List Char → Maker → Prop
  | whole {digits : List Char} (h : IsWhole digits) : IsLiteral digits .whole
  | pointed {front fraction : List Char} (hfront : IsDigits front) (hfraction : IsDigits fraction) :
      IsLiteral (front ++ '.' :: fraction) .decimal
  | scientific {s : List Char} (h : IsScientific s) : IsLiteral s .decimal

/-- Scientific notation, taken apart at the letter of its exponent. -/
theorem exists_parts_of_isScientific {s : List Char} (h : IsScientific s) : ∃ d fraction sign exponent,
    s = d :: fraction ++ 'e' :: sign :: exponent ∧ isAsciiDigit d ∧
      (fraction = [] ∨ ∃ run, fraction = '.' :: run ∧ ∀ c ∈ run, isAsciiDigit c) ∧ (sign = '+' ∨ sign = '-') ∧
        IsDigits exponent := by
  cases h with
  | whole hd hsign hexponent => exact ⟨_, [], _, _, rfl, hd, .inl rfl, hsign, hexponent⟩
  | pointed hd hfraction hsign hexponent =>
    exact ⟨_, _, _, _, rfl, hd, .inr ⟨_, rfl, hfraction.2⟩, hsign, hexponent⟩

namespace IsLiteral

variable {numeral s : List Char} {maker : Maker}

theorem exists_first (h : IsLiteral numeral maker) : ∃ c rest, numeral = c :: rest ∧ isAsciiDigit c := by
  have hdigits {front : List Char} (hfront : IsDigits front) (rest : List Char) :
      ∃ c more, front ++ rest = c :: more ∧ isAsciiDigit c := by
    cases front with
    | nil => exact absurd rfl hfront.1
    | cons c more => exact ⟨c, more ++ rest, rfl, hfront.2 c List.mem_cons_self⟩
  cases h with
  | whole h => simpa using hdigits ⟨h.ne_nil, h.areDigits⟩ []
  | pointed hfront => exact hdigits hfront _
  | scientific h =>
    obtain ⟨d, fraction, sign, exponent, rfl, hd, -⟩ := exists_parts_of_isScientific h
    exact ⟨d, _, rfl, hd⟩

/-- Every literal is a numeral without needless zeros. -/
theorem exists_numeral (h : IsLiteral numeral maker) :
    ∃ n : Numeral, n.text = numeral ∧ n.IsAscii ∧ makerOf n = maker ∧ ¬ HasNeedlessZeros n := by
  have hdigits {digits : List Char} (h : ∀ c ∈ digits, isAsciiDigit c) : ∀ c ∈ digits, isDigit c :=
    fun c hc => isDigit_of_isAsciiDigit (h c hc)
  have hnone : ∀ c ∈ ([] : List Char), isAsciiDigit c := by simp
  cases h with
  | whole h =>
    refine ⟨⟨numeral, none, none, hdigits h.areDigits, by simp, by simpa using h.ne_nil⟩,
      by simp [Numeral.text, Numeral.exponentText, pointText], ⟨h.areDigits, hnone, hnone⟩, rfl, ?_⟩
    rintro ⟨-, -, hfirst, c, hc, hne⟩
    exact hne (h.areZeros hfirst c hc)
  | @pointed front fraction hfront hfraction =>
    refine ⟨⟨front, some fraction, none, hdigits hfront.2, hdigits hfraction.2, by simp [hfront.1]⟩,
      by simp [Numeral.text, Numeral.exponentText, pointText], ⟨hfront.2, hfraction.2, hnone⟩, rfl, ?_⟩
    rintro ⟨hpoint, -⟩
    cases hpoint
  | scientific h =>
    obtain ⟨d, fraction, sign, exponent, rfl, hd, hfraction, hsign, hexponent⟩ := exists_parts_of_isScientific h
    have hone : ∀ c ∈ [d], isAsciiDigit c := by simpa using hd
    obtain ⟨run, hrun, hrunDigits⟩ : ∃ run, pointText run = fraction ∧ ∀ c ∈ run.getD [], isAsciiDigit c := by
      rcases hfraction with rfl | ⟨run, rfl, hrun⟩
      · exact ⟨none, rfl, hnone⟩
      · exact ⟨some run, rfl, hrun⟩
    have hmarks : [sign] = [] ∨ [sign] = ['+'] ∨ [sign] = ['-'] := .inr (by simpa using hsign)
    refine ⟨⟨[d], run, some ⟨'e', [sign], exponent, .inl rfl, hmarks, hdigits hexponent.2, hexponent.1⟩, hdigits hone,
      hdigits hrunDigits, by simp⟩, ?_, ⟨hone, hrunDigits, hexponent.2⟩, if_neg (by simp), ?_⟩
    · simp [Numeral.text, Numeral.exponentText, NumeralExponent.text, hrun]
    · rintro ⟨-, hnone, -⟩
      cases hnone

theorem readsAsOne (h : IsLiteral numeral maker) : ReadsAsOne numeral maker := by
  obtain ⟨n, rfl, hascii, rfl, hzeros⟩ := h.exists_numeral
  exact readsAsOne_numeral hascii hzeros

/-- A literal exponent is found in a numeral that begins outside of words, or none is, and the search goes on behind it. -/
theorem exists_exponents (h : IsLiteral numeral maker) : ∃ found, ∀ s, StopsAt continuesNumeral s → StopsAt isDigit s →
    ∃ after, literalExponents false 0 (numeral ++ s) = found ++ literalExponents after 0 s := by
  have hfixed (hdigits : ∀ c ∈ numeral, isAsciiDigit c ∨ c = '.') : ∃ found, ∀ s, StopsAt continuesNumeral s →
      StopsAt isDigit s → ∃ after, literalExponents false 0 (numeral ++ s) = found ++ literalExponents after 0 s :=
    ⟨[], fun s hs hdigit => literalExponents_numeral hdigits hs hdigit false⟩
  cases h with
  | whole h => exact hfixed fun c hc => .inl (h.areDigits c hc)
  | pointed hfront hfraction => exact hfixed fun c hc => mem_pointed hfront.2 hfraction.2 hc
  | scientific h =>
    obtain ⟨d, fraction, sign, exponent, rfl, hd, hfraction, hsign, hexponent⟩ := exists_parts_of_isScientific h
    refine ⟨[exponent], fun s _ hdigit => ⟨true, ?_⟩⟩
    have hdigits {digits : List Char} (h : ∀ c ∈ digits, isAsciiDigit c) : ∀ c ∈ digits, isDigit c :=
      fun c hc => isDigit_of_isAsciiDigit (h c hc)
    have hhead : ∃ c ∈ exponent.head?, isAsciiDigit c := by
      cases exponent with
      | nil => exact absurd rfl hexponent.1
      | cons c rest => exact ⟨c, rfl, hexponent.2 c List.mem_cons_self⟩
    have hfound := @literalExponents_found d 'e' [] fraction [sign] exponent (by simpa using isDigit_of_isAsciiDigit hd)
      (hfraction.imp_right fun ⟨run, hrun, h⟩ => ⟨run, hrun, hdigits h⟩) (by decide)
      (by rcases hsign with rfl | rfl <;> simp) hhead (hdigits hexponent.2) s hdigit
    simpa using hfound

end IsLiteral

/-! ### Displayed numbers -/

theorem head?_digits {x : Decimal} (hx : x.coefficient ≠ 0) : x.digits.head? ≠ some '0' := by
  have hdigits : x.digits = digitsOfNat x.coefficient := Nat.toList_repr
  rw [hdigits]
  exact fun hhead => hx (head?_digitsOfNat hhead)

theorem exists_literal_fixed {x : Decimal} (hx : x.coefficient ≠ 0) : ∃ maker, IsLiteral x.fixed maker := by
  have hdigits := isDigits_digits x
  unfold Decimal.fixed
  split
  · refine ⟨.whole, .whole ⟨by simp [hdigits.1], fun c hc => ?_, fun hhead => ?_⟩⟩
    · exact (List.mem_append.mp hc).elim (hdigits.2 c) isAsciiDigit_of_mem_replicate
    · obtain ⟨d, rest, hd⟩ := List.exists_cons_of_ne_nil hdigits.1
      rw [hd, List.cons_append, List.head?_cons] at hhead
      exact absurd (by rw [hd, List.head?_cons, hhead]) (head?_digits hx)
  · rename_i hexponent
    obtain ⟨front, fraction, heq, hfront, hfraction⟩ :=
      @exists_pointed _ hdigits (-x.exponent).toNat (by omega)
    exact ⟨.decimal, heq ▸ .pointed hfront hfraction⟩

theorem coefficient_normal {x : Decimal} (hx : x.coefficient ≠ 0) : x.normal.coefficient ≠ 0 := by
  rw [Decimal.normal, if_neg hx]
  fun_induction Decimal.normal.go x with
  | case1 x hzero ih => exact ih (by dsimp only; omega)
  | case2 x hzero => exact hx

theorem negative_normal {x : Decimal} (hx : x.coefficient ≠ 0) : x.normal.negative = x.negative := by
  rw [Decimal.normal, if_neg hx]
  fun_induction Decimal.normal.go x with
  | case1 x hzero ih => exact ih (by dsimp only; omega)
  | case2 x hzero => rfl

/-- A written number is a literal with an optional sign, which is that of the number. -/
theorem exists_literal_write (style : AutoNotation) (x : Decimal) : ∃ negative maker numeral,
    style.write x = (if negative then ['-'] else []) ++ numeral ∧ IsLiteral numeral maker ∧
      (negative = true → x.negative = true) := by
  by_cases hx : x.coefficient = 0
  · exact ⟨false, .whole, ['0'], by simp [AutoNotation.write, hx], .whole ⟨by decide, by decide, by decide⟩, by simp⟩
  · have hbody : ∃ maker, IsLiteral (if style.lower ≤ x.normal.leadingExponent ∧ x.normal.leadingExponent < style.upper
        then x.normal.fixed else x.normal.scientific) maker := by
      split
      · exact exists_literal_fixed (coefficient_normal hx)
      · exact ⟨.decimal, .scientific (isScientific_scientific _)⟩
    obtain ⟨maker, hbody⟩ := hbody
    refine ⟨x.normal.negative, maker, _, ?_, hbody, fun h => (negative_normal hx).symm.trans h⟩
    rw [AutoNotation.write, if_neg hx]
    dsimp only
    by_cases hnegative : x.normal.negative = true
    · rw [if_pos hnegative, if_pos hnegative]
      rfl
    · rw [if_neg hnegative, if_neg hnegative]
      rfl

/-! ### Signs -/

theorem mantissa_ofRat_nonneg {q : Rat} (hq : 0 ≤ q) (direction : Direction) (bits : Nat) :
    0 ≤ (Binary.ofRat direction bits q).mantissa := by
  have hnum : ¬ q.num < 0 := by
    have h := Rat.num_nonneg.mpr hq
    omega
  unfold Binary.ofRat
  rw [if_neg hnum]
  split
  · exact Int.le_refl 0
  · unfold Binary.ofQuotient
    dsimp only
    split_ifs <;> exact Int.natCast_nonneg _

theorem mantissa_round_nonneg {x : Binary} (hx : 0 ≤ x.mantissa) (direction : Direction) (bits : Nat) :
    0 ≤ (x.round direction bits).mantissa := by
  have hnot : ¬ x.mantissa < 0 := by omega
  unfold Binary.round
  simp only [hnot, if_false]
  split
  · exact hx
  · exact Int.natCast_nonneg _

theorem negative_ofBinary {x : Binary} (hx : 0 ≤ x.mantissa) (digits : Nat) :
    (Decimal.ofBinary digits x).negative = false := by
  have hnum : ¬ x.toRat.num < 0 := by
    have hrat : 0 ≤ x.toRat := by
      unfold Binary.toRat
      split
      · exact_mod_cast Int.mul_nonneg hx (Int.natCast_nonneg _)
      · exact Rat.mkRat_nonneg hx _
    have h := Rat.num_nonneg.mpr hrat
    omega
  have hsign : ¬ x.sign < 0 := by
    rw [Binary.sign, Int.sign_neg_iff]
    omega
  unfold Decimal.ofBinary
  split
  · rfl
  · split
    · unfold Decimal.ofRat
      split
      · rfl
      · simp [hnum]
    · simp [hsign]

theorem negative_round (digits : Nat) (x : Decimal) : (x.round digits).negative = x.negative := by
  unfold Decimal.round
  split
  · rfl
  · split <;> rfl

/-- The text of a rational is a literal with an optional sign, and without one if the rational is not negative. -/
theorem exists_literal_display {style : DisplayStyle} {v : Rat} {text : String}
    (h : style.displayValue (.number (.rational v)) = .ok text) : ∃ negative maker numeral,
      text.toList = (if negative then ['-'] else []) ++ numeral ∧ IsLiteral numeral maker ∧ (0 ≤ v → negative = false) := by
  unfold DisplayStyle.displayValue DisplayStyle.display at h
  dsimp only at h
  split at h
  · cases h
  · unfold DisplayStyle.approximate? DisplayStyle.write at h
    dsimp only at h
    split at h
    · cases h
    · obtain rfl := Except.ok.inj h
      generalize hx : (Binary.ofRat .toZero _ v).round .nearest _ = x
      obtain ⟨negative, maker, numeral, hwrite, hliteral, hnegative⟩ :=
        exists_literal_write style.autoNotation (style.decimal x)
      refine ⟨negative, maker, numeral, by rw [String.toList_ofList, hwrite], hliteral, fun hv => ?_⟩
      by_contra hne
      have hpositive : (style.decimal x).negative = false := by
        rw [DisplayStyle.decimal, negative_round, ← hx]
        exact negative_ofBinary (mantissa_round_nonneg (mantissa_ofRat_nonneg hv _ _) _ _) _
      rw [hnegative (by simpa using hne)] at hpositive
      cases hpositive

end Reckoner.Expression
