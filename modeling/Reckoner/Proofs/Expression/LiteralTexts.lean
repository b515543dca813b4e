import Reckoner.Proofs.Expression.LiteralLimits
import Reckoner.Proofs.Number.DecimalNotation

/-!
# Numerals as literals

A decimal numeral is read as one literal wherever no character goes on with it.  The one exception is a whole number
with needless zeros: its zeros are a literal of their own, and the digits behind them are the next one.  The guard of
literals finds the exponent of every numeral that does not begin with its point.
-/

namespace Reckoner.Expression

open Reckoner.Number Reckoner.Text

/-- A text that is read as one literal wherever no character goes on with it, with the maker of that literal. -/
structure ReadsAsOne (numeral : List Char) (maker : Maker) : Prop where
  maker_cases : maker = .whole ∨ maker = .decimal
  mem : ∀ c ∈ numeral, isAsciiDigit c ∨ c ∈ numeralMarks
  exists_first : ∃ c rest, numeral = c :: rest ∧ (isAsciiDigit c ∨ c = '.')
  numeralLength_append : ∀ s, StopsAt continuesNumeral s → numeralLength (numeral ++ s) = numeral.length
  numeralLiteral_eq : numeralLiteral (String.ofList numeral) = [.literal maker (String.ofList numeral)]

/-- A numeral without point and exponent is the literal of a whole number. -/
def makerOf (n : Numeral) : Maker := if n.fraction = none ∧ n.exponent = none then .whole else .decimal

/-- A whole number that is more than zeros begins with a zero. -/
def HasNeedlessZeros (n : Numeral) : Prop :=
  n.fraction = none ∧ n.exponent = none ∧ n.whole.head? = some '0' ∧ ∃ c ∈ n.whole, c ≠ '0'

instance : DecidablePred HasNeedlessZeros := fun n =>
  inferInstanceAs (Decidable (n.fraction = none ∧ n.exponent = none ∧ n.whole.head? = some '0' ∧ ∃ c ∈ n.whole, c ≠ '0'))

section Lengths

variable {n : Numeral} {e : NumeralExponent} {s : List Char}

theorem isExponentLetter_letter (e : NumeralExponent) : isExponentLetter e.letter := by
  rcases e.isLetter with h | h <;> rw [h] <;> decide

theorem exponentLength_text (hdigits : ∀ c ∈ e.digits, isAsciiDigit c) (hs : StopsAt continuesNumeral s) :
    exponentLength (e.text ++ s) = e.text.length := by
  have hletter : e.letter = 'e' ∨ e.letter = 'E' := e.isLetter
  have hrun := digitRun_of_digits hdigits hs
  have hsome : e.digits.length ≠ 0 := by simpa using e.nonempty
  rw [NumeralExponent.text, List.cons_append, List.append_assoc]
  rcases e.isSign with hsign | hsign | hsign
  · obtain ⟨c, rest, hc⟩ := List.exists_cons_of_ne_nil e.nonempty
    have hfirst : isAsciiDigit c := hdigits c (by simp [hc])
    have hplain : ¬ (c = '+' ∨ c = '-') := by
      rintro (rfl | rfl) <;> exact absurd hfirst (by decide)
    rw [hc, List.cons_append] at hrun
    rw [hc, List.length_cons] at hsome
    rw [hsign, hc, List.nil_append, List.cons_append]
    simp [exponentLength, hletter, hplain, hrun]
  all_goals simp [hsign, exponentLength, hletter, hrun, hsome]

/-- The fraction of a numeral as the scanner finds it. -/
theorem isFraction_pointText (hascii : n.IsAscii) : IsFraction isAsciiDigit (pointText n.fraction) := by
  have hdecimals := hascii.decimals
  rw [Numeral.decimals] at hdecimals
  cases hfraction : n.fraction with
  | none => exact .inl rfl
  | some run =>
    rw [hfraction, Option.getD_some] at hdecimals
    exact .inr ⟨run, rfl, hdecimals⟩

/-- Where no character goes on with it, a numeral with an exponent is read as one. -/
theorem numeralLength_exponent (hascii : n.IsAscii) (hexponent : n.exponent = some e) (hs : StopsAt continuesNumeral s) :
    numeralLength (n.text ++ s) = n.text.length := by
  have hdigits : ∀ c ∈ e.digits, isAsciiDigit c := by
    have h := hascii.exponent
    rwa [Numeral.exponentDigits, hexponent, Option.elim_some] at h
  have hlength := exponentLength_text hdigits hs
  have hsome : n.whole ≠ [] ∨ (pointText n.fraction).drop 1 ≠ [] := by
    by_contra hnone
    simp only [not_or, not_not] at hnone
    refine n.nonempty ?_
    rw [hnone.1, List.nil_append]
    cases hpoint : n.fraction with
    | none => rfl
    | some run => simpa [hpoint, pointText] using hnone.2
  have htext : n.text ++ s = n.whole ++ (pointText n.fraction ++ (e.text ++ s)) := by
    simp [Numeral.text, Numeral.exponentText, hexponent]
  have htotal : n.text.length = n.whole.length + (pointText n.fraction).length + e.text.length := by
    simp [Numeral.text, Numeral.exponentText, hexponent, Nat.add_assoc]
  have hends : StopsAt continuesNumeral ((n.text ++ s).drop n.text.length) := by rwa [List.drop_left]
  have hpositive : e.text.length ≠ 0 := by simp [NumeralExponent.text]
  rw [htext, htotal] at hends
  rw [htext, htotal]
  -- the exponent begins with its letter
  obtain ⟨tail, htail⟩ : ∃ tail, e.text ++ s = e.letter :: tail := ⟨_, rfl⟩
  rw [htail] at hlength hends ⊢
  rw [numeralLength_of_exponent hsome hascii.whole (isFraction_pointText hascii) (isExponentLetter_letter e)
    (by rwa [hlength]) (by rw [hlength]), if_pos (imaginaryLength_of_stopsAt hends)]

theorem isWhole_numeral (hascii : n.IsAscii) (hzeros : ¬ HasNeedlessZeros n) (hfraction : n.fraction = none)
    (hexponent : n.exponent = none) : IsWhole n.whole where
  ne_nil := by simpa [hfraction] using n.nonempty
  areDigits := hascii.whole
  areZeros hfirst c hc := by
    by_contra hne
    exact hzeros ⟨hfraction, hexponent, hfirst, c, hc, hne⟩

/-- Where no character goes on with it, a numeral is read as one, unless it has needless zeros. -/
theorem numeralLength_numeral (hascii : n.IsAscii) (hzeros : ¬ HasNeedlessZeros n) (hs : StopsAt continuesNumeral s) :
    numeralLength (n.text ++ s) = n.text.length := by
  cases hexponent : n.exponent with
  | some e => exact numeralLength_exponent hascii hexponent hs
  | none =>
    cases hfraction : n.fraction with
    | none =>
      rw [Numeral.text_of_whole hfraction hexponent]
      exact numeralLength_whole (isWhole_numeral hascii hzeros hfraction hexponent) hs
    | some run =>
      have hdecimals := hascii.decimals
      have hsome := n.nonempty
      rw [Numeral.text, Numeral.exponentText, hexponent, Option.elim_none, List.append_nil, hfraction]
      rw [Numeral.decimals] at hdecimals
      rw [hfraction, Option.getD_some] at hdecimals hsome
      have hsides : n.whole ≠ [] ∨ run ≠ [] := by simpa [← not_and_or] using hsome
      have hlength := numeralLength_pointed hascii.whole hdecimals hsides hs
      rw [pointText, List.append_assoc, List.cons_append, hlength, List.length_append, List.length_cons]
      omega

/-- A numeral without an exponent has digits and points only. -/
theorem mem_of_no_exponent (hascii : n.IsAscii) (hexponent : n.exponent = none) {c : Char} (hc : c ∈ n.text) :
    isAsciiDigit c ∨ c = '.' := by
  rw [Numeral.text, Numeral.exponentText, hexponent, Option.elim_none, List.append_nil, List.mem_append] at hc
  rcases hc with hc | hc
  · exact .inl (hascii.whole c hc)
  · exact (mem_pointText hc).imp_left (hascii.decimals c)

theorem numeralLiteral_numeral (hascii : n.IsAscii) :
    numeralLiteral (String.ofList n.text) = [.literal (makerOf n) (String.ofList n.text)] := by
  cases hexponent : n.exponent with
  | none =>
    have hpoint : n.text.contains '.' = decide (n.fraction ≠ none) := by
      have hwhole : '.' ∉ n.whole := not_mem_digits hascii.whole (by decide)
      cases hfraction : n.fraction <;>
        simp [Numeral.text, Numeral.exponentText, hexponent, hfraction, pointText, hwhole]
    rw [numeralLiteral_of_digits fun c hc => mem_of_no_exponent hascii hexponent hc, hpoint, makerOf, hexponent]
    cases n.fraction <;> rfl
  | some e =>
    have hlast : n.text.getLast? ≠ some 'j' ∧ n.text.getLast? ≠ some 'J' := by
      constructor <;>
      · intro hlast
        exact absurd (hascii.mem (List.mem_of_getLast? hlast)) (by decide)
    have hbase (letter : Char) (hletter : ¬ (isAsciiDigit letter ∨ letter ∈ numeralMarks)) :
        ['0', letter].isPrefixOf n.text = false := by
      rw [← Bool.not_eq_true, List.isPrefixOf_iff_prefix]
      intro hbegins
      exact hletter (hascii.mem (hbegins.subset (by simp)))
    have hletter : (n.text.contains 'e' || n.text.contains 'E') = true := by
      have hmem : e.letter ∈ n.text := by simp [Numeral.text, Numeral.exponentText, hexponent, NumeralExponent.text]
      rcases e.isLetter with h | h <;> rw [h] at hmem <;> simp [hmem]
    have hmaker : makerOf n = .decimal := if_neg fun h => by simp [hexponent] at h
    simp only [numeralLiteral, String.toList_ofList, hlast, or_self, if_false, hbase 'x' (by decide),
      hbase 'X' (by decide), hletter, Bool.or_self, Bool.not_false, Bool.and_true, Bool.or_true, if_true, hmaker]

/-- A numeral without needless zeros is read as one literal. -/
theorem readsAsOne_numeral (hascii : n.IsAscii) (hzeros : ¬ HasNeedlessZeros n) : ReadsAsOne n.text (makerOf n) where
  maker_cases := by
    rw [makerOf]
    split_ifs
    · exact .inl rfl
    · exact .inr rfl
  mem _ hc := hascii.mem hc
  exists_first := exists_first_numeral hascii
  numeralLength_append _ hs := numeralLength_numeral hascii hzeros hs
  numeralLiteral_eq := numeralLiteral_numeral hascii

end Lengths

/-! ### Needless zeros -/

section Zeros

variable {zeros digits s : List Char}

/-- A whole number that begins with zeros ends behind them. -/
theorem wholeLength_zeros_append (hzeros : ∀ c ∈ zeros, c = '0') (hsome : zeros ≠ []) (hdigits : ∀ c ∈ digits, isAsciiDigit c)
    (hfirst : ∃ c ∈ digits.head?, c ≠ '0') (s : List Char) : wholeLength (zeros ++ (digits ++ s)) = zeros.length := by
  obtain ⟨d, hd, hne⟩ := hfirst
  obtain ⟨rest, rfl⟩ : ∃ rest, digits = d :: rest := List.head?_eq_some_iff.mp hd
  have hdigit : isAsciiDigit d := hdigits d List.mem_cons_self
  have hmore : moreDigits (· = '0') (d :: rest ++ s) = 0 := by
    rw [List.cons_append, moreDigits]
    · simp [hne]
    · rintro _ _ rfl
      exact absurd hdigit (by decide)
  have hrun : digitRun (· = '0') (d :: rest ++ s) = 0 := by simp [digitRun, hne]
  have hzero := digitRun_append rfl (by simpa using hzeros) hmore hrun
  obtain ⟨c, more, rfl⟩ := List.exists_cons_of_ne_nil hsome
  obtain rfl : c = '0' := hzeros c List.mem_cons_self
  rw [List.cons_append] at hzero ⊢
  rw [wholeLength_zero_cons, hzero]
  -- neither a zero nor another digit is the letter of a base
  have hletters : ∀ c ∈ ['x', 'X', 'b', 'B', 'o', 'O'], isAsciiDigit c = false := by decide
  intro c hc hletter
  have hhead : isAsciiDigit c := by
    cases more with
    | nil =>
      obtain rfl : d = c := by simpa using hc
      exact hdigit
    | cons e more =>
      obtain rfl : e = c := by simpa using hc
      rw [hzeros e (by simp)]
      decide
  rw [hletters c hletter] at hhead
  cases hhead

/-- Zeros in front of other digits are read without these. -/
theorem numeralLength_zeros (hzeros : ∀ c ∈ zeros, c = '0') (hsome : zeros ≠ []) (hdigits : ∀ c ∈ digits, isAsciiDigit c)
    (hfirst : ∃ c ∈ digits.head?, c ≠ '0') (hs : StopsAt continuesNumeral s) :
    numeralLength (zeros ++ (digits ++ s)) = zeros.length := by
  have hall : ∀ c ∈ zeros ++ digits, isAsciiDigit c := by
    rw [List.forall_mem_append]
    refine ⟨fun c hc => ?_, hdigits⟩
    rw [hzeros c hc]
    decide
  have hwhole := decimalLength_whole hall hs
  have hrun := digitRun_of_digits hall hs
  have hends : StopsAt continuesNumeral ((zeros ++ digits ++ s).drop (zeros ++ digits).length) := by rwa [List.drop_left]
  have himaginary := imaginaryLength_of_stopsAt hends
  rw [List.append_assoc] at hwhole hrun himaginary
  have hnone : imaginaryLength 0 (zeros ++ (digits ++ s)) = 0 := rfl
  simp only [numeralLength, hrun, himaginary, hwhole, hnone, ne_eq, not_true_eq_false, if_false,
    wholeLength_zeros_append hzeros hsome hdigits hfirst s]

end Zeros

/-! ### The guard of literals -/

/-- The exponent that the guard finds in a numeral.  It finds none if the numeral begins with its point. -/
def guardedExponent (n : Numeral) : Nat := if n.whole = [] then 0 else n.power.natAbs

theorem exponentOf_eq_decimalValue (digits : List Char) : exponentOf digits = decimalValue digits := rfl

section Guard

variable {n : Numeral} {e : NumeralExponent}

theorem guardedExponent_le (n : Numeral) : guardedExponent n ≤ n.power.natAbs := by
  rw [guardedExponent]
  split_ifs
  · exact Nat.zero_le _
  · exact le_rfl

theorem hasAsciiDigits_text (hascii : n.IsAscii) : HasAsciiDigits n.text := by
  have hmarks : ∀ c ∈ numeralMarks, isDigit c = false := by decide
  intro c hc hdigit
  refine (hascii.mem hc).resolve_right fun hmark => ?_
  rw [hmarks c hmark] at hdigit
  cases hdigit

theorem literalExponents_of_no_exponent (hascii : n.IsAscii) (hexponent : n.exponent = none) :
    literalExponents false 0 n.text = [] := by
  apply literalExponents_eq_nil
  intro c hc
  have hkind := mem_of_no_exponent hascii hexponent hc
  constructor <;>
  · rintro rfl
    exact absurd hkind (by decide)

theorem literalExponents_of_no_whole (hascii : n.IsAscii) (hexponent : n.exponent = some e) (hwhole : n.whole = []) :
    literalExponents false 0 n.text = [] := by
  have htext : n.text = [] ++ pointText n.fraction ++ e.letter :: (e.sign ++ e.digits ++ []) := by
    simp [Numeral.text, Numeral.exponentText, hexponent, NumeralExponent.text, hwhole]
  have hfraction : IsFraction isDigitOrUnderscore (pointText n.fraction) :=
    (isFraction_pointText hascii).imp fun c _ hc => by simp [isDigitOrUnderscore, hc]
  have hsign : e.sign ∈ [[], ['+'], ['-']] := by simpa using e.isSign
  have hdigits : ∀ c ∈ e.digits, isDigitOrUnderscore c := by
    have h := hascii.exponent
    rw [Numeral.exponentDigits, hexponent, Option.elim_some] at h
    exact fun c hc => by simp [isDigitOrUnderscore, h c hc]
  have hfirst : ¬ ∃ c ∈ n.text.head?, isAsciiDigit c := by
    obtain ⟨run, hrun⟩ : ∃ run, pointText n.fraction = '.' :: run := by
      cases hfraction : n.fraction with
      | none => exact absurd (by rw [hwhole, hfraction]; rfl) n.nonempty
      | some run => exact ⟨run, rfl⟩
    rw [htext, hrun]
    rintro ⟨c, hc, hdigit⟩
    obtain rfl : '.' = c := Option.some.inj hc
    exact absurd hdigit (by decide)
  have hasciiDigits := hasAsciiDigits_text hascii
  rw [htext] at hasciiDigits hfirst ⊢
  exact literalExponents_of_mantissa hasciiDigits (by simp) hfraction (isExponentLetter_letter e) hsign hdigits (by simp)
    fun h => hfirst h.1

theorem literalExponents_of_whole (hascii : n.IsAscii) (hexponent : n.exponent = some e) (hwhole : n.whole ≠ []) :
    literalExponents false 0 n.text = [e.digits] := by
  obtain ⟨c, rest, hc⟩ := List.exists_cons_of_ne_nil hwhole
  obtain ⟨d, more, hd⟩ := List.exists_cons_of_ne_nil e.nonempty
  have htext : n.text = c :: rest ++ (pointText n.fraction ++ e.letter :: (e.sign ++ (e.digits ++ []))) := by
    simp [Numeral.text, Numeral.exponentText, hexponent, NumeralExponent.text, hc]
  have hfraction : IsFraction isDigit (pointText n.fraction) :=
    (isFraction_pointText hascii).imp fun _ _ => isDigit_of_isAsciiDigit
  have hsign : e.sign ∈ [[], ['+'], ['-']] := by simpa using e.isSign
  have hhead : ∃ c ∈ e.digits.head?, isAsciiDigit c := by
    have h := hascii.exponent
    rw [Numeral.exponentDigits, hexponent, Option.elim_some] at h
    exact ⟨d, by rw [hd]; rfl, h d (by simp [hd])⟩
  rw [htext]
  exact literalExponents_found (hc ▸ n.wholeDigits) hfraction (isExponentLetter_letter e) hsign hhead e.areDigits
    stopsAt_nil

/-- The only exponent that is found in a numeral is its own. -/
theorem literalExponents_text (hascii : n.IsAscii) : literalExponents false 0 n.text =
    if n.whole = [] ∨ n.exponentDigits = [] then [] else [n.exponentDigits] := by
  cases hexponent : n.exponent with
  | none =>
    have hnone : n.exponentDigits = [] := by rw [Numeral.exponentDigits, hexponent, Option.elim_none]
    rw [literalExponents_of_no_exponent hascii hexponent, if_pos (.inr hnone)]
  | some e =>
    have hdigits : n.exponentDigits = e.digits := by rw [Numeral.exponentDigits, hexponent, Option.elim_some]
    by_cases hwhole : n.whole = []
    · rw [literalExponents_of_no_whole hascii hexponent hwhole, if_pos (.inl hwhole)]
    · rw [literalExponents_of_whole hascii hexponent hwhole, hdigits, if_neg (by simp [hwhole, e.nonempty])]

/-- What the guard makes of a numeral. -/
theorem readsExactly_text (settings : Settings) (h : IsReadableNumeral n) : readsExactly settings n.text =
    if settings.maxDecimalExponent < guardedExponent n then .error .literalTooLarge
    else .ok (decide ((guardedExponent n : Int) ≤ settings.maxExactDigits)) := by
  have hlimit : maxDigits ≤ integerLimit := by decide
  have hread : ∀ field ∈ if n.whole = [] ∨ n.exponentDigits = [] then [] else [n.exponentDigits],
      field.length ≤ integerLimit := by
    intro field hfield
    split_ifs at hfield
    · cases hfield
    · rw [List.mem_singleton.mp hfield]
      exact h.exponent.trans hlimit
  have hlargest : ((if n.whole = [] ∨ n.exponentDigits = [] then [] else [n.exponentDigits]).map exponentOf).foldl max 0 =
      guardedExponent n := by
    rw [guardedExponent, Numeral.natAbs_power]
    by_cases hwhole : n.whole = []
    · simp [hwhole]
    by_cases hnone : n.exponentDigits = []
    · simp [hnone, decimalValue]
    · simp [hwhole, hnone, exponentOf_eq_decimalValue]
  rw [readsExactly_of_found (literalExponents_text h.ascii) hread, hlargest]

end Guard

end Reckoner.Expression
