import Reckoner.Document.Pass
import Reckoner.Proofs.Document.Expansion
import Reckoner.Proofs.Expression.Hundredths

/-!
# Percentages in a line

A numeral in front of a percent sign becomes a hundredth of itself only if it is in fixed notation; digits that belong
to an exponent or to a name are cut off from it.
-/

namespace Reckoner.Document

open Reckoner.Expression Reckoner.Number Reckoner.Text

/-! ### Literals -/

/-- A line holds a numeral of the engine with a percent sign directly behind it, at a place where a literal can begin:
    neither inside a word nor behind a point. -/
structure IsPercentage (line before numeral after : List Char) : Prop where
  parts : line = before ++ (numeral ++ '%' :: after)
  begins : ∀ c ∈ before.getLast?, isWord c = false ∧ c ≠ '.'
  ne_nil : numeral ≠ []
  isNumeral : numeralLength (numeral ++ '%' :: after) = numeral.length

/-- The group of a percentage is read as a quotient wherever it stands, and its value is a hundredth of the value of its
    numeral in every scope that leaves the words of the language alone. -/
structure ReadsAsHundredth (settings : Settings) (numeral : List Char) : Prop where
  tokens : ∀ depth fresh rest, scanFrom depth fresh (hundredth numeral ++ rest) =
    (scanFrom depth false rest).map (hundredthTokens numeral ++ ·)
  value : ∀ scope : Scope, scope.LeavesReserved → evaluateExpression settings scope (hundredth numeral) =
    ⟨.ok (.numeric (.rational (fixedValue numeral / 100))), scope, none⟩

theorem expandPercent_of_isFixed {numeral : List Char} (h : IsFixed numeral) :
    expandPercent (numeral ++ ['%']) = hundredth numeral := by
  have hdigit {digits : List Char} (hdigits : ∀ c ∈ digits, isAsciiDigit c) : ∀ c ∈ digits, isDigit c := by
    intro c hc
    rw [isDigit_of_isAscii (isAscii_of_isAsciiDigit (hdigits c hc))]
    exact hdigits c hc
  cases h with
  | whole hfront =>
    rw [expandPercent_of_percentTail? (hdigit hfront.2) hfront.1 (percentTail?_percent []), expandPercent,
      List.append_nil, List.append_nil]
  | pointed hfront hfraction =>
    rw [List.append_assoc, List.cons_append, expandPercent_of_percentTail? (hdigit hfront.2) hfront.1
      (percentTail?_point (hdigit hfraction.2) hfraction.1 []), expandPercent, List.append_nil]

/-- A text of ASCII characters that becomes a hundredth of itself with a percent sign is in fixed notation. -/
theorem isFixed_of_expandPercent {numeral : List Char} (hascii : IsAsciiText numeral)
    (hfirst : (numeral ++ ['%']).head? ≠ some '(') (h : expandPercent (numeral ++ ['%']) = hundredth numeral) :
    IsFixed numeral := by
  obtain ⟨digits, tail, hline, hdigits, hstops⟩ := exists_run isDigit (numeral ++ ['%'])
  have hopens : (expandPercent (digits ++ tail)).head? = some '(' := by
    rw [← hline, h]
    rfl
  have hsome : digits ≠ [] := by
    rintro rfl
    rw [List.nil_append] at hline hopens
    rw [hline] at hfirst
    cases tail with
    | nil => simp [expandPercent] at hopens
    | cons c rest =>
      rw [expandPercent_cons (stopsAt_cons.mp hstops)] at hopens
      exact hfirst hopens
  cases htail : percentTail? tail with
  | none =>
    rw [expandPercent_digits_of_none hdigits hstops htail, List.head?_append_of_ne_nil _ hsome] at hopens
    exact absurd (hdigits '(' (List.mem_of_mem_head? hopens)) (by decide)
  | some found =>
    obtain ⟨fraction, after⟩ := found
    obtain ⟨rfl, hfraction⟩ := eq_of_percentTail? htail
    rw [hline, expandPercent_of_percentTail? hdigits hsome htail] at h
    rcases List.eq_nil_or_concat after with rfl | ⟨front, last, rfl⟩
    · have hnumeral : numeral = digits ++ fraction := by
        rw [← List.append_assoc] at hline
        exact List.append_inj_left' hline rfl
      subst hnumeral
      have hasciiDigits {more : List Char} (hmore : ∀ c ∈ more, isDigit c) (hsubset : more ⊆ digits ++ fraction) :
          ∀ c ∈ more, isAsciiDigit c := by
        intro c hc
        rw [← isDigit_of_isAscii (hascii c (hsubset hc))]
        exact hmore c hc
      have hfront : IsDigits digits := ⟨hsome, hasciiDigits hdigits (List.subset_append_left _ _)⟩
      rcases hfraction with rfl | ⟨more, rfl, hmoreSome, hmore⟩
      · rw [List.append_nil]
        exact .whole hfront
      · refine .pointed hfront ⟨hmoreSome, hasciiDigits hmore ?_⟩
        exact List.subset_append_of_subset_right _ (List.subset_cons_self _ _)
    · -- The expansion would end at the first of two percent signs, and the numeral goes on behind it.
      have hnumeral : numeral = digits ++ fraction ++ '%' :: front := by
        have hparts : numeral ++ ['%'] = (digits ++ fraction ++ '%' :: front) ++ [last] := by simpa using hline
        exact List.append_inj_left' hparts rfl
      rw [hnumeral] at h
      simp [hundredth] at h

namespace IsPercentage

variable {line before numeral after : List Char}

theorem isAsciiText (h : IsPercentage line before numeral after) : IsAsciiText numeral := by
  have htake := isAsciiText_take_numeralLength (numeral ++ '%' :: after)
  rwa [h.isNumeral, List.take_left] at htake

theorem head?_ne (h : IsPercentage line before numeral after) : (numeral ++ ['%']).head? ≠ some '(' := by
  have hnumeral := h.isNumeral
  cases numeral with
  | nil => exact absurd rfl h.ne_nil
  | cons c rest =>
    rw [List.cons_append, List.head?_cons, ne_eq, Option.some.injEq]
    rintro rfl
    rw [List.cons_append, numeralLength_eq_zero (by decide) (by decide), List.length_cons] at hnumeral
    cases hnumeral

/-- What a percentage becomes does not depend on the rest of the line. -/
theorem expandPercent_eq (h : IsPercentage line before numeral after) :
    expandPercent line = expandPercent before ++ expandPercent (numeral ++ ['%']) ++ expandPercent after := by
  have hbefore : EndsNumeral before := by
    intro c hc
    obtain ⟨hword, hpoint⟩ := h.begins c hc
    refine ⟨?_, hpoint⟩
    by_contra hdigit
    rw [isWord_of_isDigit (by simpa using hdigit)] at hword
    cases hword
  have hsign : EndsNumeral (numeral ++ ['%']) := by
    intro c hc
    obtain rfl : '%' = c := by simpa using hc
    decide
  have hparts : numeral ++ '%' :: after = numeral ++ ['%'] ++ after := by simp
  rw [h.parts, expandPercent_append (.inl hbefore), hparts, expandPercent_append (.inl hsign), List.append_assoc]

theorem expandPercent_eq_iff (h : IsPercentage line before numeral after) :
    expandPercent line = expandPercent before ++ hundredth numeral ++ expandPercent after ↔ IsFixed numeral := by
  rw [h.expandPercent_eq, List.append_left_inj, List.append_right_inj]
  exact ⟨isFixed_of_expandPercent h.isAsciiText h.head?_ne, expandPercent_of_isFixed⟩

end IsPercentage

/-- Writing out the percentages of a line respects its tokens just so far: a numeral with a percent sign becomes a
    hundredth of itself exactly if it is in fixed notation, and the identifiers stay as they are exactly if none that
    ends in a digit has a percent sign behind it. -/
theorem expansion_respects_tokens_iff {settings : Settings} (hexponent : 2 ≤ settings.maxDecimalExponent)
    (hdigits : 2 ≤ settings.maxExactDigits) (line : List Char) :
    (∀ before numeral after, IsPercentage line before numeral after →
      (expandPercent line = expandPercent before ++ hundredth numeral ++ expandPercent after ↔ IsFixed numeral) ∧
        (IsFixed numeral → (∀ side ∈ numeral.splitOn '.', side.length ≤ maxDigits) →
          ReadsAsHundredth settings numeral)) ∧
      (identifiers (expandPercent line) = identifiers line ↔ KeepsNames line) := by
  refine ⟨?_, identifiers_expandPercent_eq_iff line⟩
  intro before numeral after h
  refine ⟨h.expandPercent_eq_iff, ?_⟩
  intro hfixed hsides
  have hstops : StopsAt continuesNumeral ('%' :: after) := stopsAt_cons.mpr (by decide)
  obtain ⟨maker, hdenotes⟩ := denotes_of_isFixed hfixed hstops h.isNumeral hsides
  exact ⟨fun depth fresh rest => scanFrom_hundredth hdenotes rest depth fresh,
    fun scope hscope => evaluateExpression_hundredth hdenotes hscope hexponent hdigits⟩

theorem eighth_is_read_as_hundredth :
    2 ≤ Settings.standard.maxDecimalExponent ∧ 2 ≤ Settings.standard.maxExactDigits ∧
      IsPercentage "12.5% + x1%".toList [] "12.5".toList " + x1%".toList ∧
      expandPercent "12.5% + x1%".toList = "(12.5/100)".toList ++ expandPercent " + x1%".toList ∧
      evaluateExpression .standard [] "(12.5/100)".toList = ⟨.ok (.numeric (.rational (1 / 8))), [], none⟩ ∧
      identifiers (expandPercent "12.5% + x1%".toList) ≠ identifiers "12.5% + x1%".toList := by
  have hexponent : 2 ≤ Settings.standard.maxDecimalExponent := by decide
  have hdigits : 2 ≤ Settings.standard.maxExactDigits := by decide
  have hpercentage : IsPercentage "12.5% + x1%".toList [] "12.5".toList " + x1%".toList :=
    ⟨by decide, by decide, by decide, by decide +kernel⟩
  have hfixed : IsFixed "12.5".toList :=
    @IsFixed.pointed ['1', '2'] ['5'] ⟨by decide, by decide⟩ ⟨by decide, by decide⟩
  obtain ⟨hliterals, hnames⟩ := expansion_respects_tokens_iff hexponent hdigits "12.5% + x1%".toList
  obtain ⟨hexpansion, hreads⟩ := hliterals [] "12.5".toList " + x1%".toList hpercentage
  refine ⟨hexponent, hdigits, hpercentage, ?_, ?_, ?_⟩
  · have hline := hexpansion.mpr hfixed
    rwa [expandPercent] at hline
  · have hscope : Scope.LeavesReserved [] := by
      intro word hword
      cases hword
    have hvalue : fixedValue "12.5".toList / 100 = 1 / 8 := by decide +kernel
    rw [← hvalue]
    exact (hreads hfixed (by decide)).value [] hscope
  · intro hkept
    have hcut := hnames.mp hkept "x1".toList [.other '%']
    exact absurd (hcut (by decide +kernel) ⟨'1', rfl, by decide⟩) (by decide)

/-- The digits of an exponent and those at the end of a name are taken for the numeral of a percentage. -/
theorem exponent_and_name_are_split :
    (¬ ∀ line before numeral after, IsPercentage line before numeral after →
      expandPercent line = expandPercent before ++ hundredth numeral ++ expandPercent after) ∧
    (evaluateLine .standard .empty "1e3").result.text? = some "1000" ∧
    (evaluateLine .standard .empty "1e3%").result.text? = some "0.0815484548538" ∧
    (¬ ∀ line, identifiers (expandPercent line) = identifiers line) ∧
    identifiers (expandPercent "x1%y".toList) = ["x".toList, "y".toList] := by
  have hnames : identifiers (expandPercent "x1%y".toList) = ["x".toList, "y".toList] := by decide +kernel
  refine ⟨?_, by decide +kernel, by decide +kernel, ?_, hnames⟩
  · intro h
    have hexpansion := h "1e3%".toList [] "1e3".toList [] ⟨by decide, by decide, by decide, by decide +kernel⟩
    exact absurd hexpansion (by decide +kernel)
  · intro h
    have hkept := h "x1%y".toList
    rw [hnames] at hkept
    exact absurd hkept (by decide +kernel)

end Reckoner.Document
