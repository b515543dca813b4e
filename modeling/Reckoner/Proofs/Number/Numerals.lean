import Reckoner.Expression.Display
import Reckoner.Proofs.Text.Runs

/-!
# Displayed numbers

The text of a displayed number is one of the two infinities or a numeral in fixed or in scientific notation, whatever
the settings are.  All its characters are ASCII, so nothing in it is ever replaced by an alias.
-/

namespace Reckoner.Number

open Reckoner.Text

/-! ### Shapes of numerals -/

/-- One digit or more. -/
def IsDigits (s : List Char) : Prop := s ≠ [] ∧ ∀ c ∈ s, isAsciiDigit c

/-- Fixed notation without a sign: digits, perhaps with a point and more digits behind them. -/
inductive IsFixed : List Char → Prop
  | whole {front : List Char} (hfront : IsDigits front) : IsFixed front
  | pointed {front fraction : List Char} (hfront : IsDigits front) (hfraction : IsDigits fraction) :
      IsFixed (front ++ '.' :: fraction)

/-- Scientific notation without a sign: one digit, perhaps a point with more digits, and an exponent with its sign. -/
inductive IsScientific : List Char → Prop
  | whole {d sign : Char} {exponent : List Char} (hd : isAsciiDigit d) (hsign : sign = '+' ∨ sign = '-')
      (hexponent : IsDigits exponent) : IsScientific ([d] ++ 'e' :: sign :: exponent)
  | pointed {d sign : Char} {fraction exponent : List Char} (hd : isAsciiDigit d) (hfraction : IsDigits fraction)
      (hsign : sign = '+' ∨ sign = '-') (hexponent : IsDigits exponent) :
      IsScientific (d :: '.' :: fraction ++ 'e' :: sign :: exponent)

inductive IsNumeral : List Char → Prop
  | positive {s : List Char} (h : IsFixed s ∨ IsScientific s) : IsNumeral s
  | negative {s : List Char} (h : IsFixed s ∨ IsScientific s) : IsNumeral ('-' :: s)

/-! ### Characters of numerals -/

/-- Characters of displayed numbers: digits, signs, the point, and the letters of an exponent and of the words for
    numbers that have no numeral. -/
def isDisplayCharacter (c : Char) : Bool := isAsciiDigit c || "+-.eInfityNa".toList.contains c

theorem isAscii_of_isDisplayCharacter {c : Char} (h : isDisplayCharacter c) : isAscii c := by
  have hall : ∀ d ∈ "+-.eInfityNa".toList, isAscii d := by decide
  simp only [isDisplayCharacter, Bool.or_eq_true, List.contains_iff_mem] at h
  exact h.elim isAscii_of_isAsciiDigit (hall c)

section Characters

variable {s : List Char}

theorem IsDigits.isDisplayCharacter (h : IsDigits s) : ∀ c ∈ s, isDisplayCharacter c := by
  intro c hc
  simp [Number.isDisplayCharacter, h.2 c hc]

theorem isDisplayCharacter_of_sign {sign : Char} (h : sign = '+' ∨ sign = '-') : isDisplayCharacter sign := by
  rcases h with rfl | rfl <;> decide

theorem IsFixed.isDisplayCharacter (h : IsFixed s) : ∀ c ∈ s, isDisplayCharacter c := by
  cases h with
  | whole hfront => exact hfront.isDisplayCharacter
  | pointed hfront hfraction =>
    rw [List.forall_mem_append, List.forall_mem_cons]
    exact ⟨hfront.isDisplayCharacter, by decide, hfraction.isDisplayCharacter⟩

theorem IsScientific.isDisplayCharacter (h : IsScientific s) : ∀ c ∈ s, isDisplayCharacter c := by
  cases h with
  | whole hd hsign hexponent =>
    simp only [List.forall_mem_append, List.forall_mem_cons]
    exact ⟨⟨by simp [Number.isDisplayCharacter, hd], by simp⟩, by decide, isDisplayCharacter_of_sign hsign,
      hexponent.isDisplayCharacter⟩
  | pointed hd hfraction hsign hexponent =>
    simp only [List.forall_mem_append, List.forall_mem_cons]
    exact ⟨⟨by simp [Number.isDisplayCharacter, hd], by decide, hfraction.isDisplayCharacter⟩, by decide,
      isDisplayCharacter_of_sign hsign, hexponent.isDisplayCharacter⟩

theorem IsNumeral.isDisplayCharacter (h : IsNumeral s) : ∀ c ∈ s, isDisplayCharacter c := by
  cases h with
  | positive h => exact h.elim IsFixed.isDisplayCharacter IsScientific.isDisplayCharacter
  | negative h =>
    rw [List.forall_mem_cons]
    exact ⟨by decide, h.elim IsFixed.isDisplayCharacter IsScientific.isDisplayCharacter⟩

end Characters

/-! ### Notations -/

theorem isDigits_toString (n : Nat) : IsDigits (toString n).toList := by
  have hdigits : (toString n).toList = Nat.toDigits 10 n := Nat.toList_repr
  rw [hdigits]
  constructor
  · exact Nat.toDigits_ne_nil
  · intro c hc
    have hc : c.isDigit := Nat.isDigit_of_mem_toDigits (by decide : 0 < 10) (by decide) hc
    simpa [isAsciiDigit, Char.isDigit, Char.le_def] using hc

theorem isDigits_digits (x : Decimal) : IsDigits x.digits := isDigits_toString x.coefficient

theorem isAsciiDigit_of_mem_replicate {n : Nat} {c : Char} (h : c ∈ List.replicate n '0') : isAsciiDigit c := by
  rw [List.eq_of_mem_replicate h]
  decide

/-- The point stands between digits, because zeros are put in front where there are too few digits. -/
theorem exists_pointed {digits : List Char} (h : IsDigits digits) {scale : Nat} (hscale : scale ≠ 0) :
    ∃ front fraction, pointed digits scale = front ++ '.' :: fraction ∧ IsDigits front ∧ IsDigits fraction := by
  have hpadded : ∀ c ∈ List.replicate (scale + 1 - digits.length) '0' ++ digits, isAsciiDigit c := by
    intro c hc
    rcases List.mem_append.mp hc with hc | hc
    · exact isAsciiDigit_of_mem_replicate hc
    · exact h.2 c hc
  have hlength : scale < (List.replicate (scale + 1 - digits.length) '0' ++ digits).length := by
    rw [List.length_append, List.length_replicate]
    omega
  unfold pointed
  rw [if_neg hscale]
  refine ⟨_, _, rfl, ⟨?_, fun c hc => hpadded c (List.mem_of_mem_take hc)⟩,
    ⟨?_, fun c hc => hpadded c (List.mem_of_mem_drop hc)⟩⟩
  · apply List.ne_nil_of_length_pos
    rw [List.length_take]
    omega
  · apply List.ne_nil_of_length_pos
    rw [List.length_drop]
    omega

theorem isFixed_pointed {digits : List Char} (scale : Nat) (h : IsDigits digits) : IsFixed (pointed digits scale) := by
  by_cases hscale : scale = 0
  · rw [pointed, if_pos hscale]
    exact .whole h
  · obtain ⟨front, fraction, heq, hfront, hfraction⟩ := exists_pointed h hscale
    rw [heq]
    exact .pointed hfront hfraction

theorem isFixed_fixed (x : Decimal) : IsFixed x.fixed := by
  unfold Decimal.fixed
  split
  · refine .whole ⟨?_, ?_⟩
    · simp [(isDigits_digits x).1]
    · intro c hc
      rcases List.mem_append.mp hc with hc | hc
      · exact (isDigits_digits x).2 c hc
      · exact isAsciiDigit_of_mem_replicate hc
  · exact isFixed_pointed _ (isDigits_digits x)

theorem isScientific_scientific (x : Decimal) : IsScientific x.scientific := by
  have hdigits := isDigits_digits x
  have hsign : (if 0 ≤ x.leadingExponent then '+' else '-') = '+' ∨
      (if 0 ≤ x.leadingExponent then '+' else '-') = '-' := by
    split
    · exact .inl rfl
    · exact .inr rfl
  unfold Decimal.scientific
  split
  · rename_i hempty
    exact absurd hempty hdigits.1
  · rename_i d hd
    rw [hd] at hdigits
    exact .whole (hdigits.2 d (by simp)) hsign (isDigits_toString _)
  · rename_i d rest hrest hd
    rw [hd] at hdigits
    refine .pointed (hdigits.2 d (by simp)) ⟨?_, ?_⟩ hsign (isDigits_toString _)
    · rintro rfl
      exact hrest rfl
    · intro c hc
      exact hdigits.2 c (List.mem_cons_of_mem d hc)

theorem isNumeral_write (style : AutoNotation) (x : Decimal) : IsNumeral (style.write x) := by
  unfold AutoNotation.write
  by_cases hzero : x.coefficient = 0
  · rw [if_pos hzero]
    exact .positive (.inl (.whole ⟨by decide, by decide⟩))
  · rw [if_neg hzero]
    have hbody : IsFixed (if style.lower ≤ x.normal.leadingExponent ∧ x.normal.leadingExponent < style.upper
          then x.normal.fixed else x.normal.scientific) ∨
        IsScientific (if style.lower ≤ x.normal.leadingExponent ∧ x.normal.leadingExponent < style.upper
          then x.normal.fixed else x.normal.scientific) := by
      split
      · exact .inl (isFixed_fixed _)
      · exact .inr (isScientific_scientific _)
    by_cases hnegative : x.normal.negative
    · simp only [hnegative, if_true]
      exact .negative hbody
    · simp only [hnegative, Bool.false_eq_true, if_false]
      exact .positive hbody

end Reckoner.Number

namespace Reckoner.Expression

open Reckoner.Algebra Reckoner.Number Reckoner.Text

/-! ### Displayed values -/

/-- What a displayed number looks like. -/
inductive IsShown : String → Prop
  | infinity : IsShown "Infinity"
  | negativeInfinity : IsShown "-Infinity"
  | numeral {text : String} (h : IsNumeral text.toList) : IsShown text

theorem IsShown.isDisplayCharacter {text : String} (h : IsShown text) : ∀ c ∈ text.toList, isDisplayCharacter c := by
  cases h with
  | infinity => decide
  | negativeInfinity => decide
  | numeral h => exact h.isDisplayCharacter

theorem isShown_of_write {style : DisplayStyle} {x : Decimal} {text : String} (h : style.write x = .ok text) :
    IsShown text := by
  unfold DisplayStyle.write at h
  split at h
  · cases h
  · cases h
    apply IsShown.numeral
    simpa using isNumeral_write style.autoNotation x

/-- A term that is shown at all is shown as a number, unless it is undefined. -/
theorem isShown_of_display {style : DisplayStyle} {t : Term} {text : String} (h : style.display t = .ok text)
    (hdefined : t ≠ .undefined) : IsShown text := by
  unfold DisplayStyle.display at h
  split at h
  · cases h
    split
    · exact .negativeInfinity
    · exact .infinity
  · split at h
    · cases h
    · split at h
      · exact absurd rfl hdefined
      · split at h
        · exact isShown_of_write h
        · cases h

theorem isDisplayCharacter_of_displayValue {style : DisplayStyle} {v : Value} {text : String}
    (h : style.displayValue v = .ok text) : ∀ c ∈ text.toList, isDisplayCharacter c := by
  cases v with
  | number t =>
    by_cases hdefined : t = .undefined
    · subst hdefined
      simp only [DisplayStyle.displayValue, DisplayStyle.display] at h
      split at h
      · cases h
      · cases h
        split <;> decide
    · exact (isShown_of_display h hdefined).isDisplayCharacter
  | relation names =>
    simp only [DisplayStyle.displayValue] at h
    split at h <;> cases h
  | _ => cases h

theorem isAsciiText_of_displayValue {style : DisplayStyle} {v : Value} {text : String}
    (h : style.displayValue v = .ok text) : IsAsciiText text.toList :=
  fun c hc => isAscii_of_isDisplayCharacter (isDisplayCharacter_of_displayValue h c hc)

end Reckoner.Expression
