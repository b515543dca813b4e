import Mathlib.Algebra.Field.Rat
import Mathlib.Algebra.GroupWithZero.Basic
import Mathlib.Data.List.DropRight
import Mathlib.Tactic.Ring
import Reckoner.Number.Rounding
import Reckoner.Proofs.Text.Runs

/-!
# Decimal notation

A decimal numeral is written with digits on one or both sides of a point, or with digits alone, and perhaps with an
exponent.  What it denotes is fixed by its digits and their places, whoever reads it.  Zeros at the end of its fraction
do not count.
-/

namespace Reckoner.Number

open Reckoner.Text

/-! ### Digits -/

/-- The number that digits denote, in any digit system. -/
def decimalValue (digits : List Char) : Nat := digits.foldl (fun n c => 10 * n + (digitValue? c).getD 0) 0

theorem decimalValue_concat (digits : List Char) (c : Char) :
    decimalValue (digits ++ [c]) = 10 * decimalValue digits + (digitValue? c).getD 0 := by
  rw [decimalValue, List.foldl_append]
  rfl

theorem decimalValue_append_zeros (digits : List Char) (count : Nat) :
    decimalValue (digits ++ List.replicate count '0') = decimalValue digits * 10 ^ count := by
  induction count with
  | zero => rw [List.replicate_zero, List.append_nil, pow_zero, mul_one]
  | succ count ih =>
    have hzero : (digitValue? '0').getD 0 = 0 := by decide
    rw [List.replicate_succ', ← List.append_assoc, decimalValue_concat, ih, hzero, pow_succ]
    ring

theorem decimalValue_eq_ofDigitChars {digits : List Char} (h : ∀ c ∈ digits, isAsciiDigit c) :
    decimalValue digits = Nat.ofDigitChars 10 digits 0 := by
  induction digits using List.reverseRecOn with
  | nil => rfl
  | append_singleton digits c ih =>
    rw [List.forall_mem_append, List.forall_mem_singleton] at h
    have hascii : c.toNat < 128 := by simpa [isAscii] using isAscii_of_isAsciiDigit h.2
    rw [decimalValue_concat, ih h.1, Nat.ofDigitChars_append, Nat.ofDigitChars_cons, Nat.ofDigitChars_nil]
    simp [digitValue?, hascii, h.2]

/-- Digits denote zero only if all of them are zeros. -/
theorem decimalValue_eq_zero {digits : List Char} (h : ∀ c ∈ digits, isAsciiDigit c) :
    decimalValue digits = 0 ↔ ∀ c ∈ digits, c = '0' := by
  induction digits using List.reverseRecOn with
  | nil => simp [decimalValue]
  | append_singleton digits c ih =>
    rw [List.forall_mem_append, List.forall_mem_singleton] at h
    have hdigit : (digitValue? c).getD 0 = 0 ↔ c = '0' := by
      have hascii : c.toNat < 128 := by simpa [isAscii] using isAscii_of_isAsciiDigit h.2
      have hfirst : '0'.toNat ≤ c.toNat := by
        have hrange := h.2
        simp only [isAsciiDigit, Bool.and_eq_true, decide_eq_true_eq] at hrange
        exact hrange.1
      have hvalue : (digitValue? c).getD 0 = c.toNat - '0'.toNat := by simp [digitValue?, hascii, h.2]
      rw [hvalue, ← Char.toNat_inj]
      omega
    rw [decimalValue_concat, List.forall_mem_append, List.forall_mem_singleton, ← ih h.1, ← hdigit]
    omega

/-! ### Numerals -/

/-- The exponent of a numeral: a letter, perhaps a sign, and digits. -/
structure NumeralExponent where
  letter : Char
  sign : List Char
  digits : List Char
  isLetter : letter = 'e' ∨ letter = 'E'
  isSign : sign = [] ∨ sign = ['+'] ∨ sign = ['-']
  areDigits : ∀ c ∈ digits, isDigit c
  nonempty : digits ≠ []

namespace NumeralExponent

def text (e : NumeralExponent) : List Char := e.letter :: (e.sign ++ e.digits)

def value (e : NumeralExponent) : ℤ := if e.sign = ['-'] then -decimalValue e.digits else decimalValue e.digits

end NumeralExponent

/-- The point of a numeral with the digits behind it, if it has a point. -/
def pointText : Option (List Char) → List Char
  | none => []
  | some run => '.' :: run

/-- A decimal numeral without a sign.  It has a digit in front of its point or behind it. -/
structure Numeral where
  whole : List Char
  fraction : Option (List Char)
  exponent : Option NumeralExponent
  wholeDigits : ∀ c ∈ whole, isDigit c
  fractionDigits : ∀ c ∈ fraction.getD [], isDigit c
  nonempty : whole ++ fraction.getD [] ≠ []

namespace Numeral

/-- The digits behind the point. -/
def decimals (n : Numeral) : List Char := n.fraction.getD []

def exponentDigits (n : Numeral) : List Char := n.exponent.elim [] NumeralExponent.digits

def exponentText (n : Numeral) : List Char := n.exponent.elim [] NumeralExponent.text

def power (n : Numeral) : ℤ := n.exponent.elim 0 NumeralExponent.value

def text (n : Numeral) : List Char := n.whole ++ pointText n.fraction ++ n.exponentText

/-- What a numeral denotes: the number of all its digits, with the point put where the places and the exponent say. -/
def value (n : Numeral) : ℚ := decimalValue (n.whole ++ n.decimals) * 10 ^ (n.power - n.decimals.length)

end Numeral

/-! ### Exponents and whole numbers -/

namespace Numeral

variable {n : Numeral}

theorem natAbs_power (n : Numeral) : n.power.natAbs = decimalValue n.exponentDigits := by
  rw [power, exponentDigits]
  cases n.exponent with
  | none => rfl
  | some e =>
    rw [Option.elim_some, Option.elim_some, NumeralExponent.value]
    split_ifs <;> simp

theorem text_of_whole (hfraction : n.fraction = none) (hexponent : n.exponent = none) : n.text = n.whole := by
  simp [text, exponentText, hfraction, hexponent, pointText]

theorem value_of_whole (hfraction : n.fraction = none) (hexponent : n.exponent = none) : n.value = decimalValue n.whole := by
  simp [value, power, decimals, hfraction, hexponent]

end Numeral

/-! ### Characters of numerals -/

/-- The characters of a numeral that are no digits. -/
def numeralMarks : List Char := ['.', 'e', 'E', '+', '-']

section Characters

variable {c : Char}

theorem mem_pointText {fraction : Option (List Char)} (h : c ∈ pointText fraction) : c ∈ fraction.getD [] ∨ c = '.' := by
  cases fraction with
  | none => cases h
  | some run => exact (List.mem_cons.mp h).symm

theorem NumeralExponent.mem_text {e : NumeralExponent} (h : c ∈ e.text) : c ∈ e.digits ∨ c ∈ numeralMarks := by
  rw [text, List.mem_cons, List.mem_append] at h
  rcases h with rfl | h | h
  · right
    rcases e.isLetter with hletter | hletter <;> rw [hletter] <;> decide
  · right
    rcases e.isSign with hsign | hsign | hsign
    · rw [hsign] at h
      cases h
    all_goals
      rw [hsign, List.mem_singleton] at h
      rw [h]
      decide
  · exact .inl h

theorem Numeral.mem_text {n : Numeral} (h : c ∈ n.text) :
    c ∈ n.whole ∨ c ∈ n.decimals ∨ c ∈ n.exponentDigits ∨ c ∈ numeralMarks := by
  simp only [text, exponentText, List.mem_append] at h
  rcases h with (h | h) | h
  · exact .inl h
  · rcases mem_pointText h with hmem | rfl
    · exact .inr (.inl hmem)
    · exact .inr (.inr (.inr (by decide)))
  · rw [exponentDigits]
    cases hexponent : n.exponent with
    | none =>
      rw [hexponent] at h
      cases h
    | some e =>
      rw [hexponent] at h
      exact .inr (.inr (NumeralExponent.mem_text h))

/-- All digits of a numeral are those of ASCII. -/
structure Numeral.IsAscii (n : Numeral) : Prop where
  whole : ∀ c ∈ n.whole, isAsciiDigit c
  decimals : ∀ c ∈ n.decimals, isAsciiDigit c
  exponent : ∀ c ∈ n.exponentDigits, isAsciiDigit c

theorem Numeral.IsAscii.mem {n : Numeral} (hascii : n.IsAscii) (h : c ∈ n.text) : isAsciiDigit c ∨ c ∈ numeralMarks := by
  rcases Numeral.mem_text h with h | h | h | h
  · exact .inl (hascii.whole c h)
  · exact .inl (hascii.decimals c h)
  · exact .inl (hascii.exponent c h)
  · exact .inr h

end Characters

/-! ### Zeros at the end of a fraction -/

/-- A fraction without the zeros at its end, and without its point if nothing is left behind it. -/
def keptFraction (fraction : Option (List Char)) : Option (List Char) :=
  fraction.bind fun run => if run.rdropWhile (· = '0') = [] then none else some (run.rdropWhile (· = '0'))

section Fractions

variable {fraction : Option (List Char)}

theorem getD_keptFraction (fraction : Option (List Char)) :
    (keptFraction fraction).getD [] = (fraction.getD []).rdropWhile (· = '0') := by
  cases fraction with
  | none => rfl
  | some run =>
    rw [keptFraction, Option.bind_some, Option.getD_some]
    split_ifs with hnone
    · exact hnone.symm
    · rfl

/-- A fraction that has lost its zeros loses no more. -/
theorem keptFraction_keptFraction (fraction : Option (List Char)) :
    keptFraction (keptFraction fraction) = keptFraction fraction := by
  cases fraction with
  | none => rfl
  | some run =>
    by_cases hnone : run.rdropWhile (· = '0') = []
    · have hlost : keptFraction (some run) = none := if_pos hnone
      rw [hlost]
      rfl
    · have hkept : keptFraction (some run) = some (run.rdropWhile (· = '0')) := if_neg hnone
      rw [hkept, keptFraction, Option.bind_some, List.rdropWhile_idempotent, if_neg hnone]

theorem exists_zeros (run : List Char) : ∃ count, run = run.rdropWhile (· = '0') ++ List.replicate count '0' := by
  refine ⟨(run.rtakeWhile (· = '0')).length, ?_⟩
  have hzeros : run.rtakeWhile (· = '0') = List.replicate (run.rtakeWhile (· = '0')).length '0' :=
    List.eq_replicate_of_mem fun c hc => by simpa using List.mem_rtakeWhile_imp hc
  rw [← hzeros, List.rdropWhile_append_rtakeWhile]

end Fractions

namespace Numeral

variable {n : Numeral}

/-- A numeral without the zeros at the end of its fraction. -/
def trimmed (n : Numeral) (hwhole : n.whole ≠ []) : Numeral where
  whole := n.whole
  fraction := keptFraction n.fraction
  exponent := n.exponent
  wholeDigits := n.wholeDigits
  fractionDigits c hc := n.fractionDigits c ((List.rdropWhile_prefix _ _).subset (getD_keptFraction n.fraction ▸ hc))
  nonempty := by simp [hwhole]

/-- Zeros at the end of its fraction do not change what a numeral denotes. -/
theorem value_trimmed (hwhole : n.whole ≠ []) : (n.trimmed hwhole).value = n.value := by
  obtain ⟨count, hcount⟩ := exists_zeros n.decimals
  have hkept : (n.trimmed hwhole).decimals = n.decimals.rdropWhile (· = '0') := getD_keptFraction n.fraction
  obtain ⟨kept, hk⟩ : ∃ kept, kept = n.decimals.rdropWhile (· = '0') := ⟨_, rfl⟩
  rw [← hk] at hcount hkept
  have hpower : (n.trimmed hwhole).power = n.power := rfl
  have hfront : (n.trimmed hwhole).whole = n.whole := rfl
  rw [value, value, hkept, hpower, hfront, hcount, ← List.append_assoc, decimalValue_append_zeros, List.length_append,
    List.length_replicate]
  push_cast
  rw [mul_assoc, ← zpow_natCast, ← zpow_add₀ (by norm_num)]
  congr 2
  omega

end Numeral

end Reckoner.Number
