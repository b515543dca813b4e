import Mathlib.Data.List.TakeDrop
import Mathlib.Data.List.TakeWhile
import Mathlib.Tactic.Ring
import Reckoner.Proofs.Expression.Arithmetic
import Reckoner.Proofs.Number.DecimalNotation
import Reckoner.Proofs.Text.Runs

/-!
# Numerals

The text of a literal is read as one numeral wherever no letter, digit, underscore or point follows it, and the number
that is made of it is the exact value of the literal.
-/

namespace Reckoner.Expression

open Reckoner.Number Reckoner.Text

/-! ### Digits -/

theorem isAsciiDigit_eq_isDigit (c : Char) : isAsciiDigit c = c.isDigit := by
  simp only [isAsciiDigit, Char.isDigit, Char.le_def, ge_iff_le]

theorem isDigit_of_isAsciiDigit {c : Char} (h : isAsciiDigit c) : isDigit c := by
  rw [isDigit_of_isAscii (isAscii_of_isAsciiDigit h)]
  exact h

theorem isAsciiDigit_digitsOfNat {n : Nat} {c : Char} (h : c ∈ digitsOfNat n) : isAsciiDigit c := by
  rw [isAsciiDigit_eq_isDigit]
  exact Nat.isDigit_of_mem_toDigits (by decide) (by decide) h

theorem isAsciiDigit_digitsOfFraction {fraction : List (Fin 10)} {c : Char} (h : c ∈ digitsOfFraction fraction) :
    isAsciiDigit c := by
  obtain ⟨d, _, rfl⟩ := List.mem_map.mp h
  rw [isAsciiDigit_eq_isDigit, Nat.isDigit_digitChar]
  simp

@[simp] theorem length_digitsOfFraction (fraction : List (Fin 10)) :
    (digitsOfFraction fraction).length = fraction.length := List.length_map _

theorem digitsOfNat_ne_nil (n : Nat) : digitsOfNat n ≠ [] := Nat.toDigits_ne_nil

/-- Only the digits of zero begin with a zero. -/
theorem head?_digitsOfNat {n : Nat} (h : (digitsOfNat n).head? = some '0') : n = 0 := by
  induction n using Nat.strongRecOn with
  | ind n ih =>
    by_cases hn : n < 10
    · rw [digitsOfNat, Nat.toDigits_of_lt_base hn] at h
      simpa using h
    · rw [digitsOfNat, Nat.toDigits_of_base_le (by decide) (by omega), List.head?_append] at h
      obtain ⟨c, hc⟩ : ∃ c, (Nat.toDigits 10 (n / 10)).head? = some c :=
        Option.isSome_iff_exists.mp (by simp [Nat.toDigits_ne_nil])
      have hzero : n / 10 = 0 := ih (n / 10) (by omega) (by simpa [hc, digitsOfNat] using h)
      omega

/-! ### Values of digits -/

theorem baseDigit_of_isAsciiDigit {c : Char} (h : isAsciiDigit c) : baseDigit c = c.toNat - 48 := by
  simp only [isAsciiDigit, Bool.and_eq_true, decide_eq_true_eq] at h
  rw [baseDigit, if_pos h]

theorem ofDigits_eq_ofDigitChars {s : List Char} (h : ∀ c ∈ s, isAsciiDigit c) :
    ofDigits 10 s = Nat.ofDigitChars 10 s 0 := by
  have hfold (n : Nat) : s.foldl (fun n c => 10 * n + baseDigit c) n = Nat.ofDigitChars 10 s n := by
    induction s generalizing n with
    | nil => rfl
    | cons c rest ih =>
      rw [List.foldl_cons, Nat.ofDigitChars_cons, baseDigit_of_isAsciiDigit (h c (by simp))]
      exact ih (fun d hd => h d (List.mem_cons_of_mem c hd)) _
  exact hfold 0

/-- The digits behind a point, read as a whole number and divided by a power of ten. -/
theorem ofDigitChars_digitsOfFraction (fraction : List (Fin 10)) (n : Nat) :
    (Nat.ofDigitChars 10 (digitsOfFraction fraction) n : Rat) =
      (n + fractionValue fraction) * 10 ^ fraction.length := by
  induction fraction generalizing n with
  | nil => simp [digitsOfFraction, fractionValue]
  | cons d rest ih =>
    have hrest : digitsOfFraction (d :: rest) = Nat.digitChar d.val :: digitsOfFraction rest := rfl
    rw [hrest, Nat.ofDigitChars_cons_digitChar_of_lt_ten d.isLt, ih, fractionValue, List.length_cons, pow_succ]
    push_cast
    ring

/-! ### Lengths of runs -/

/-- Characters that could go on with a numeral. -/
def continuesNumeral (c : Char) : Bool := isAsciiWord c || c = '.'

theorem isAsciiWord_of_isAsciiDigit {c : Char} (h : isAsciiDigit c) : isAsciiWord c := by
  simp [isAsciiWord, h]

section Runs

variable {digits s : List Char}

theorem moreDigits_of_stopsAt (hs : StopsAt continuesNumeral s) : moreDigits isAsciiDigit s = 0 := by
  cases s with
  | nil => rfl
  | cons c rest =>
    have hc : continuesNumeral c = false := stopsAt_cons.mp hs
    have hdigit : isAsciiDigit c = false := by
      simp only [continuesNumeral, isAsciiWord, Bool.or_eq_false_iff] at hc
      exact hc.1.1.2
    have hunderscore : c ≠ '_' := by
      rintro rfl
      exact absurd hc (by decide)
    rw [moreDigits]
    · simp [hdigit]
    · rintro _ _ rfl
      exact absurd rfl hunderscore

theorem moreDigits_append {p : Char → Bool} (hp : p '_' = false) (hdigits : ∀ c ∈ digits, p c)
    (hs : moreDigits p s = 0) : moreDigits p (digits ++ s) = digits.length := by
  induction digits with
  | nil => exact hs
  | cons c rest ih =>
    have hc : p c := hdigits c (by simp)
    have hunderscore : c ≠ '_' := by
      rintro rfl
      rw [hp] at hc
      cases hc
    rw [List.cons_append, moreDigits]
    · simp [hc, ih fun d hd => hdigits d (List.mem_cons_of_mem c hd)]
    · rintro _ _ rfl
      exact absurd rfl hunderscore

theorem digitRun_of_stopsAt (hs : StopsAt continuesNumeral s) : digitRun isAsciiDigit s = 0 := by
  cases s with
  | nil => rfl
  | cons c rest =>
    have hc : continuesNumeral c = false := stopsAt_cons.mp hs
    simp only [continuesNumeral, isAsciiWord, Bool.or_eq_false_iff] at hc
    simp [digitRun, hc.1.1.2]

theorem digitRun_point (s : List Char) : digitRun isAsciiDigit ('.' :: s) = 0 := rfl

theorem moreDigits_point (s : List Char) : moreDigits isAsciiDigit ('.' :: s) = 0 := by
  rw [moreDigits]
  · rfl
  · rintro _ _ h
    cases h

theorem digitRun_append {p : Char → Bool} (hp : p '_' = false) (hdigits : ∀ c ∈ digits, p c)
    (hmore : moreDigits p s = 0) (hrun : digitRun p s = 0) : digitRun p (digits ++ s) = digits.length := by
  cases digits with
  | nil => exact hrun
  | cons c rest =>
    have hc : p c := hdigits c (by simp)
    rw [List.cons_append, digitRun, if_pos hc,
      moreDigits_append hp (fun d hd => hdigits d (List.mem_cons_of_mem c hd)) hmore, List.length_cons]

theorem digitRun_of_digits (hdigits : ∀ c ∈ digits, isAsciiDigit c) (hs : StopsAt continuesNumeral s) :
    digitRun isAsciiDigit (digits ++ s) = digits.length :=
  digitRun_append rfl hdigits (moreDigits_of_stopsAt hs) (digitRun_of_stopsAt hs)

/-! ### Lengths of numerals -/

theorem imaginaryLength_of_stopsAt {n : Nat} (h : StopsAt continuesNumeral (s.drop n)) : imaginaryLength n s = 0 := by
  unfold imaginaryLength
  split
  · rfl
  · split
    · rename_i hdrop
      rw [hdrop] at h
      exact absurd (stopsAt_cons.mp h) (by decide)
    · rename_i hdrop
      rw [hdrop] at h
      exact absurd (stopsAt_cons.mp h) (by decide)
    · rfl

theorem exponentLength_of_stopsAt (h : StopsAt continuesNumeral s) : exponentLength s = 0 := by
  cases s with
  | nil => rfl
  | cons c rest =>
    have hc : ¬ (c = 'e' ∨ c = 'E') := by
      rintro (rfl | rfl) <;> exact absurd (stopsAt_cons.mp h) (by decide)
    simp [exponentLength, hc]

theorem decimalLength_whole (hdigits : ∀ c ∈ digits, isAsciiDigit c) (hs : StopsAt continuesNumeral s) :
    decimalLength (digits ++ s) = 0 := by
  simp only [decimalLength, digitRun_of_digits hdigits hs, List.drop_left]
  split
  · exact absurd (stopsAt_cons.mp hs) (by decide)
  · simp [exponentLength_of_stopsAt hs]

theorem digitRun_zeros (hzeros : ∀ c ∈ digits, c = '0') (hs : StopsAt continuesNumeral s) :
    digitRun (· = '0') (digits ++ s) = digits.length := by
  refine digitRun_append rfl (by simpa using hzeros) ?_ ?_
  · cases s with
    | nil => rfl
    | cons c rest =>
      have hne {d : Char} (hd : continuesNumeral d) : c ≠ d := by
        rintro rfl
        rw [stopsAt_cons.mp hs] at hd
        cases hd
      have hzero : c ≠ '0' := hne (by decide)
      rw [moreDigits]
      · simp [hzero]
      · rintro _ _ rfl
        exact absurd rfl (hne (by decide))
  · cases s with
    | nil => rfl
    | cons c rest =>
      have hzero : c ≠ '0' := by
        rintro rfl
        exact absurd (stopsAt_cons.mp hs) (by decide)
      simp [digitRun, hzero]

/-- Behind a zero, only the letter of a base makes a numeral that is not all zeros. -/
theorem wholeLength_zero_cons (h : ∀ c ∈ s.head?, c ∉ ['x', 'X', 'b', 'B', 'o', 'O']) :
    wholeLength ('0' :: s) = digitRun (· = '0') ('0' :: s) := by
  rw [wholeLength]
  all_goals
    rintro more rfl
    exact absurd (h _ rfl) (by decide)

theorem wholeLength_zeros (hzeros : ∀ c ∈ digits, c = '0') (hsome : digits ≠ []) (hs : StopsAt continuesNumeral s) :
    wholeLength (digits ++ s) = digits.length := by
  cases digits with
  | nil => exact absurd rfl hsome
  | cons c rest =>
    obtain rfl : c = '0' := hzeros c List.mem_cons_self
    have hrun := digitRun_zeros hzeros hs
    rw [List.cons_append] at hrun ⊢
    rw [wholeLength_zero_cons, hrun]
    have hletters : ∀ d ∈ ['x', 'X', 'b', 'B', 'o', 'O'], d ≠ '0' ∧ continuesNumeral d := by decide
    intro d hd hletter
    cases rest with
    | nil =>
      have hstop := hs d hd
      rw [(hletters d hletter).2] at hstop
      cases hstop
    | cons e more =>
      obtain rfl : e = d := by simpa using hd
      exact (hletters e hletter).1 (hzeros e (by simp))

theorem wholeLength_of_ne_zero {c : Char} (hc : c ≠ '0') : wholeLength (c :: s) = digitRun isAsciiDigit (c :: s) := by
  rw [wholeLength]
  all_goals
    intro _ heq
    exact hc (List.cons.inj heq).1

/-- A run of digits that begins with a zero only if it is all zeros. -/
structure IsWhole (digits : List Char) : Prop where
  ne_nil : digits ≠ []
  areDigits : ∀ c ∈ digits, isAsciiDigit c
  areZeros : digits.head? = some '0' → ∀ c ∈ digits, c = '0'

theorem isWhole_digitsOfNat (n : Nat) : IsWhole (digitsOfNat n) where
  ne_nil := digitsOfNat_ne_nil n
  areDigits c hc := isAsciiDigit_digitsOfNat hc
  areZeros h := by
    obtain rfl : n = 0 := head?_digitsOfNat h
    decide

theorem wholeLength_append (hdigits : IsWhole digits) (hs : StopsAt continuesNumeral s) :
    wholeLength (digits ++ s) = digits.length := by
  by_cases hhead : digits.head? = some '0'
  · exact wholeLength_zeros (hdigits.areZeros hhead) hdigits.ne_nil hs
  · have hrun := digitRun_of_digits hdigits.areDigits hs
    cases digits with
    | nil => exact absurd rfl hdigits.ne_nil
    | cons c rest =>
      have hc : c ≠ '0' := by simpa using hhead
      rw [List.cons_append] at hrun ⊢
      rw [wholeLength_of_ne_zero hc, hrun]

theorem decimalLength_point {fraction : List Char} (hdigits : ∀ c ∈ digits, isAsciiDigit c)
    (hfraction : ∀ c ∈ fraction, isAsciiDigit c) (hsome : digits ≠ [] ∨ fraction ≠ [])
    (hs : StopsAt continuesNumeral s) :
    decimalLength (digits ++ '.' :: (fraction ++ s)) = digits.length + 1 + fraction.length := by
  have hrun := digitRun_append rfl hdigits (moreDigits_point (fraction ++ s)) (digitRun_point _)
  have hsome' : ¬ (digits.length = 0 ∧ fraction.length = 0) := by
    simpa [List.length_eq_zero_iff, ← not_and_or] using hsome
  simp only [decimalLength, hrun, List.drop_left, digitRun_of_digits hfraction hs, exponentLength_of_stopsAt hs, hsome',
    if_false]
  rfl

/-- Where no character goes on with a numeral, a whole number is read as one numeral. -/
theorem numeralLength_whole (hdigits : IsWhole digits) (hs : StopsAt continuesNumeral s) :
    numeralLength (digits ++ s) = digits.length := by
  have himaginary : imaginaryLength digits.length (digits ++ s) = 0 := imaginaryLength_of_stopsAt (by rwa [List.drop_left])
  have hzero : imaginaryLength 0 (digits ++ s) = 0 := rfl
  simp only [numeralLength, digitRun_of_digits hdigits.areDigits hs, himaginary, decimalLength_whole hdigits.areDigits hs,
    hzero, wholeLength_append hdigits hs, ne_eq, not_true_eq_false, if_false]

/-- Where no character goes on with a numeral, digits on both sides or on one side of a point are read as one numeral. -/
theorem numeralLength_pointed {fraction : List Char} (hdigits : ∀ c ∈ digits, isAsciiDigit c)
    (hfraction : ∀ c ∈ fraction, isAsciiDigit c) (hsome : digits ≠ [] ∨ fraction ≠ [])
    (hs : StopsAt continuesNumeral s) :
    numeralLength (digits ++ '.' :: (fraction ++ s)) = digits.length + 1 + fraction.length := by
  have hrun := digitRun_append rfl hdigits (moreDigits_point (fraction ++ s)) (digitRun_point _)
  have hdecimal := decimalLength_point hdigits hfraction hsome hs
  have hpoint : imaginaryLength digits.length (digits ++ '.' :: (fraction ++ s)) = 0 := by
    unfold imaginaryLength
    rw [List.drop_left]
    split <;> rfl
  have himaginary : imaginaryLength (digits.length + 1 + fraction.length) (digits ++ '.' :: (fraction ++ s)) = 0 := by
    apply imaginaryLength_of_stopsAt
    have hdrop : (digits ++ '.' :: (fraction ++ s)).drop (digits.length + 1 + fraction.length) = s := by
      have hlength : digits.length + 1 + fraction.length = (digits ++ '.' :: fraction).length := by
        rw [List.length_append, List.length_cons]
        omega
      have hassoc : digits ++ '.' :: (fraction ++ s) = digits ++ '.' :: fraction ++ s := by simp
      rw [hlength, hassoc, List.drop_left]
    rwa [hdrop]
  have hpositive : digits.length + 1 + fraction.length ≠ 0 := by omega
  simp only [numeralLength, hrun, hpoint, hdecimal, himaginary, ne_eq, not_true_eq_false, if_false, hpositive,
    not_false_eq_true, if_true]

theorem decimal_text (front : Option Nat) (fraction : List (Fin 10)) (s : List Char) :
    (Literal.decimal front fraction).text ++ s =
      front.elim [] digitsOfNat ++ '.' :: (digitsOfFraction fraction ++ s) := by
  simp [Literal.text]

theorem isAsciiDigit_front {front : Option Nat} {c : Char} (h : c ∈ front.elim [] digitsOfNat) : isAsciiDigit c := by
  cases front with
  | none => simp at h
  | some n => exact isAsciiDigit_digitsOfNat h

/-- A decimal literal has a digit on one side of its point. -/
theorem digits_of_isReadable {front : Option Nat} {fraction : List (Fin 10)}
    (h : (Literal.decimal front fraction).IsReadable) :
    front.elim [] digitsOfNat ≠ [] ∨ digitsOfFraction fraction ≠ [] := by
  rcases h.1 with hfront | hfraction
  · obtain ⟨n, rfl⟩ := Option.isSome_iff_exists.mp hfront
    exact .inl (digitsOfNat_ne_nil n)
  · exact .inr (by simpa [digitsOfFraction] using hfraction)

/-- Where no character goes on with a numeral, a literal is read as one numeral. -/
theorem numeralLength_append {l : Literal} (hl : l.IsReadable) (hs : StopsAt continuesNumeral s) :
    numeralLength (l.text ++ s) = l.text.length := by
  cases l with
  | whole n => exact numeralLength_whole (isWhole_digitsOfNat n) hs
  | decimal front fraction =>
    rw [decimal_text, numeralLength_pointed (fun c hc => isAsciiDigit_front hc)
      (fun c hc => isAsciiDigit_digitsOfFraction hc) (digits_of_isReadable hl) hs]
    simp [Literal.text]
    omega

end Runs

/-- Digits that are read as a run of some of them are all of that kind. -/
theorem forall_of_moreDigits {p : Char → Bool} {digits s : List Char} (hdigits : ∀ c ∈ digits, isAsciiDigit c)
    (h : digits.length ≤ moreDigits p (digits ++ s)) : ∀ c ∈ digits, p c := by
  induction digits with
  | nil => simp
  | cons c rest ih =>
    have hunderscore : c ≠ '_' := by
      rintro rfl
      exact absurd (hdigits _ List.mem_cons_self) (by decide)
    rw [List.cons_append, moreDigits] at h
    · split at h
      · rename_i hc
        have hrest := ih (fun d hd => hdigits d (List.mem_cons_of_mem c hd)) (by simpa using h)
        simpa using ⟨hc, hrest⟩
      · simp at h
    · rintro _ _ rfl
      exact absurd rfl hunderscore

theorem forall_of_digitRun {p : Char → Bool} {digits s : List Char} (hdigits : ∀ c ∈ digits, isAsciiDigit c)
    (h : digits.length ≤ digitRun p (digits ++ s)) : ∀ c ∈ digits, p c := by
  cases digits with
  | nil => simp
  | cons c rest =>
    rw [List.cons_append, digitRun] at h
    split at h
    · rename_i hc
      have hrest := forall_of_moreDigits (fun d hd => hdigits d (List.mem_cons_of_mem c hd)) (s := s) (by simpa using h)
      simpa using ⟨hc, hrest⟩
    · simp at h

/-- Digits that are read as one numeral, where no character goes on with it, begin with a zero only if they are all
    zeros. -/
theorem isWhole_of_numeralLength {digits s : List Char} (hne : digits ≠ []) (hdigits : ∀ c ∈ digits, isAsciiDigit c)
    (hs : StopsAt continuesNumeral s) (h : numeralLength (digits ++ s) = digits.length) : IsWhole digits := by
  refine ⟨hne, hdigits, ?_⟩
  intro hhead
  have himaginary : imaginaryLength digits.length (digits ++ s) = 0 := imaginaryLength_of_stopsAt (by rwa [List.drop_left])
  have hzero : imaginaryLength 0 (digits ++ s) = 0 := rfl
  simp only [numeralLength, digitRun_of_digits hdigits hs, himaginary, decimalLength_whole hdigits hs, hzero, ne_eq,
    not_true_eq_false, if_false] at h
  cases digits with
  | nil => exact absurd rfl hne
  | cons c rest =>
    obtain rfl : c = '0' := by simpa using hhead
    have hletters : ∀ d ∈ ['x', 'X', 'b', 'B', 'o', 'O'], isAsciiDigit d = false ∧ continuesNumeral d := by decide
    rw [List.cons_append, wholeLength_zero_cons] at h
    · simpa using forall_of_digitRun (p := (· = '0')) hdigits (s := s) (by rw [List.cons_append, h])
    · intro d hd hletter
      cases rest with
      | nil =>
        have hstop := hs d hd
        rw [(hletters d hletter).2] at hstop
        cases hstop
      | cons e more =>
        obtain rfl : e = d := by simpa using hd
        have hdigit := hdigits e (by simp)
        rw [(hletters e hletter).1] at hdigit
        cases hdigit

/-! ### Characters of numerals -/

section Characters

variable {p : Char → Bool} {s : List Char}

theorem isAsciiText_take_moreDigits (hp : ∀ c, p c → isAscii c) (s : List Char) :
    IsAsciiText (s.take (moreDigits p s)) := by
  fun_induction moreDigits p s with
  | case1 c rest hc ih =>
    have hunderscore : isAscii '_' := by decide
    simp [hp c hc, ih, hunderscore]
  | case2 => simp
  | case3 c rest _ hc ih => simp [hp c hc, ih]
  | case4 => simp
  | case5 => simp

theorem isAsciiText_take_digitRun (hp : ∀ c, p c → isAscii c) (s : List Char) :
    IsAsciiText (s.take (digitRun p s)) := by
  cases s with
  | nil => simp
  | cons c rest =>
    rw [digitRun]
    split
    · rename_i hc
      simp [hp c hc, isAsciiText_take_moreDigits hp rest]
    · simp

theorem isAsciiText_take_add {m n : Nat} (h : IsAsciiText (s.take m)) (h' : IsAsciiText ((s.drop m).take n)) :
    IsAsciiText (s.take (m + n)) := by
  rw [List.take_add, isAsciiText_append]
  exact ⟨h, h'⟩

theorem isAsciiText_take_exponentLength (s : List Char) : IsAsciiText (s.take (exponentLength s)) := by
  have hrun (digits : List Char) := isAsciiText_take_digitRun (fun c hc => isAscii_of_isAsciiDigit hc) digits
  unfold exponentLength
  split
  · rename_i c rest
    split
    · rename_i hc
      have hletter : isAscii c := by rcases hc with rfl | rfl <;> decide
      split
      · rename_i sign digits
        split
        · rename_i hsign
          have hsign : isAscii sign := by rcases hsign with rfl | rfl <;> decide
          dsimp only
          split
          · simp
          · simp [hletter, hsign, hrun]
        · dsimp only
          split
          · simp
          · simp only [List.take_succ_cons, isAsciiText_cons]
            exact ⟨hletter, hrun _⟩
      · simp
    · simp
  · simp

theorem isAsciiText_take_decimalLength (s : List Char) : IsAsciiText (s.take (decimalLength s)) := by
  have hrun (digits : List Char) := isAsciiText_take_digitRun (fun c hc => isAscii_of_isAsciiDigit hc) digits
  unfold decimalLength
  dsimp only
  split
  · rename_i fraction hdrop
    split
    · simp
    · have hpoint : IsAsciiText ((s.drop (digitRun isAsciiDigit s)).take 1) := by
        rw [hdrop]
        simp only [List.take_succ_cons, List.take_zero, isAsciiText_cons, isAsciiText_nil, and_true]
        decide
      have hbehind : s.drop (digitRun isAsciiDigit s + 1) = fraction := by
        rw [← List.drop_drop, hdrop]
        rfl
      refine isAsciiText_take_add (isAsciiText_take_add (isAsciiText_take_add (hrun s) hpoint) ?_) ?_
      · rw [hbehind]
        exact hrun fraction
      · rw [← List.drop_drop, hbehind]
        exact isAsciiText_take_exponentLength _
  · split
    · simp
    · exact isAsciiText_take_add (hrun s) (isAsciiText_take_exponentLength _)

theorem isAsciiText_take_basedDigits (hp : ∀ c, p c → isAscii c) (s : List Char) :
    IsAsciiText (s.take (basedDigits p s)) := by
  unfold basedDigits
  split
  · rename_i c rest
    split
    · rename_i hc
      have hunderscore : isAscii '_' := by decide
      simp [hp c hc, hunderscore, isAsciiText_take_moreDigits hp rest]
    · simp
  · exact isAsciiText_take_digitRun hp s

theorem isAscii_of_le {c d : Char} (h : c ≤ d) (hd : isAscii d) : isAscii c := by
  simp only [isAscii, decide_eq_true_eq, Char.toNat] at hd ⊢
  exact Nat.lt_of_le_of_lt h hd

theorem isAsciiText_take_wholeLength (s : List Char) : IsAsciiText (s.take (wholeLength s)) := by
  have hzeros : IsAsciiText (s.take (digitRun (· = '0') s)) := by
    apply isAsciiText_take_digitRun
    intro c hc
    obtain rfl : c = '0' := by simpa using hc
    decide
  have hbased {letter : Char} {rest : List Char} (hletter : isAscii letter) (hs : s = '0' :: letter :: rest)
      {p : Char → Bool} (hp : ∀ c, p c → isAscii c) :
      IsAsciiText (s.take (if basedDigits p rest = 0 then digitRun (· = '0') s else basedDigits p rest + 2)) := by
    split
    · exact hzeros
    · have hzero : isAscii '0' := by decide
      rw [hs]
      simp [hzero, hletter, isAsciiText_take_basedDigits hp rest]
  have hhex (c : Char) (hc : isHexDigit c) : isAscii c := by
    simp only [isHexDigit, isAsciiDigit, Bool.or_eq_true, Bool.and_eq_true, decide_eq_true_eq] at hc
    rcases hc with (⟨_, hc⟩ | ⟨_, hc⟩) | ⟨_, hc⟩ <;> exact isAscii_of_le hc (by decide)
  have hbinary (c : Char) (hc : isBinaryDigit c) : isAscii c := by
    simp only [isBinaryDigit, Bool.or_eq_true, decide_eq_true_eq] at hc
    rcases hc with rfl | rfl <;> decide
  have hoctal (c : Char) (hc : isOctalDigit c) : isAscii c := by
    simp only [isOctalDigit, Bool.and_eq_true, decide_eq_true_eq] at hc
    exact isAscii_of_le hc.2 (by decide)
  unfold wholeLength
  dsimp only
  split
  · exact hbased (by decide) rfl hhex
  · exact hbased (by decide) rfl hhex
  · exact hbased (by decide) rfl hbinary
  · exact hbased (by decide) rfl hbinary
  · exact hbased (by decide) rfl hoctal
  · exact hbased (by decide) rfl hoctal
  · exact hzeros
  · exact isAsciiText_take_digitRun (fun c hc => isAscii_of_isAsciiDigit hc) s

theorem isAsciiText_take_imaginaryLength {n : Nat} (h : IsAsciiText (s.take n)) :
    IsAsciiText (s.take (imaginaryLength n s)) := by
  have hletter {c : Char} {rest : List Char} (hc : isAscii c) (hdrop : s.drop n = c :: rest) :
      IsAsciiText (s.take (n + 1)) := by
    apply isAsciiText_take_add h
    simp [hdrop, hc]
  unfold imaginaryLength
  split
  · simp
  · split
    · rename_i hdrop
      exact hletter (by decide) hdrop
    · rename_i hdrop
      exact hletter (by decide) hdrop
    · simp

/-- A numeral is made of ASCII characters. -/
theorem isAsciiText_take_numeralLength (s : List Char) : IsAsciiText (s.take (numeralLength s)) := by
  have hdigits := isAsciiText_take_digitRun (fun c hc => isAscii_of_isAsciiDigit hc) s
  have hdecimal := isAsciiText_take_decimalLength s
  unfold numeralLength
  dsimp only
  split
  · exact isAsciiText_take_imaginaryLength hdigits
  · split
    · exact isAsciiText_take_imaginaryLength hdecimal
    · split
      · exact hdecimal
      · exact isAsciiText_take_wholeLength s

end Characters

/-! ### Values of numerals -/

theorem filter_digits {s : List Char} {c : Char} (h : ∀ d ∈ s, isAsciiDigit d ∨ d = '.') (hc : ¬ isAsciiDigit c)
    (hpoint : c ≠ '.') : s.filter (· ≠ c) = s := by
  rw [List.filter_eq_self]
  intro d hd
  have hne : d ≠ c := by
    rintro rfl
    rcases h d hd with hdigit | rfl
    · exact hc hdigit
    · exact hpoint rfl
  simpa using hne

theorem mem_literal_text {l : Literal} {c : Char} (h : c ∈ l.text) : isAsciiDigit c ∨ c = '.' := by
  cases l with
  | whole n => exact .inl (isAsciiDigit_digitsOfNat h)
  | decimal front fraction =>
    simp only [Literal.text, List.mem_append, List.mem_cons] at h
    rcases h with h | rfl | h
    · exact .inl (isAsciiDigit_front h)
    · exact .inr rfl
    · exact .inl (isAsciiDigit_digitsOfFraction h)

theorem not_mem_digits {s : List Char} {c : Char} (h : ∀ d ∈ s, isAsciiDigit d) (hc : isAsciiDigit c = false) :
    c ∉ s := by
  intro hmem
  rw [h c hmem] at hc
  cases hc

theorem wholeValue?_of_isWhole {digits : List Char} (h : IsWhole digits) (hlength : digits.length ≤ maxDigits) :
    wholeValue? digits = some (Nat.ofDigitChars 10 digits 0) := by
  have hplain : digits.filter (· ≠ '_') = digits :=
    filter_digits (fun d hd => .inl (h.areDigits d hd)) (by decide) (by decide)
  have hvalue := ofDigits_eq_ofDigitChars h.areDigits
  unfold wholeValue?
  rw [hplain]
  cases digits with
  | nil => exact absurd rfl h.ne_nil
  | cons c rest =>
    have hzero : ¬ (c = '0' ∧ (c :: rest).any (· ≠ '0')) := by
      rintro ⟨rfl, hany⟩
      obtain ⟨d, hd, hne⟩ := List.any_eq_true.mp hany
      simp [h.areZeros rfl d hd] at hne
    -- a letter behind the first digit would give the numeral another base
    have hsecond {d : Char} {tail : List Char} (hrest : rest = d :: tail) : isAsciiDigit d :=
      h.areDigits d (by simp [hrest])
    dsimp only
    split
    all_goals try
      rename_i heq
      exact absurd (hsecond (List.cons.inj heq).2) (by decide)
    · rename_i heq
      cases heq
    · rename_i heq
      obtain ⟨rfl, -⟩ := List.cons.inj heq
      rw [if_neg (by omega), if_neg hzero, hvalue]

theorem wholeValue?_digitsOfNat {n : Nat} (h : (digitsOfNat n).length ≤ maxDigits) :
    wholeValue? (digitsOfNat n) = some n := by
  have hvalue : Nat.ofDigitChars 10 (digitsOfNat n) 0 = n := Nat.ofDigitChars_ten_toDigits
  rw [wholeValue?_of_isWhole (isWhole_digitsOfNat n) h, hvalue]

def Literal.maker : Literal → Maker
  | .whole _ => .whole
  | .decimal _ _ => .decimal

/-- A numeral of digits and points is a whole number or a decimal, according to whether it has a point. -/
theorem numeralLiteral_of_digits {s : List Char} (h : ∀ c ∈ s, isAsciiDigit c ∨ c = '.') :
    numeralLiteral (String.ofList s) = [.literal (if s.contains '.' then .decimal else .whole) (String.ofList s)] := by
  have hnone {c : Char} (hc : isAsciiDigit c = false) (hpoint : c ≠ '.') : c ∉ s := by
    intro hmem
    rcases h c hmem with hdigit | heq
    · rw [hc] at hdigit
      cases hdigit
    · exact hpoint heq
  have hj : ¬ (s.getLast? = some 'j' ∨ s.getLast? = some 'J') := by
    rintro (hlast | hlast)
    · exact hnone (by decide) (by decide) (List.mem_of_getLast? hlast)
    · exact hnone (by decide) (by decide) (List.mem_of_getLast? hlast)
  have he : s.contains 'e' = false := by simpa using hnone (by decide) (by decide)
  have hE : s.contains 'E' = false := by simpa using hnone (by decide) (by decide)
  simp only [numeralLiteral, String.toList_ofList, hj, if_false, he, hE, Bool.or_self, Bool.false_and, Bool.or_false]

theorem contains_point {l : Literal} : l.text.contains '.' = decide (l.maker = .decimal) := by
  cases l with
  | whole n =>
    have hpoint : '.' ∉ digitsOfNat n :=
      not_mem_digits (fun c hc => isAsciiDigit_digitsOfNat hc) (by decide)
    simpa [Literal.text, Literal.maker] using hpoint
  | decimal front fraction => simp [Literal.text, Literal.maker]

theorem numeralLiteral_text (l : Literal) :
    numeralLiteral (String.ofList l.text) = [.literal l.maker (String.ofList l.text)] := by
  rw [numeralLiteral_of_digits fun c hc => mem_literal_text hc, contains_point]
  cases l <;> rfl

section Pointed

variable {front fraction : List Char}

theorem mem_pointed (hfront : ∀ c ∈ front, isAsciiDigit c) (hfraction : ∀ c ∈ fraction, isAsciiDigit c) {c : Char}
    (h : c ∈ front ++ '.' :: fraction) : isAsciiDigit c ∨ c = '.' := by
  rcases List.mem_append.mp h with h | h
  · exact .inl (hfront c h)
  · rcases List.mem_cons.mp h with rfl | h
    · exact .inr rfl
    · exact .inl (hfraction c h)

end Pointed

/-! ### Values of decimal texts -/

/-- The value of the parts of a decimal numeral. -/
theorem DecimalParts.value_eq (p : DecimalParts) :
    p.value = (ofDigits 10 (p.whole ++ p.fraction) : Rat) * 10 ^ (p.exponent - p.fraction.length) := by
  have hcases (n : Nat) (e : Int) :
      (if 0 ≤ e then ((n * 10 ^ e.toNat : Nat) : Rat) else mkRat n (10 ^ (-e).toNat)) = n * 10 ^ e := by
    split_ifs with he
    · obtain ⟨k, rfl⟩ := Int.eq_ofNat_of_zero_le he
      rw [Int.toNat_natCast, zpow_natCast]
      push_cast
      rfl
    · obtain ⟨k, hk⟩ := Int.eq_ofNat_of_zero_le (by omega : 0 ≤ -e)
      rw [hk, Int.toNat_natCast, Rat.mkRat_eq_div, div_eq_mul_inv, ← neg_neg e, hk, zpow_neg, zpow_natCast]
      push_cast
      rfl
  exact hcases _ _

/-- A numeral with digits of ASCII in which no part is too long to be read. -/
structure IsReadableNumeral (n : Numeral) : Prop where
  ascii : n.IsAscii
  whole : n.whole.length ≤ maxDigits
  decimals : n.decimals.length ≤ maxDigits
  exponent : n.exponentDigits.length ≤ maxDigits

section DecimalTexts

variable {n : Numeral}

theorem span_numeral (hascii : n.IsAscii) :
    n.text.span (fun c => c ≠ 'e' && c ≠ 'E') = (n.whole ++ pointText n.fraction, n.exponentText) := by
  have hall : ∀ c ∈ n.whole ++ pointText n.fraction, (c ≠ 'e' && c ≠ 'E') = true := by
    intro c hc
    have hdigit : isAsciiDigit c ∨ c = '.' := by
      rcases List.mem_append.mp hc with hc | hc
      · exact .inl (hascii.whole c hc)
      · exact (mem_pointText hc).imp_left (hascii.decimals c)
    rcases hdigit with hdigit | rfl
    · have hletters : c ≠ 'e' ∧ c ≠ 'E' := by
        constructor <;>
        · rintro rfl
          exact absurd hdigit (by decide)
      simp [hletters]
    · decide
  have hstops : StopsAt (fun c => c ≠ 'e' && c ≠ 'E') n.exponentText := by
    rw [Numeral.exponentText]
    cases n.exponent with
    | none => exact stopsAt_nil
    | some e =>
      apply stopsAt_cons.mpr
      rcases e.isLetter with h | h <;> rw [h] <;> decide
  rw [Numeral.text, List.span_eq_takeWhile_dropWhile, List.takeWhile_append_of_pos hall,
    List.dropWhile_append_of_pos hall, takeWhile_of_stopsAt hstops, dropWhile_of_stopsAt hstops, List.append_nil]

theorem span_pointText (hascii : n.IsAscii) :
    (n.whole ++ pointText n.fraction).span (· ≠ '.') = (n.whole, pointText n.fraction) := by
  have hall : ∀ c ∈ n.whole, decide (c ≠ '.') = true := by
    intro c hc
    simpa using ne_of_mem_of_not_mem hc (not_mem_digits hascii.whole (by decide))
  have hstops : StopsAt (fun c => decide (c ≠ '.')) (pointText n.fraction) := by
    cases n.fraction with
    | none => exact stopsAt_nil
    | some run => exact stopsAt_cons.mpr (by decide)
  rw [List.span_eq_takeWhile_dropWhile, List.takeWhile_append_of_pos hall, List.dropWhile_append_of_pos hall,
    takeWhile_of_stopsAt hstops, dropWhile_of_stopsAt hstops, List.append_nil]

/-- The parts of a numeral are found where they stand. -/
theorem decimalParts?_text (h : IsReadableNumeral n) : decimalParts? n.text = some ⟨n.whole, n.decimals, n.power⟩ := by
  have hplain : n.text.filter (· ≠ '_') = n.text := by
    rw [List.filter_eq_self]
    intro c hc
    have hne : c ≠ '_' := by
      rintro rfl
      exact absurd (h.ascii.mem hc) (by decide)
    simpa using hne
  have hdecimals : (pointText n.fraction).drop 1 = n.decimals := by
    rw [Numeral.decimals]
    cases n.fraction <;> rfl
  have hlength : ¬ (maxDigits < n.whole.length ∨ maxDigits < n.decimals.length ∨ maxDigits < n.exponentDigits.length) := by
    have hwhole := h.whole
    have hdecimals := h.decimals
    have hexponent := h.exponent
    omega
  have hsize : ofDigits 10 n.exponentDigits = decimalValue n.exponentDigits := by
    rw [ofDigits_eq_ofDigitChars h.ascii.exponent, decimalValue_eq_ofDigitChars h.ascii.exponent]
  have hdigits := h.ascii.exponent
  simp only [decimalParts?, hplain, span_numeral h.ascii, span_pointText h.ascii, hdecimals]
  rw [Numeral.exponentText, Numeral.power]
  rw [Numeral.exponentDigits] at hlength hsize hdigits
  cases hexponent : n.exponent with
  | none =>
    rw [hexponent] at hlength
    exact if_neg hlength
  | some e =>
    rw [hexponent, Option.elim_some] at hlength hsize hdigits
    rw [Option.elim_some, NumeralExponent.text, Option.elim_some, NumeralExponent.value, ← hsize, List.drop_succ_cons,
      List.drop_zero]
    rcases e.isSign with hsign | hsign | hsign
    · rw [hsign, List.nil_append]
      -- the digits of an exponent without a sign begin with neither sign
      obtain ⟨c, rest, hc⟩ := List.exists_cons_of_ne_nil e.nonempty
      have hfirst : isAsciiDigit c := hdigits c (by simp [hc])
      split
      · rename_i heq
        rw [hc] at heq
        rw [(List.cons.inj heq).1] at hfirst
        exact absurd hfirst (by decide)
      · rename_i heq
        rw [hc] at heq
        rw [(List.cons.inj heq).1] at hfirst
        exact absurd hfirst (by decide)
      · rw [if_neg hlength]
        rfl
    · rw [hsign]
      exact if_neg hlength
    · rw [hsign]
      exact if_neg hlength

/-- A numeral begins with a digit or with its point. -/
theorem exists_first_numeral (hascii : n.IsAscii) : ∃ c rest, n.text = c :: rest ∧ (isAsciiDigit c ∨ c = '.') := by
  rw [Numeral.text]
  cases hwhole : n.whole with
  | cons c rest => exact ⟨c, _, rfl, .inl (hascii.whole c (by simp [hwhole]))⟩
  | nil =>
    cases hfraction : n.fraction with
    | none => exact absurd (by rw [hwhole, hfraction]; rfl) n.nonempty
    | some run => exact ⟨'.', _, rfl, .inr rfl⟩

theorem any_isAsciiDigit_numeral (hascii : n.IsAscii) : n.text.any isAsciiDigit := by
  obtain ⟨c, hc⟩ := List.exists_mem_of_ne_nil _ n.nonempty
  rw [List.any_eq_true]
  rcases List.mem_append.mp hc with hwhole | hdecimals
  · exact ⟨c, by simp [Numeral.text, hwhole], hascii.whole c hwhole⟩
  · have hmem : c ∈ pointText n.fraction := by
      cases hfraction : n.fraction with
      | none => simp [hfraction] at hdecimals
      | some run => exact List.mem_cons_of_mem _ (by simpa [hfraction] using hdecimals)
    exact ⟨c, by simp [Numeral.text, hmem], hascii.decimals c hdecimals⟩

theorem value_numeral (hascii : n.IsAscii) : DecimalParts.value ⟨n.whole, n.decimals, n.power⟩ = n.value := by
  have hall : ∀ c ∈ n.whole ++ n.decimals, isAsciiDigit c := List.forall_mem_append.mpr ⟨hascii.whole, hascii.decimals⟩
  rw [DecimalParts.value_eq, Numeral.value, ofDigits_eq_ofDigitChars hall, decimalValue_eq_ofDigitChars hall]

/-- The text of a numeral denotes the value of the numeral. -/
theorem rationalOfText?_numeral (h : IsReadableNumeral n) : rationalOfText? (String.ofList n.text) = some n.value := by
  have hmark : ∀ c ∈ numeralMarks, c ≠ ' ' ∧ (isAsciiDigit c || c = '.' || c = '_' || c = 'e' || c = 'E' || c = '+' ||
      c = '-') = true := by
    decide
  have hblank : n.text.filter (· ≠ ' ') = n.text := by
    rw [List.filter_eq_self]
    intro c hc
    have hne : c ≠ ' ' := by
      rintro rfl
      exact absurd (h.ascii.mem hc) (by decide)
    simpa using hne
  have hlength : rationalOfText?.numeralLength n.text = n.text.length := by
    rw [rationalOfText?.numeralLength, if_pos (any_isAsciiDigit_numeral h.ascii), List.takeWhile_eq_self_iff.mpr]
    intro c hc
    rcases h.ascii.mem hc with hdigit | hother
    · simp [hdigit]
    · exact (hmark c hother).2
  obtain ⟨c, rest, hfirst, hc⟩ := exists_first_numeral h.ascii
  have hsign {sign : Char} {more : List Char} (hsign : sign = '-' ∨ sign = '+') : n.text ≠ sign :: more := by
    intro heq
    rw [hfirst] at heq
    rw [(List.cons.inj heq).1] at hc
    rcases hsign with rfl | rfl <;> exact absurd hc (by decide)
  unfold rationalOfText?
  rw [String.toList_ofList, hblank]
  dsimp only
  split
  · rename_i heq
    exact absurd heq (hsign (.inl rfl))
  · rename_i heq
    exact absurd heq (hsign (.inr rfl))
  · rw [if_pos ⟨by rw [hlength, hfirst]; simp, hlength⟩, decimalParts?_text h]
    simp [value_numeral h.ascii]

/-- The text of a decimal without exponent denotes its digits, moved behind the point. -/
theorem rationalOfText?_pointed {front fraction : List Char} (hfront : ∀ c ∈ front, isAsciiDigit c)
    (hfraction : ∀ c ∈ fraction, isAsciiDigit c) (hsome : front ≠ [] ∨ fraction ≠ [])
    (hfrontLength : front.length ≤ maxDigits) (hfractionLength : fraction.length ≤ maxDigits) :
    rationalOfText? (String.ofList (front ++ '.' :: fraction)) =
      some ((Nat.ofDigitChars 10 (front ++ fraction) 0 : Rat) / 10 ^ fraction.length) := by
  obtain ⟨n, hn⟩ : ∃ n : Numeral, n.whole = front ∧ n.fraction = some fraction ∧ n.exponent = none :=
    ⟨⟨front, some fraction, none, fun c hc => isDigit_of_isAsciiDigit (hfront c hc),
      fun c hc => isDigit_of_isAsciiDigit (hfraction c hc), by simpa [← not_and_or] using hsome⟩, rfl, rfl, rfl⟩
  obtain ⟨hwhole, hpoint, hexponent⟩ := hn
  have hdecimals : n.decimals = fraction := by rw [Numeral.decimals, hpoint, Option.getD_some]
  have hnone : n.exponentDigits = [] := by rw [Numeral.exponentDigits, hexponent, Option.elim_none]
  have hascii : n.IsAscii := ⟨hwhole ▸ hfront, hdecimals ▸ hfraction, by simp [hnone]⟩
  have htext : n.text = front ++ '.' :: fraction := by
    rw [Numeral.text, Numeral.exponentText, hwhole, hpoint, hexponent, Option.elim_none, List.append_nil, pointText]
  have hvalue : n.value = Nat.ofDigitChars 10 (front ++ fraction) 0 / 10 ^ fraction.length := by
    have hall : ∀ c ∈ front ++ fraction, isAsciiDigit c := List.forall_mem_append.mpr ⟨hfront, hfraction⟩
    rw [Numeral.value, Numeral.power, hexponent, Option.elim_none, hwhole, hdecimals, decimalValue_eq_ofDigitChars hall,
      zero_sub, zpow_neg, zpow_natCast, div_eq_mul_inv]
  rw [← htext, ← hvalue]
  exact rationalOfText?_numeral ⟨hascii, hwhole ▸ hfrontLength, hdecimals ▸ hfractionLength, by simp [hnone]⟩

end DecimalTexts

theorem ofDigits_front (front : Option Nat) : Nat.ofDigitChars 10 (front.elim [] digitsOfNat) 0 = front.getD 0 := by
  cases front with
  | none => rfl
  | some n => exact Nat.ofDigitChars_ten_toDigits

/-- The text of a decimal literal denotes its value. -/
theorem rationalOfText?_text {front : Option Nat} {fraction : List (Fin 10)}
    (h : (Literal.decimal front fraction).IsReadable) :
    rationalOfText? (String.ofList (Literal.decimal front fraction).text) =
      some (Literal.decimal front fraction).value := by
  have hvalue : (Nat.ofDigitChars 10 (front.elim [] digitsOfNat ++ digitsOfFraction fraction) 0 : Rat) =
      (Literal.decimal front fraction).value * 10 ^ (digitsOfFraction fraction).length := by
    rw [Nat.ofDigitChars_append, ofDigits_front, ofDigitChars_digitsOfFraction, length_digitsOfFraction]
    rfl
  rw [Literal.text, rationalOfText?_pointed (fun c hc => isAsciiDigit_front hc)
    (fun c hc => isAsciiDigit_digitsOfFraction hc) (digits_of_isReadable h) h.2.1 (by simpa using h.2.2), hvalue, mul_div_cancel_right₀]
  exact pow_ne_zero _ (by decide)

end Reckoner.Expression
