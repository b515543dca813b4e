import Reckoner.Proofs.Expression.Layout

/-!
# Exponents of numerals

The scanner cuts a text into pieces, some of which are numerals, and a numeral may end in an exponent.  The guard of
literals looks for exponents in the raw text.  Here is how a numeral is made, and when the guard finds its exponent.
-/

namespace Reckoner.Expression

open Reckoner.Text

/-! ### Exponents -/

/-- The characters in front of the letter of an exponent. -/
def isMantissa (c : Char) : Bool := isAsciiDigit c || c = '_' || c = '.'

def isDigitOrUnderscore (c : Char) : Bool := isAsciiDigit c || c = '_'

/-- The digits of the exponent of a numeral, without its sign and without underscores. -/
def exponentField? (numeral : List Char) : Option (List Char) :=
  match numeral.dropWhile isMantissa with
  | c :: rest =>
    if c = 'e' ∨ c = 'E' then some (((splitSign rest).2.takeWhile isDigitOrUnderscore).filter (· ≠ '_')) else none
  | [] => none

def isExponentLetter (c : Char) : Bool := c = 'e' || c = 'E'

/-- A numeral in front of a text, with the parts that the scanner finds in it. -/
inductive IsRead : List Char → List Char → Prop
  | plain {mantissa suffix : List Char} (hmantissa : ∀ c ∈ mantissa, isMantissa c)
      (hsuffix : ∀ c ∈ suffix, isAsciiWord c)
      (hletter : ∀ c ∈ suffix.head?, isMantissa c = false ∧ isExponentLetter c = false) (after : List Char) :
      IsRead (mantissa ++ suffix) after
  | exponent {whole fraction sign digits suffix after : List Char} {letter : Char}
      (hwhole : ∀ c ∈ whole, isDigitOrUnderscore c)
      (hfraction : fraction = [] ∨ ∃ run, fraction = '.' :: run ∧ ∀ c ∈ run, isDigitOrUnderscore c)
      (hletter : isExponentLetter letter) (hsign : sign ∈ [[], ['+'], ['-']]) (hdigits : digits ≠ [])
      (hrun : digitRun isAsciiDigit (digits ++ (suffix ++ after)) = digits.length)
      (hsuffix : suffix ∈ [[], ['j'], ['J']]) :
      IsRead (whole ++ fraction ++ letter :: (sign ++ digits ++ suffix)) after

/-- Nothing, or a point with characters of one kind behind it. -/
def IsFraction (p : Char → Bool) (s : List Char) : Prop := s = [] ∨ ∃ run, s = '.' :: run ∧ ∀ c ∈ run, p c

theorem IsFraction.imp {p q : Char → Bool} {s : List Char} (h : IsFraction p s) (hpq : ∀ c ∈ s, p c → q c) :
    IsFraction q s := by
  rcases h with rfl | ⟨run, rfl, hrun⟩
  · exact .inl rfl
  · exact .inr ⟨run, rfl, fun c hc => hpq c (List.mem_cons_of_mem _ hc) (hrun c hc)⟩

theorem IsFraction.mem {p : Char → Bool} {s : List Char} (h : IsFraction p s) {c : Char} (hc : c ∈ s) :
    c = '.' ∨ p c := by
  rcases h with rfl | ⟨run, rfl, hrun⟩
  · cases hc
  · exact (List.mem_cons.mp hc).imp_right (hrun c)

/-! ### Runs of digits -/

section Runs

variable {p : Char → Bool} {s : List Char}

theorem mem_take_moreDigits {c : Char} (h : c ∈ s.take (moreDigits p s)) : p c ∨ c = '_' := by
  fun_induction moreDigits p s with
  | case1 d rest hd ih =>
    simp only [List.take_succ_cons, List.mem_cons] at h
    rcases h with rfl | rfl | h
    · exact .inr rfl
    · exact .inl hd
    · exact ih h
  | case2 => simp at h
  | case3 d rest _ hd ih =>
    rcases List.mem_cons.mp h with rfl | h
    · exact .inl hd
    · exact ih h
  | case4 => simp at h
  | case5 => simp at h

theorem mem_take_digitRun {c : Char} (h : c ∈ s.take (digitRun p s)) : p c ∨ c = '_' := by
  cases s with
  | nil => simp at h
  | cons d rest =>
    rw [digitRun] at h
    split at h
    · rename_i hd
      rcases List.mem_cons.mp h with rfl | h
      · exact .inl hd
      · exact mem_take_moreDigits h
    · simp at h

theorem length_take_digitRun (p : Char → Bool) (s : List Char) : (s.take (digitRun p s)).length = digitRun p s := by
  have hle : digitRun p s ≤ s.length := by
    have hmore (s : List Char) : moreDigits p s ≤ s.length := by
      fun_induction moreDigits p s with
      | case1 d rest hd ih => simpa using ih
      | case2 => simp
      | case3 d rest _ hd ih => simpa using ih
      | case4 => simp
      | case5 => simp
    cases s with
    | nil => simp [digitRun]
    | cons d rest =>
      rw [digitRun]
      split
      · simpa using hmore rest
      · simp
  simpa using hle

/-- Behind a run of digits stands no digit. -/
theorem stopsAt_drop_digitRun (s : List Char) : StopsAt isAsciiDigit (s.drop (digitRun isAsciiDigit s)) := by
  have hmore (s : List Char) : StopsAt isAsciiDigit (s.drop (moreDigits isAsciiDigit s)) := by
    fun_induction moreDigits isAsciiDigit s with
    | case1 d rest hd ih => simpa using ih
    | case2 d rest hd =>
      rw [List.drop_zero, stopsAt_cons]
      decide
    | case3 d rest _ hd ih => simpa using ih
    | case4 d rest _ hd => simpa using hd
    | case5 => simp
  cases s with
  | nil => simp
  | cons d rest =>
    rw [digitRun]
    split
    · exact hmore rest
    · rename_i hd
      simpa using hd

end Runs

/-! ### The parts of a numeral -/

section Parts

variable {s : List Char}

/-- A text that begins with an exponent, taken apart. -/
theorem exists_exponent (h : exponentLength s ≠ 0) :
    ∃ letter sign digits after, s = letter :: (sign ++ digits ++ after) ∧ isExponentLetter letter ∧
      sign ∈ [[], ['+'], ['-']] ∧ digits ≠ [] ∧ digitRun isAsciiDigit (digits ++ after) = digits.length ∧
      exponentLength s = sign.length + digits.length + 1 := by
  have hdigits {t : List Char} (hrun : digitRun isAsciiDigit t ≠ 0) :
      ∃ digits after, t = digits ++ after ∧ digits ≠ [] ∧ digitRun isAsciiDigit t = digits.length := by
    refine ⟨t.take (digitRun isAsciiDigit t), t.drop (digitRun isAsciiDigit t), (List.take_append_drop _ _).symm, ?_,
      (length_take_digitRun _ _).symm⟩
    rw [ne_eq, ← List.length_eq_zero_iff, length_take_digitRun]
    exact hrun
  unfold exponentLength at h ⊢
  split at h
  · rename_i c rest
    split at h
    swap
    · exact absurd rfl h
    rename_i hc
    have hletter : isExponentLetter c := by simpa [isExponentLetter] using hc
    simp only [hc, if_true]
    cases rest with
    | nil => exact absurd rfl h
    | cons sign rest =>
      dsimp only at h ⊢
      by_cases hsign : sign = '+' ∨ sign = '-'
      · simp only [hsign, if_true] at h ⊢
        have hrun : digitRun isAsciiDigit rest ≠ 0 := by
          intro hzero
          simp [hzero] at h
        obtain ⟨digits, after, rfl, hne, hlength⟩ := hdigits hrun
        refine ⟨c, [sign], digits, after, by simp, hletter, ?_, hne, hlength, ?_⟩
        · rcases hsign with rfl | rfl <;> simp
        · rw [if_neg hrun, hlength, List.length_singleton]
          omega
      · simp only [hsign, if_false] at h ⊢
        have hrun : digitRun isAsciiDigit (sign :: rest) ≠ 0 := by
          intro hzero
          simp [hzero] at h
        obtain ⟨digits, after, heq, hne, hlength⟩ := hdigits hrun
        refine ⟨c, [], digits, after, by simp [heq], hletter, by simp, hne, by rw [← heq, hlength], ?_⟩
        rw [if_neg hrun, hlength, List.length_nil]
        omega
  · exact absurd rfl h

/-- A text that begins with a decimal numeral: digits, a point and more digits or neither, and perhaps an exponent. -/
theorem exists_decimal (h : decimalLength s ≠ 0) :
    ∃ whole fraction tail, s = whole ++ fraction ++ tail ∧ (∀ c ∈ whole, isDigitOrUnderscore c) ∧
      IsFraction isDigitOrUnderscore fraction ∧
      decimalLength s = whole.length + fraction.length + exponentLength tail := by
  have hrun (t : List Char) : ∀ c ∈ t.take (digitRun isAsciiDigit t), isDigitOrUnderscore c := by
    intro c hc
    simpa [isDigitOrUnderscore] using mem_take_digitRun hc
  refine ⟨s.take (digitRun isAsciiDigit s), ?_⟩
  have hsplit := List.take_append_drop (digitRun isAsciiDigit s) s
  unfold decimalLength at h ⊢
  dsimp only at h ⊢
  generalize hdrop : s.drop (digitRun isAsciiDigit s) = behind at h hsplit ⊢
  split at h
  · rename_i fraction
    refine ⟨'.' :: fraction.take (digitRun isAsciiDigit fraction), fraction.drop (digitRun isAsciiDigit fraction), ?_,
      hrun s, .inr ⟨_, rfl, hrun fraction⟩, ?_⟩
    · conv_lhs => rw [← hsplit]
      simp
    · split at h
      · exact absurd rfl h
      · rename_i hsome
        simp only [hsome, if_false, length_take_digitRun, List.length_cons]
        omega
  · rename_i hpoint
    refine ⟨[], behind, by simp [hsplit], hrun s, .inl rfl, ?_⟩
    split at h
    · exact absurd rfl h
    · rename_i hsome
      rw [if_neg hsome, length_take_digitRun, List.length_nil]
      omega

theorem isMantissa_of_isDigitOrUnderscore {c : Char} (h : isDigitOrUnderscore c) : isMantissa c := by
  simp only [isMantissa, isDigitOrUnderscore, Bool.or_eq_true] at h ⊢
  exact .inl h

theorem isWord_of_isMantissa {c : Char} (h : isMantissa c) : isWord c ∨ c = '.' := by
  simp only [isMantissa, Bool.or_eq_true, decide_eq_true_eq] at h
  rcases h with (hdigit | rfl) | rfl
  · exact .inl (isWord_of_isAsciiWord (isAsciiWord_of_isAsciiDigit hdigit))
  · exact .inl (by decide)
  · exact .inr rfl

theorem isDigit_of_isDigitOrUnderscore {c : Char} (h : isDigitOrUnderscore c) (hc : c ≠ '_') : isDigit c := by
  simp only [isDigitOrUnderscore, Bool.or_eq_true, decide_eq_true_eq, hc, or_false] at h
  exact isDigit_of_isAsciiDigit h

/-- The letter of an imaginary numeral goes on with the word. -/
theorem isAsciiWord_of_suffix {suffix : List Char} (h : suffix ∈ [[], ['j'], ['J']]) : ∀ c ∈ suffix, isAsciiWord c := by
  have hall : ∀ suffix ∈ [[], ['j'], ['J']], ∀ c ∈ suffix, isAsciiWord c := by decide
  exact hall suffix h

theorem isMantissa_of_mem {whole fraction : List Char} (hwhole : ∀ c ∈ whole, isDigitOrUnderscore c)
    (hfraction : IsFraction isDigitOrUnderscore fraction) {c : Char} (hc : c ∈ whole ++ fraction) : isMantissa c := by
  rcases List.mem_append.mp hc with hc | hc
  · exact isMantissa_of_isDigitOrUnderscore (hwhole c hc)
  · rcases hfraction.mem hc with rfl | hc
    · decide
    · exact isMantissa_of_isDigitOrUnderscore hc

theorem imaginaryLength_cases (n : Nat) (s : List Char) : imaginaryLength n s = 0 ∨
    ∃ suffix after, suffix ∈ [['j'], ['J']] ∧ s.drop n = suffix ++ after ∧ imaginaryLength n s = n + 1 := by
  unfold imaginaryLength
  split
  · exact .inl rfl
  · split
    · rename_i after hdrop
      exact .inr ⟨['j'], after, by simp, hdrop, rfl⟩
    · rename_i after hdrop
      exact .inr ⟨['J'], after, by simp, hdrop, rfl⟩
    · exact .inl rfl

theorem isRead_suffix {mantissa suffix after : List Char} (hmantissa : ∀ c ∈ mantissa, isMantissa c)
    (hsuffix : suffix ∈ [[], ['j'], ['J']]) : IsRead (mantissa ++ suffix) after := by
  have hletters : ∀ suffix ∈ [[], ['j'], ['J']], ∀ c ∈ suffix.head?, isMantissa c = false ∧ isExponentLetter c = false := by
    decide
  exact .plain hmantissa (isAsciiWord_of_suffix hsuffix) (hletters suffix hsuffix) after

theorem isRead_decimal (h : decimalLength s ≠ 0) {suffix after : List Char} (hsuffix : suffix ∈ [[], ['j'], ['J']])
    (hdrop : s.drop (decimalLength s) = suffix ++ after) : IsRead (s.take (decimalLength s) ++ suffix) after := by
  obtain ⟨whole, fraction, tail, rfl, hwhole, hfraction, hlength⟩ := exists_decimal h
  rw [hlength, ← List.length_append] at hdrop ⊢
  by_cases hzero : exponentLength tail = 0
  · rw [hzero, Nat.add_zero, List.take_left]
    exact isRead_suffix (fun c hc => isMantissa_of_mem hwhole hfraction hc) hsuffix
  · obtain ⟨letter, sign, digits, behind, rfl, hletter, hsign, hdigits, hrun, htail⟩ := exists_exponent hzero
    have hsplit : whole ++ fraction ++ letter :: (sign ++ digits ++ behind) =
        (whole ++ fraction ++ letter :: (sign ++ digits)) ++ behind := by
      simp
    have htotal : (whole ++ fraction).length + exponentLength (letter :: (sign ++ digits ++ behind)) =
        (whole ++ fraction ++ letter :: (sign ++ digits)).length := by
      simp only [htail, List.length_append, List.length_cons]
    rw [htotal, hsplit, List.drop_left] at hdrop
    rw [hdrop] at hrun
    rw [htotal, hsplit, List.take_left]
    have hread := IsRead.exponent hwhole hfraction hletter hsign hdigits hrun hsuffix
    simpa using hread

theorem mem_take_basedDigits {p : Char → Bool} {c : Char} (h : c ∈ s.take (basedDigits p s)) : p c ∨ c = '_' := by
  unfold basedDigits at h
  split at h
  · rename_i d rest
    split at h
    · rename_i hd
      simp only [List.take_succ_cons, List.mem_cons] at h
      rcases h with rfl | rfl | h
      · exact .inr rfl
      · exact .inl hd
      · exact mem_take_moreDigits h
    · simp at h
  · exact mem_take_digitRun h

theorem isRead_run {p : Char → Bool} (hp : ∀ c, p c → isDigitOrUnderscore c) (s after : List Char) :
    IsRead (s.take (digitRun p s)) after := by
  have hmantissa : ∀ c ∈ s.take (digitRun p s), isMantissa c := by
    intro c hc
    refine isMantissa_of_isDigitOrUnderscore ?_
    rcases mem_take_digitRun hc with hc | rfl
    · exact hp c hc
    · decide
  have hread : IsRead (s.take (digitRun p s) ++ []) after := isRead_suffix hmantissa (by simp)
  simpa using hread

theorem isRead_based {p : Char → Bool} (hp : ∀ c, p c → isAsciiWord c) {letter : Char}
    (hletter : letter ∈ ['x', 'X', 'b', 'B', 'o', 'O']) (rest after : List Char) :
    IsRead (('0' :: letter :: rest).take (if basedDigits p rest = 0 then digitRun (· = '0') ('0' :: letter :: rest)
      else basedDigits p rest + 2)) after := by
  have hletters : ∀ d ∈ ['x', 'X', 'b', 'B', 'o', 'O'],
      isMantissa d = false ∧ isExponentLetter d = false ∧ isAsciiWord d := by
    decide
  split
  · refine isRead_run (fun c hc => ?_) _ after
    have hc : c = '0' := of_decide_eq_true hc
    rw [hc]
    decide
  · have hzero : ∀ c ∈ ['0'], isMantissa c := by decide
    refine IsRead.plain hzero (?_ : ∀ c ∈ letter :: rest.take (basedDigits p rest), isAsciiWord c) ?_ after
    · intro c hc
      rcases List.mem_cons.mp hc with rfl | hc
      · exact (hletters c hletter).2.2
      · rcases mem_take_basedDigits hc with hc | rfl
        · exact hp c hc
        · decide
    · intro c hc
      obtain rfl : letter = c := by simpa using hc
      exact ⟨(hletters letter hletter).1, (hletters letter hletter).2.1⟩

theorem isRead_whole (s after : List Char) : IsRead (s.take (wholeLength s)) after := by
  have hle {c d e : Char} (h : c ≤ d) (hde : d.toNat ≤ e.toNat) : c ≤ e := Nat.le_trans h hde
  have hhex (c : Char) (hc : isHexDigit c) : isAsciiWord c := by
    simp only [isHexDigit, Bool.or_eq_true, Bool.and_eq_true, decide_eq_true_eq] at hc
    rcases hc with (hc | hc) | hc
    · exact isAsciiWord_of_isAsciiDigit hc
    · simp [isAsciiWord, isAsciiLetter, hc.1, hle (e := 'z') hc.2 (by decide)]
    · simp [isAsciiWord, isAsciiLetter, hc.1, hle (e := 'Z') hc.2 (by decide)]
  have hbinary (c : Char) (hc : isBinaryDigit c) : isAsciiWord c := by
    simp only [isBinaryDigit, Bool.or_eq_true, decide_eq_true_eq] at hc
    rcases hc with rfl | rfl <;> decide
  have hoctal (c : Char) (hc : isOctalDigit c) : isAsciiWord c := by
    simp only [isOctalDigit, Bool.and_eq_true, decide_eq_true_eq] at hc
    have hdigit : isAsciiDigit c := by simp [isAsciiDigit, hc.1, hle (e := '9') hc.2 (by decide)]
    exact isAsciiWord_of_isAsciiDigit hdigit
  have hzeros : IsRead (s.take (digitRun (· = '0') s)) after := by
    refine isRead_run (fun c hc => ?_) s after
    have hc : c = '0' := of_decide_eq_true hc
    rw [hc]
    decide
  unfold wholeLength
  dsimp only
  split
  · exact isRead_based hhex (by decide) _ after
  · exact isRead_based hhex (by decide) _ after
  · exact isRead_based hbinary (by decide) _ after
  · exact isRead_based hbinary (by decide) _ after
  · exact isRead_based hoctal (by decide) _ after
  · exact isRead_based hoctal (by decide) _ after
  · exact hzeros
  · refine isRead_run (fun c hc => ?_) _ after
    simp [isDigitOrUnderscore, hc]

/-- What the scanner takes for a numeral has the parts of one. -/
theorem isRead_numeral (s : List Char) : IsRead (s.take (numeralLength s)) (s.drop (numeralLength s)) := by
  have hletters : ∀ suffix ∈ [['j'], ['J']], suffix ∈ [[], ['j'], ['J']] ∧ suffix.length = 1 := by decide
  have htake {n : Nat} {suffix after : List Char} (hlength : suffix.length = 1) (hdrop : s.drop n = suffix ++ after) :
      s.take (n + 1) = s.take n ++ suffix ∧ s.drop (n + 1) = after := by
    rw [List.take_add, ← List.drop_drop, hdrop, ← hlength, List.take_left, List.drop_left]
    exact ⟨rfl, rfl⟩
  unfold numeralLength
  dsimp only
  rcases imaginaryLength_cases (digitRun isAsciiDigit s) s with hdigits | ⟨suffix, after, hsuffix, hdrop, hlength⟩
  · rw [hdigits, if_neg (by simp)]
    rcases imaginaryLength_cases (decimalLength s) s with himaginary | ⟨suffix, after, hsuffix, hdrop, hlength⟩
    · rw [himaginary, if_neg (by simp)]
      by_cases hdecimal : decimalLength s = 0
      · rw [if_neg (by simp [hdecimal])]
        exact isRead_whole s _
      · rw [if_pos hdecimal]
        have hread : IsRead (s.take (decimalLength s) ++ []) (s.drop (decimalLength s)) :=
          isRead_decimal hdecimal (by simp) rfl
        simpa using hread
    · have hdecimal : decimalLength s ≠ 0 := by
        intro hzero
        simp [hzero, imaginaryLength] at hlength
      obtain ⟨htaken, hdropped⟩ := htake (hletters suffix hsuffix).2 hdrop
      rw [hlength, if_pos (by simp), htaken, hdropped]
      exact isRead_decimal hdecimal (hletters suffix hsuffix).1 hdrop
  · obtain ⟨htaken, hdropped⟩ := htake (hletters suffix hsuffix).2 hdrop
    rw [hlength, if_pos (by simp), htaken, hdropped]
    refine isRead_suffix (fun c hc => isMantissa_of_isDigitOrUnderscore ?_) (hletters suffix hsuffix).1
    simpa [isDigitOrUnderscore] using mem_take_digitRun hc

end Parts

/-! ### Exponents of the parts -/

section Fields

variable {s : List Char}

theorem exponentField?_append {mantissa : List Char} (h : ∀ c ∈ mantissa, isMantissa c) (s : List Char) :
    exponentField? (mantissa ++ s) = exponentField? s := by
  rw [exponentField?, exponentField?, List.dropWhile_append_of_pos h]

theorem exponentField?_of_head (h : ∀ c ∈ s.head?, isMantissa c = false ∧ isExponentLetter c = false) :
    exponentField? s = none := by
  cases s with
  | nil => rfl
  | cons c rest =>
    obtain ⟨hmantissa, hletter⟩ := h c rfl
    have hletter : ¬ (c = 'e' ∨ c = 'E') := by simpa [isExponentLetter, not_or] using hletter
    simp [exponentField?, hmantissa, hletter]

theorem isMantissa_of_isExponentLetter {c : Char} (h : isExponentLetter c) : isMantissa c = false := by
  simp only [isExponentLetter, Bool.or_eq_true, decide_eq_true_eq] at h
  rcases h with rfl | rfl <;> decide

theorem exponentField?_letter {c : Char} (h : isExponentLetter c) (s : List Char) : exponentField? (c :: s) =
    some (((splitSign s).2.takeWhile isDigitOrUnderscore).filter (· ≠ '_')) := by
  have hletter : c = 'e' ∨ c = 'E' := by simpa [isExponentLetter] using h
  rw [exponentField?, List.dropWhile_cons_of_neg (by simp [isMantissa_of_isExponentLetter h])]
  simp [hletter]

theorem splitSign_append {sign : List Char} (hsign : sign ∈ [[], ['+'], ['-']]) {digits : List Char}
    (hhead : ∃ c ∈ digits.head?, isAsciiDigit c) (s : List Char) :
    (splitSign (sign ++ (digits ++ s))).2 = digits ++ s := by
  obtain ⟨c, hc, hdigit⟩ := hhead
  cases digits with
  | nil => cases hc
  | cons d more =>
    obtain rfl : d = c := by simpa using hc
    simp only [List.mem_cons, List.not_mem_nil, or_false] at hsign
    rcases hsign with rfl | rfl | rfl
    · rw [List.nil_append, splitSign]
      all_goals
        intro rest heq
        obtain ⟨rfl, -⟩ := List.cons.inj heq
        exact absurd hdigit (by decide)
    · rfl
    · rfl

/-- The digits of an exponent are read as a run. -/
theorem digits_of_run {digits : List Char} (hdigits : digits ≠ [])
    (hrun : digitRun isAsciiDigit (digits ++ s) = digits.length) :
    (∃ c ∈ digits.head?, isAsciiDigit c) ∧ (∀ c ∈ digits, isDigitOrUnderscore c) ∧ StopsAt isAsciiDigit s := by
  refine ⟨?_, ?_, ?_⟩
  · cases digits with
    | nil => exact absurd rfl hdigits
    | cons c rest =>
      refine ⟨c, rfl, ?_⟩
      rw [List.cons_append, digitRun] at hrun
      by_contra hc
      simp [hc] at hrun
  · intro c hc
    have hmem : c ∈ (digits ++ s).take (digitRun isAsciiDigit (digits ++ s)) := by rwa [hrun, List.take_left]
    simpa [isDigitOrUnderscore] using mem_take_digitRun hmem
  · have hstops := stopsAt_drop_digitRun (digits ++ s)
    rwa [hrun, List.drop_left] at hstops

theorem exponentField?_exponent {mantissa sign digits suffix after : List Char} {letter : Char}
    (hmantissa : ∀ c ∈ mantissa, isMantissa c) (hletter : isExponentLetter letter) (hsign : sign ∈ [[], ['+'], ['-']])
    (hdigits : digits ≠ []) (hrun : digitRun isAsciiDigit (digits ++ (suffix ++ after)) = digits.length)
    (hsuffix : suffix ∈ [[], ['j'], ['J']]) :
    exponentField? (mantissa ++ letter :: (sign ++ digits ++ suffix)) = some (digits.filter (· ≠ '_')) := by
  obtain ⟨hhead, hall, -⟩ := digits_of_run hdigits hrun
  have hstops : ∀ suffix ∈ [[], ['j'], ['J']], ∀ c ∈ suffix.head?, isDigitOrUnderscore c = false := by decide
  rw [exponentField?_append hmantissa, exponentField?_letter hletter, List.append_assoc, splitSign_append hsign hhead,
    takeWhile_append_of_stopsAt _ (hstops suffix hsuffix), List.takeWhile_eq_self_iff.mpr hall]

end Fields

/-- The characters of a numeral. -/
theorem IsRead.mem {numeral after : List Char} (h : IsRead numeral after) {c : Char} (hc : c ∈ numeral) :
    isAsciiWord c ∨ c ∈ ['.', '+', '-'] := by
  have hmantissa {c : Char} (hc : isMantissa c) : isAsciiWord c ∨ c ∈ ['.', '+', '-'] := by
    simp only [isMantissa, Bool.or_eq_true, decide_eq_true_eq] at hc
    rcases hc with (hdigit | rfl) | rfl
    · exact .inl (isAsciiWord_of_isAsciiDigit hdigit)
    · exact .inl (by decide)
    · exact .inr (by decide)
  have hsigns : ∀ sign ∈ [[], ['+'], ['-']], ∀ c ∈ sign, c ∈ ['.', '+', '-'] := by decide
  cases h with
  | plain hall hsuffix =>
    rcases List.mem_append.mp hc with hc | hc
    · exact hmantissa (hall c hc)
    · exact .inl (hsuffix c hc)
  | exponent hwhole hfraction hletter hsign hdigits hrun hsuffix =>
    rcases List.mem_append.mp hc with hc | hc
    · exact hmantissa (isMantissa_of_mem hwhole hfraction hc)
    rcases List.mem_cons.mp hc with rfl | hc
    · simp only [isExponentLetter, Bool.or_eq_true, decide_eq_true_eq] at hletter
      exact .inl (by rcases hletter with rfl | rfl <;> decide)
    rcases List.mem_append.mp hc with hc | hc
    · rcases List.mem_append.mp hc with hc | hc
      · exact .inr (hsigns _ hsign c hc)
      · exact hmantissa (isMantissa_of_isDigitOrUnderscore ((digits_of_run hdigits hrun).2.1 c hc))
    · exact .inl (isAsciiWord_of_suffix hsuffix c hc)

/-! ### Exponents that are found -/

/-- Whether the last character of a text belongs to a word or is a point. -/
def insideAfter (inside : Bool) (s : List Char) : Bool :=
  match s.getLast? with
  | some c => isWord c || c = '.'
  | none => inside

section Finding

variable {s : List Char}

/-- Without a digit, no exponent is found. -/
theorem literalExponents_of_not_digits {word : List Char} (hword : ∀ c ∈ word, isDigit c = false) (inside : Bool)
    (s : List Char) : literalExponents inside 0 (word ++ s) = literalExponents (insideAfter inside word) 0 s := by
  induction word generalizing inside with
  | nil => rfl
  | cons c rest ih =>
    have hlast : insideAfter inside (c :: rest) = insideAfter (isWord c || c = '.') rest := by
      cases rest with
      | nil => rfl
      | cons d more =>
        have hsome := List.getLast?_eq_some_getLast (List.cons_ne_nil d more)
        simp only [insideAfter, List.getLast?_cons_cons, hsome]
    rw [List.cons_append, literalExponents, hword c List.mem_cons_self, Bool.and_false, if_neg Bool.false_ne_true, hlast]
    exact ih (fun d hd => hword d (List.mem_cons_of_mem c hd)) _

/-- Characters that belong to a literal are passed over. -/
theorem literalExponents_skip (inside : Bool) (p s : List Char) (c : Char) :
    literalExponents inside (p.length + 1) (p ++ c :: s) = literalExponents (isWord c || c = '.') 0 s := by
  induction p generalizing inside with
  | nil => rfl
  | cons d rest ih =>
    rw [List.cons_append, List.length_cons, literalExponents]
    exact ih _

/-- What the guard finds the digits of an exponent in, taken apart. -/
theorem exists_letter_of_exponentDigits? {tail digits : List Char} (h : exponentDigits? tail = some digits) :
    ∃ letter behind, tail = letter :: behind ∧ isExponentLetter letter ∧
      (splitSign behind).2.takeWhile isDigit = digits ∧ digits ≠ [] := by
  cases tail with
  | nil => cases h
  | cons letter behind =>
    rw [exponentDigits?] at h
    split at h
    · rename_i hletter
      dsimp only at h
      split at h
      · cases h
      · rename_i hne
        obtain rfl : (splitSign behind).2.takeWhile isDigit = digits := by simpa using h
        exact ⟨letter, behind, rfl, by simpa [isExponentLetter] using hletter, rfl, by simpa using hne⟩
    · cases h

/-- A text that begins with a digit and an exponent in which the guard finds one, taken apart. -/
theorem exists_found {c : Char} {rest digits : List Char} (hc : isDigit c)
    (h : exponentDigits? (afterFraction (rest.dropWhile isDigit)) = some digits) :
    ∃ whole fraction letter tail, c :: rest = whole ++ fraction ++ letter :: tail ∧ whole ≠ [] ∧
      (∀ d ∈ whole, isDigit d) ∧ IsFraction isDigit fraction ∧ isExponentLetter letter ∧
      (splitSign tail).2.takeWhile isDigit = digits ∧ digits ≠ [] := by
  have hwhole : ∀ d ∈ c :: rest.takeWhile isDigit, isDigit d := by
    intro d hd
    rcases List.mem_cons.mp hd with rfl | hd
    · exact hc
    · exact List.mem_takeWhile_imp hd
  have hsplit : c :: rest = (c :: rest.takeWhile isDigit) ++ rest.dropWhile isDigit := by
    rw [List.cons_append, List.takeWhile_append_dropWhile]
  generalize rest.dropWhile isDigit = behind at h hsplit
  by_cases hpoint : behind.head? = some '.'
  · obtain ⟨fraction, rfl⟩ : ∃ fraction, behind = '.' :: fraction := by
      cases behind with
      | nil => cases hpoint
      | cons d fraction =>
        obtain rfl : d = '.' := by simpa using hpoint
        exact ⟨fraction, rfl⟩
    obtain ⟨letter, tail, heq, hfound⟩ := @exists_letter_of_exponentDigits? (fraction.dropWhile isDigit) _ h
    refine ⟨_, '.' :: fraction.takeWhile isDigit, letter, tail, ?_, by simp, hwhole,
      .inr ⟨_, rfl, fun d hd => List.mem_takeWhile_imp hd⟩, hfound⟩
    rw [hsplit, ← heq]
    simp
  · have hafter : afterFraction behind = behind := by
      unfold afterFraction
      split
      · exact absurd rfl hpoint
      · rfl
    rw [hafter] at h
    obtain ⟨letter, tail, heq, hfound⟩ := exists_letter_of_exponentDigits? h
    exact ⟨_, [], letter, tail, by rw [hsplit, heq]; simp, by simp, hwhole, .inl rfl, hfound⟩

/-- No digit is written otherwise than in ASCII. -/
def HasAsciiDigits (s : List Char) : Prop := ∀ c ∈ s, isDigit c → isAsciiDigit c

theorem moreDigits_of_head {c : Char} (hc : isDigitOrUnderscore c = false) (s : List Char) :
    moreDigits isAsciiDigit (c :: s) = 0 := by
  simp only [isDigitOrUnderscore, Bool.or_eq_false_iff, decide_eq_false_iff_not] at hc
  rw [moreDigits]
  · simp [hc.1]
  · rintro _ _ rfl
    exact absurd rfl hc.2

theorem digitRun_of_head {c : Char} (hc : isDigitOrUnderscore c = false) (s : List Char) :
    digitRun isAsciiDigit (c :: s) = 0 := by
  simp only [isDigitOrUnderscore, Bool.or_eq_false_iff] at hc
  simp [digitRun, hc.1]

theorem digitRun_append_of_head {digits : List Char} (hdigits : ∀ d ∈ digits, isAsciiDigit d) {c : Char}
    (hc : isDigitOrUnderscore c = false) (s : List Char) :
    digitRun isAsciiDigit (digits ++ c :: s) = digits.length :=
  digitRun_append rfl hdigits (moreDigits_of_head hc s) (digitRun_of_head hc s)

theorem exponentLength_pos {letter : Char} (hletter : isExponentLetter letter) {tail : List Char}
    (hdigit : ∃ c ∈ (splitSign tail).2.head?, isAsciiDigit c) : exponentLength (letter :: tail) ≠ 0 := by
  have hletter : letter = 'e' ∨ letter = 'E' := by simpa [isExponentLetter] using hletter
  have hrun {t : List Char} (h : ∃ c ∈ t.head?, isAsciiDigit c) : digitRun isAsciiDigit t ≠ 0 := by
    obtain ⟨c, hc, hdigit⟩ := h
    cases t with
    | nil => cases hc
    | cons d more =>
      obtain rfl : d = c := by simpa using hc
      simp [digitRun, hdigit]
  cases tail with
  | nil =>
    obtain ⟨c, hc, -⟩ := hdigit
    cases hc
  | cons sign rest =>
    by_cases hsign : sign = '+' ∨ sign = '-'
    · have hrest : (splitSign (sign :: rest)).2 = rest := by rcases hsign with rfl | rfl <;> rfl
      rw [hrest] at hdigit
      simp [exponentLength, hletter, hsign, hrun hdigit]
    · have hrest : (splitSign (sign :: rest)).2 = sign :: rest := by
        rw [splitSign]
        · rintro _ heq
          exact hsign (.inr (List.cons.inj heq).1)
        · rintro _ heq
          exact hsign (.inl (List.cons.inj heq).1)
      rw [hrest] at hdigit
      simp [exponentLength, hletter, hsign, hrun hdigit]

theorem decimalLength_exponent {whole fraction tail : List Char} {letter : Char}
    (hsome : whole ≠ [] ∨ fraction.drop 1 ≠ []) (hwhole : ∀ d ∈ whole, isAsciiDigit d)
    (hfraction : IsFraction isAsciiDigit fraction) (hletter : isDigitOrUnderscore letter = false ∧ letter ≠ '.')
    (hexponent : exponentLength (letter :: tail) ≠ 0) :
    decimalLength (whole ++ (fraction ++ letter :: tail)) =
      whole.length + fraction.length + exponentLength (letter :: tail) := by
  rcases hfraction with rfl | ⟨run, rfl, hrun⟩
  · rw [List.nil_append, decimalLength, digitRun_append_of_head hwhole hletter.1, List.drop_left]
    dsimp only
    split
    · rename_i heq
      exact absurd (List.cons.inj heq).1 hletter.2
    · have hwholeLength : whole.length ≠ 0 := by simpa using hsome
      rw [if_neg (by omega)]
      rfl
  · rw [List.cons_append, decimalLength, digitRun_append_of_head hwhole (by decide), List.drop_left]
    change (if whole.length = 0 ∧ digitRun isAsciiDigit (run ++ letter :: tail) = 0 then 0 else
      whole.length + 1 + digitRun isAsciiDigit (run ++ letter :: tail) +
        exponentLength ((run ++ letter :: tail).drop (digitRun isAsciiDigit (run ++ letter :: tail)))) = _
    rw [digitRun_append_of_head hrun hletter.1, List.drop_left, if_neg, List.length_cons]
    · omega
    · simpa [← not_and_or] using hsome

theorem letter_of_isExponentLetter {letter : Char} (h : isExponentLetter letter) :
    (letter = 'e' ∨ letter = 'E') ∧ isWord letter ∧ isDigit letter = false ∧ isAsciiDigit letter = false ∧
      letter ≠ '.' ∧ letter ≠ '_' := by
  simp only [isExponentLetter, Bool.or_eq_true, decide_eq_true_eq] at h
  rcases h with rfl | rfl <;> decide

theorem splitSign_subset (s : List Char) : (splitSign s).2 ⊆ s := by
  unfold splitSign
  split
  · exact List.subset_cons_self _ _
  · exact List.subset_cons_self _ _
  · exact List.Subset.refl _

/-- The digits that the guard finds behind the letter of an exponent are an exponent to the scanner. -/
theorem exponentLength_of_found {letter : Char} {tail digits : List Char} (hascii : HasAsciiDigits tail)
    (hletter : isExponentLetter letter) (hfound : (splitSign tail).2.takeWhile isDigit = digits) (hdigits : digits ≠ []) :
    exponentLength (letter :: tail) ≠ 0 := by
  refine exponentLength_pos hletter ?_
  cases hbody : (splitSign tail).2 with
  | nil =>
    rw [hbody] at hfound
    exact absurd hfound.symm hdigits
  | cons d more =>
    refine ⟨d, rfl, hascii d (splitSign_subset tail (by simp [hbody])) ?_⟩
    by_contra hd
    rw [hbody, List.takeWhile_cons_of_neg hd] at hfound
    exact hdigits hfound.symm

theorem imaginaryLength_eq_zero {n : Nat} (h : ∀ c ∈ (s.drop n).head?, c ≠ 'j' ∧ c ≠ 'J') : imaginaryLength n s = 0 := by
  rcases imaginaryLength_cases n s with hzero | ⟨suffix, after, hsuffix, hdrop, -⟩
  · exact hzero
  · rw [hdrop] at h
    simp only [List.mem_cons, List.not_mem_nil, or_false] at hsuffix
    rcases hsuffix with rfl | rfl
    · exact absurd rfl (h 'j' rfl).1
    · exact absurd rfl (h 'J' rfl).2

/-- Digits, an optional fraction and an exponent are a decimal numeral, perhaps with the letter of an imaginary one. -/
theorem numeralLength_of_exponent {whole fraction tail : List Char} {letter : Char}
    (hsome : whole ≠ [] ∨ fraction.drop 1 ≠ []) (hwhole : ∀ d ∈ whole, isAsciiDigit d)
    (hfraction : IsFraction isAsciiDigit fraction) (hletter : isExponentLetter letter)
    (hexponent : exponentLength (letter :: tail) ≠ 0) {n : Nat}
    (hn : whole.length + fraction.length + exponentLength (letter :: tail) = n) :
    numeralLength (whole ++ (fraction ++ letter :: tail)) =
      if imaginaryLength n (whole ++ (fraction ++ letter :: tail)) = 0 then n else
        imaginaryLength n (whole ++ (fraction ++ letter :: tail)) := by
  have hstops : isDigitOrUnderscore letter = false ∧ letter ≠ '.' ∧ letter ≠ 'j' ∧ letter ≠ 'J' := by
    rcases (letter_of_isExponentLetter hletter).1 with rfl | rfl <;> decide
  have hdecimal := decimalLength_exponent hsome hwhole hfraction ⟨hstops.1, hstops.2.1⟩ hexponent
  have hrun : digitRun isAsciiDigit (whole ++ (fraction ++ letter :: tail)) = whole.length := by
    rcases hfraction with rfl | ⟨run, rfl, -⟩
    · exact digitRun_append_of_head hwhole hstops.1 _
    · exact digitRun_append_of_head hwhole (by decide) _
  have himaginary : imaginaryLength whole.length (whole ++ (fraction ++ letter :: tail)) = 0 := by
    refine imaginaryLength_eq_zero ?_
    rw [List.drop_left]
    rcases hfraction with rfl | ⟨run, rfl, -⟩
    · simpa using hstops.2.2
    · simp
  have hne : n ≠ 0 := by omega
  rw [hn] at hdecimal
  simp only [numeralLength, hrun, himaginary, hdecimal, hne, ne_eq, not_true_eq_false, if_false, ite_not]

/-- A numeral reaches behind the letter of its exponent. -/
theorem le_numeralLength {whole fraction tail : List Char} {letter : Char} (hsome : whole ≠ [])
    (hwhole : ∀ d ∈ whole, isAsciiDigit d) (hfraction : IsFraction isAsciiDigit fraction)
    (hletter : isExponentLetter letter) (hexponent : exponentLength (letter :: tail) ≠ 0) :
    whole.length + fraction.length + 1 ≤ numeralLength (whole ++ (fraction ++ letter :: tail)) := by
  rw [numeralLength_of_exponent (.inl hsome) hwhole hfraction hletter hexponent rfl]
  rcases imaginaryLength_cases (whole.length + fraction.length + exponentLength (letter :: tail))
    (whole ++ (fraction ++ letter :: tail)) with hzero | ⟨_, _, _, _, hone⟩
  · rw [if_pos hzero]
    omega
  · rw [if_neg (by omega), hone]
    omega

/-- Where the guard finds an exponent in a text that begins with a digit, the scanner finds one too. -/
theorem exponentField?_of_found {c : Char} {rest digits : List Char} (hascii : HasAsciiDigits (c :: rest))
    (hc : isDigit c) (h : exponentDigits? (afterFraction (rest.dropWhile isDigit)) = some digits) :
    exponentField? ((c :: rest).take (numeralLength (c :: rest))) ≠ none := by
  obtain ⟨whole, fraction, letter, tail, hsplit, hsome, hwhole, hfraction, hletter, hfound, hdigits⟩ :=
    exists_found hc h
  rw [List.append_assoc] at hsplit
  rw [hsplit] at hascii ⊢
  have hwholeAscii : ∀ d ∈ whole, isAsciiDigit d := fun d hd => hascii d (by simp [hd]) (hwhole d hd)
  have hfractionAscii : IsFraction isAsciiDigit fraction := hfraction.imp fun d hd => hascii d (by simp [hd])
  have htailAscii : HasAsciiDigits tail := fun d hd => hascii d (by simp [hd])
  have hexponent := exponentLength_of_found htailAscii hletter hfound hdigits
  obtain ⟨more, hmore⟩ := Nat.exists_eq_add_of_le (le_numeralLength hsome hwholeAscii hfractionAscii hletter hexponent)
  have htake : (whole ++ (fraction ++ letter :: tail)).take (whole.length + fraction.length + 1 + more) =
      whole ++ fraction ++ letter :: tail.take more := by
    have hsum : whole.length + fraction.length + 1 + more = (whole ++ fraction).length + (more + 1) := by
      simp only [List.length_append]
      omega
    rw [hsum, ← List.append_assoc, List.take_length_add_append, List.take_succ_cons]
  have hmantissa : ∀ d ∈ whole ++ fraction, isMantissa d := by
    have hdigit : ∀ d, isAsciiDigit d → isDigitOrUnderscore d := fun d hd => by simp [isDigitOrUnderscore, hd]
    exact fun d hd => isMantissa_of_mem (fun d hd => hdigit d (hwholeAscii d hd))
      (hfractionAscii.imp fun d _ => hdigit d) hd
  rw [hmore, htake, exponentField?_append hmantissa, exponentField?_letter hletter]
  simp

/-- In a numeral without an exponent, no exponent is found, and none begins in it. -/
theorem literalExponents_of_plain {c : Char} {rest : List Char} (hascii : HasAsciiDigits (c :: rest))
    (hlength : numeralLength (c :: rest) ≠ 0)
    (hfield : exponentField? ((c :: rest).take (numeralLength (c :: rest))) = none) (inside : Bool) :
    literalExponents inside 0 (c :: rest) = literalExponents true 0 ((c :: rest).drop (numeralLength (c :: rest))) := by
  have hchars : ∀ d ∈ (c :: rest).take (numeralLength (c :: rest)), isWord d ∨ d = '.' := by
    have hread := isRead_numeral (c :: rest)
    generalize (c :: rest).take (numeralLength (c :: rest)) = numeral at hread hfield
    cases hread with
    | plain hmantissa hsuffix =>
      intro d hd
      rcases List.mem_append.mp hd with hd | hd
      · exact isWord_of_isMantissa (hmantissa d hd)
      · exact .inl (isWord_of_isAsciiWord (hsuffix d hd))
    | exponent hwhole hfraction hletter hsign hdigits hrun hsuffix =>
      rw [exponentField?_exponent (fun d hd => isMantissa_of_mem hwhole hfraction hd) hletter hsign hdigits hrun
        hsuffix] at hfield
      cases hfield
  obtain ⟨n, hn⟩ := Nat.exists_eq_succ_of_ne_zero hlength
  have hnone (hc : isDigit c) : exponentDigits? (afterFraction (rest.dropWhile isDigit)) = none := by
    by_contra hsome
    obtain ⟨digits, hdigits⟩ := Option.ne_none_iff_exists'.mp hsome
    exact exponentField?_of_found hascii hc hdigits hfield
  rw [hn, List.take_succ_cons] at hchars
  have hfirst : (isWord c || decide (c = '.')) = true := by simpa using hchars c List.mem_cons_self
  have hrest := literalExponents_within (fun d hd => hchars d (List.mem_cons_of_mem c hd)) (rest.drop n)
  rw [List.take_append_drop] at hrest
  rw [hn, Nat.succ_eq_add_one, List.drop_succ_cons, ← hrest, literalExponents, hfirst]
  dsimp only
  split
  · rename_i hdigit
    rw [hnone (by simpa using (Bool.and_eq_true_iff.mp hdigit).2)]
  · rfl

/-- Whether a numeral begins with a digit and has no underscores. -/
def IsPlainNumeral (numeral : List Char) : Prop := (∃ c ∈ numeral.head?, isAsciiDigit c) ∧ '_' ∉ numeral

theorem stopsAt_isDigit_of_ascii (hascii : HasAsciiDigits s) (h : StopsAt isAsciiDigit s) : StopsAt isDigit s := by
  intro c hc
  by_contra hdigit
  have hasciiDigit := hascii c (List.mem_of_mem_head? hc) (by simpa using hdigit)
  rw [h c hc] at hasciiDigit
  cases hasciiDigit

/-- Behind digits and an optional fraction, the guard looks for the letter of an exponent. -/
theorem afterFraction_append {whole fraction tail : List Char} {letter : Char} (hwhole : ∀ d ∈ whole, isDigit d)
    (hfraction : IsFraction isDigit fraction) (hletter : isDigit letter = false ∧ letter ≠ '.') :
    afterFraction ((whole ++ (fraction ++ letter :: tail)).dropWhile isDigit) = letter :: tail := by
  rw [List.dropWhile_append_of_pos hwhole]
  rcases hfraction with rfl | ⟨run, rfl, hrun⟩
  · rw [List.nil_append, List.dropWhile_cons_of_neg (by simp [hletter.1]), afterFraction]
    intro rest heq
    exact hletter.2 (List.cons.inj heq).1
  · rw [List.cons_append, List.dropWhile_cons_of_neg (by decide)]
    change (run ++ letter :: tail).dropWhile isDigit = _
    rw [List.dropWhile_append_of_pos hrun, List.dropWhile_cons_of_neg (by simp [hletter.1])]

/-- Digits, an optional fraction and an exponent that do not stand in a word: the guard finds the exponent and goes on
    behind its last digit. -/
theorem literalExponents_found {c letter : Char} {whole fraction sign digits : List Char}
    (hwhole : ∀ d ∈ c :: whole, isDigit d) (hfraction : IsFraction isDigit fraction)
    (hletter : isExponentLetter letter) (hsign : sign ∈ [[], ['+'], ['-']]) (hhead : ∃ d ∈ digits.head?, isAsciiDigit d)
    (hdigits : ∀ d ∈ digits, isDigit d) {after : List Char} (hafter : StopsAt isDigit after) :
    literalExponents false 0 (c :: whole ++ (fraction ++ letter :: (sign ++ (digits ++ after)))) =
      digits :: literalExponents true 0 after := by
  obtain ⟨hexponent, -, hletterDigit, -, hletterPoint, -⟩ := letter_of_isExponentLetter hletter
  have hne : digits ≠ [] := by
    rintro rfl
    obtain ⟨d, hd, -⟩ := hhead
    cases hd
  have hbody : (splitSign (sign ++ (digits ++ after))).2 = digits ++ after := splitSign_append hsign hhead _
  have hfound : exponentDigits? (letter :: (sign ++ (digits ++ after))) = some digits := by
    have htake : (digits ++ after).takeWhile isDigit = digits := by
      rw [takeWhile_append_of_stopsAt _ hafter, List.takeWhile_eq_self_iff.mpr hdigits]
    rw [exponentDigits?, if_pos hexponent]
    simp only [hbody, htake]
    simp [hne]
  have htail : afterFraction ((whole ++ (fraction ++ letter :: (sign ++ (digits ++ after)))).dropWhile isDigit) =
      letter :: (sign ++ (digits ++ after)) :=
    afterFraction_append (fun d hd => hwhole d (List.mem_cons_of_mem c hd)) hfraction ⟨hletterDigit, hletterPoint⟩
  -- What the guard passes over reaches to the last digit of the exponent.
  obtain ⟨front, last, rfl⟩ : ∃ front last, digits = front ++ [last] :=
    ⟨digits.dropLast, digits.getLast hne, (List.dropLast_append_getLast hne).symm⟩
  have hlast : (isWord last || decide (last = '.')) = true := by simp [isWord_of_isDigit (hdigits last (by simp))]
  have hrest : whole ++ (fraction ++ letter :: (sign ++ (front ++ [last] ++ after))) =
      (whole ++ (fraction ++ letter :: (sign ++ front))) ++ last :: after := by
    simp
  have hskip : (whole ++ (fraction ++ letter :: (sign ++ (front ++ [last] ++ after)))).length +
      (front ++ [last]).length - (front ++ [last] ++ after).length =
        (whole ++ (fraction ++ letter :: (sign ++ front))).length + 1 := by
    simp only [List.length_append, List.length_cons, List.length_nil]
    omega
  rw [List.cons_append, literalExponents]
  simp only [hwhole c List.mem_cons_self, Bool.not_false, Bool.and_true, if_true, htail, hfound, List.drop_one,
    List.tail_cons, hbody, hskip]
  rw [hrest, literalExponents_skip, hlast]

/-- The digits of a plain numeral are digits, and there are some in front of its exponent. -/
theorem digits_of_plain {whole fraction behind : List Char} {letter : Char} (hletter : isExponentLetter letter)
    (hwhole : ∀ c ∈ whole, isDigitOrUnderscore c) (hfraction : IsFraction isDigitOrUnderscore fraction)
    (hfirst : ∃ c ∈ (whole ++ fraction ++ letter :: behind).head?, isAsciiDigit c) (hunderscore : '_' ∉ whole ++ fraction) :
    (∃ c more, whole = c :: more) ∧ (∀ c ∈ whole, isDigit c) ∧ IsFraction isDigit fraction := by
  have hdigit {d : Char} (hmem : d ∈ whole ++ fraction) (hd : isDigitOrUnderscore d) : isDigit d := by
    refine isDigit_of_isDigitOrUnderscore hd ?_
    rintro rfl
    exact hunderscore hmem
  refine ⟨?_, fun c hc => hdigit (List.mem_append_left _ hc) (hwhole c hc), ?_⟩
  · obtain ⟨first, hfirst, hfirstDigit⟩ := hfirst
    cases whole with
    | cons c more => exact ⟨c, more, rfl⟩
    | nil =>
      rcases hfraction with rfl | ⟨run, rfl, -⟩
      · obtain rfl : letter = first := by simpa using hfirst
        simp [letter_of_isExponentLetter hletter] at hfirstDigit
      · obtain rfl : '.' = first := by simpa using hfirst
        exact absurd hfirstDigit (by decide)
  · exact hfraction.imp fun c hc => hdigit (List.mem_append_right _ hc)

/-- In a plain numeral with an exponent that does not stand in a word, the guard finds the exponent. -/
theorem literalExponents_of_exponent {numeral after field : List Char} (hread : IsRead numeral after)
    (hascii : HasAsciiDigits (numeral ++ after)) (hplain : IsPlainNumeral numeral)
    (hfield : exponentField? numeral = some field) :
    literalExponents false 0 (numeral ++ after) = field :: literalExponents true 0 after := by
  cases hread with
  | plain hmantissa hsuffix hletter =>
    rw [exponentField?_append hmantissa, exponentField?_of_head hletter] at hfield
    cases hfield
  | exponent hwhole hfraction hletter hsign hdigits hrun hsuffix =>
    rename_i whole fraction sign digits suffix letter
    rw [exponentField?_exponent (fun d hd => isMantissa_of_mem hwhole hfraction hd) hletter hsign hdigits hrun
      hsuffix, Option.some.injEq] at hfield
    obtain ⟨hhead, hdigitsAll, hstops⟩ := digits_of_run hdigits hrun
    obtain ⟨hfirst, hunderscore⟩ := hplain
    obtain ⟨⟨c, more, rfl⟩, hwholeDigits, hfractionDigits⟩ :=
      digits_of_plain hletter hwhole hfraction hfirst fun hmem => hunderscore (List.mem_append_left _ hmem)
    have hne {d : Char} (hd : d ∈ digits) : d ≠ '_' := by
      rintro rfl
      exact hunderscore (by simp [hd])
    have hfilter : digits.filter (· ≠ '_') = digits := List.filter_eq_self.mpr fun d hd => by simpa using hne hd
    obtain rfl : digits = field := by rw [← hfilter, hfield]
    have hdigitsDigits : ∀ d ∈ digits, isDigit d := fun d hd =>
      isDigit_of_isDigitOrUnderscore (hdigitsAll d hd) (hne hd)
    have hstop : StopsAt isDigit (suffix ++ after) := by
      refine stopsAt_isDigit_of_ascii (fun d hd => hascii d ?_) hstops
      rcases List.mem_append.mp hd with hd | hd <;> simp [hd]
    have hsuffixWord : ∀ d ∈ suffix, isWord d ∨ d = '.' := fun d hd =>
      .inl (isWord_of_isAsciiWord (isAsciiWord_of_suffix hsuffix d hd))
    have hsplit : c :: more ++ fraction ++ letter :: (sign ++ digits ++ suffix) ++ after =
        c :: more ++ (fraction ++ letter :: (sign ++ (digits ++ (suffix ++ after)))) := by
      simp
    rw [hsplit, literalExponents_found hwholeDigits hfractionDigits hletter hsign hhead hdigitsDigits hstop,
      literalExponents_within hsuffixWord]

end Finding

end Reckoner.Expression
