import Reckoner.Proofs.Expression.Shown
import Reckoner.Proofs.Number.Decimals

/-!
# Values of numerals

A decimal numeral is read from the left: an integer part without needless zeros, perhaps a fraction behind a point,
perhaps an exponent with its sign.  Whatever notation a decimal number is written in, its value is read back.
-/

namespace Reckoner.Number

open Reckoner.Text

/-! ### Reading -/

/-- A point with digits behind it, if the text begins with a point: the digits and the rest. -/
def readFraction (s : List Char) : Option (List Char × List Char) :=
  match s with
  | '.' :: rest =>
    let digits := rest.takeWhile isAsciiDigit
    if digits.isEmpty then none else some (digits, rest.dropWhile isAsciiDigit)
  | rest => some ([], rest)

/-- The letter of an exponent with an optional sign and digits behind it, if the text begins with that letter: the
    exponent and the rest. -/
def readExponent (s : List Char) : Option (Int × List Char) :=
  match s with
  | [] => some (0, [])
  | c :: rest =>
    if c = 'e' ∨ c = 'E' then
      let (negative, rest) := splitSign rest
      let digits := rest.takeWhile isAsciiDigit
      let size : Int := Nat.ofDigitChars 10 digits 0
      if digits.isEmpty then none else some (if negative then -size else size, rest.dropWhile isAsciiDigit)
    else some (0, c :: rest)

/-- The numeral without sign that a text begins with: its value and the rest. -/
def readMagnitude (s : List Char) : Option (ℚ × List Char) :=
  let whole := s.takeWhile isAsciiDigit
  if whole.isEmpty || (whole.head? = some '0' && whole ≠ ['0']) then none
  else
    (readFraction (s.dropWhile isAsciiDigit)).bind fun (fraction, rest) => (readExponent rest).map fun
      (exponent, rest) => (Nat.ofDigitChars 10 (whole ++ fraction) 0 * 10 ^ (exponent - fraction.length), rest)

/-- The numeral that a text begins with: whether it has a minus, its value without the minus, and the rest. -/
def readNumber (s : List Char) : Option (Bool × ℚ × List Char) :=
  match s with
  | '-' :: rest => (readMagnitude rest).map fun (magnitude, rest) => (true, magnitude, rest)
  | rest => (readMagnitude rest).map fun (magnitude, rest) => (false, magnitude, rest)

/-- The number that a text denotes, if it is a numeral. -/
def numeralValue? (s : List Char) : Option ℚ :=
  match readNumber s with
  | some (negative, magnitude, []) => some (if negative then -magnitude else magnitude)
  | _ => none

/-! ### Parts of numerals -/

/-- Characters that a numeral goes on with. -/
def continuesNumber (c : Char) : Bool := isAsciiDigit c || c = '.' || c = 'e' || c = 'E'

/-- Digits without a needless zero in front. -/
def IsInteger (s : List Char) : Prop := IsDigits s ∧ (s.head? = some '0' → s = ['0'])

section Parts

variable {digits whole fraction size rest : List Char}

theorem stopsAt_digits (h : StopsAt continuesNumber rest) : StopsAt isAsciiDigit rest := by
  intro c hc
  have hstop := h c hc
  simp only [continuesNumber, Bool.or_eq_false_iff] at hstop
  exact hstop.1.1.1

theorem takeWhile_digits (h : IsDigits digits) (hrest : StopsAt isAsciiDigit rest) :
    (digits ++ rest).takeWhile isAsciiDigit = digits := by
  rw [takeWhile_append_of_stopsAt _ hrest, List.takeWhile_eq_self_iff.mpr h.2]

theorem dropWhile_digits (h : IsDigits digits) (hrest : StopsAt isAsciiDigit rest) :
    (digits ++ rest).dropWhile isAsciiDigit = rest := by
  rw [dropWhile_append_of_stopsAt _ hrest, List.dropWhile_eq_nil_iff.mpr h.2, List.nil_append]

theorem isEmpty_digits (h : IsDigits digits) : digits.isEmpty = false := List.isEmpty_eq_false_iff.mpr h.1

theorem readFraction_pointed (h : IsDigits fraction) (hrest : StopsAt isAsciiDigit rest) :
    readFraction ('.' :: (fraction ++ rest)) = some (fraction, rest) := by
  simp [readFraction, takeWhile_digits h hrest, dropWhile_digits h hrest, isEmpty_digits h]

theorem readFraction_of_stopsAt (hrest : StopsAt (· = '.') rest) : readFraction rest = some ([], rest) := by
  unfold readFraction
  split
  · simp at hrest
  · rfl

theorem readExponent_signed (negative : Bool) (h : IsDigits size) (hrest : StopsAt isAsciiDigit rest) :
    readExponent ('e' :: (if negative then '-' else '+') :: (size ++ rest)) =
      some (if negative then -(Nat.ofDigitChars 10 size 0 : Int) else Nat.ofDigitChars 10 size 0, rest) := by
  have hsign : splitSign ((if negative then '-' else '+') :: (size ++ rest)) = (negative, size ++ rest) := by
    cases negative <;> rfl
  simp [readExponent, hsign, takeWhile_digits h hrest, dropWhile_digits h hrest, isEmpty_digits h]

theorem readExponent_of_stopsAt (hrest : StopsAt continuesNumber rest) : readExponent rest = some (0, rest) := by
  cases rest with
  | nil => rfl
  | cons c rest =>
    rw [stopsAt_cons] at hrest
    simp only [continuesNumber, Bool.or_eq_false_iff, decide_eq_false_iff_not] at hrest
    simp [readExponent, hrest]

theorem readMagnitude_eq (h : IsInteger whole) (hrest : StopsAt isAsciiDigit rest) :
    readMagnitude (whole ++ rest) = (readFraction rest).bind fun (fraction, rest) => (readExponent rest).map fun
      (exponent, rest) => (Nat.ofDigitChars 10 (whole ++ fraction) 0 * 10 ^ (exponent - fraction.length), rest) := by
  have hplain : (whole.isEmpty || (whole.head? = some '0' && whole ≠ ['0'])) = false := by
    simp only [isEmpty_digits h.1, Bool.false_or, Bool.and_eq_false_iff, decide_eq_false_iff_not, not_not]
    exact (em _).symm.imp_right h.2
  simp only [readMagnitude, takeWhile_digits h.1 hrest, dropWhile_digits h.1 hrest, hplain, Bool.false_eq_true,
    if_false]

/-- An integer part alone. -/
theorem readMagnitude_whole (h : IsInteger whole) (hrest : StopsAt continuesNumber rest) :
    readMagnitude (whole ++ rest) = some ((Nat.ofDigitChars 10 whole 0 : ℚ), rest) := by
  have hpoint : StopsAt (· = '.') rest := by
    intro c hc
    have hstop := hrest c hc
    simp only [continuesNumber, Bool.or_eq_false_iff] at hstop
    exact hstop.1.1.2
  simp [readMagnitude_eq h (stopsAt_digits hrest), readFraction_of_stopsAt hpoint, readExponent_of_stopsAt hrest]

/-- An integer part and a fraction. -/
theorem readMagnitude_pointed (h : IsInteger whole) (hfraction : IsDigits fraction)
    (hrest : StopsAt continuesNumber rest) :
    readMagnitude (whole ++ '.' :: (fraction ++ rest)) =
      some ((Nat.ofDigitChars 10 (whole ++ fraction) 0 : ℚ) * 10 ^ (-fraction.length : Int), rest) := by
  rw [readMagnitude_eq h (stopsAt_cons.mpr (by decide)), readFraction_pointed hfraction (stopsAt_digits hrest)]
  simp [readExponent_of_stopsAt hrest]

/-- The digits of a mantissa, with a point behind the first one if others follow. -/
def mantissa (digits : List Char) : List Char :=
  match digits with
  | [] => []
  | [d] => [d]
  | d :: rest => d :: '.' :: rest

theorem readMagnitude_scientific {d : Char} {run : List Char} (hd : isAsciiDigit d) (hzero : d ≠ '0')
    (hrun : ∀ c ∈ run, isAsciiDigit c) (negative : Bool) (hsize : IsDigits size)
    (hrest : StopsAt continuesNumber rest) :
    readMagnitude (mantissa (d :: run) ++ 'e' :: (if negative then '-' else '+') :: (size ++ rest)) =
      some ((Nat.ofDigitChars 10 (d :: run) 0 : ℚ) *
        10 ^ ((if negative then -(Nat.ofDigitChars 10 size 0 : Int) else Nat.ofDigitChars 10 size 0) - run.length),
        rest) := by
  have hfirst : IsInteger [d] := ⟨⟨by simp, by simpa using hd⟩, by simp [hzero]⟩
  have hletter {rest : List Char} : StopsAt isAsciiDigit ('e' :: rest) := stopsAt_cons.mpr (by decide)
  have hsigned := readExponent_signed negative hsize (stopsAt_digits hrest)
  cases run with
  | nil =>
    rw [mantissa, readMagnitude_eq hfirst hletter,
      readFraction_of_stopsAt (stopsAt_cons.mpr (by decide))]
    simp [hsigned]
  | cons c run =>
    have hfraction : IsDigits (c :: run) := ⟨by simp, hrun⟩
    have hpoint {rest : List Char} : StopsAt isAsciiDigit ('.' :: rest) := stopsAt_cons.mpr (by decide)
    have hshape : mantissa (d :: c :: run) ++ 'e' :: (if negative then '-' else '+') :: (size ++ rest) =
        [d] ++ '.' :: (c :: run ++ 'e' :: (if negative then '-' else '+') :: (size ++ rest)) := rfl
    rw [hshape, readMagnitude_eq hfirst hpoint, readFraction_pointed hfraction hletter]
    simp [hsigned]

/-- Nothing that begins with a minus is a numeral without sign. -/
theorem readNumber_of_readMagnitude {s : List Char} {magnitude : ℚ} (h : readMagnitude s = some (magnitude, rest)) :
    readNumber s = some (false, magnitude, rest) := by
  unfold readNumber
  split
  · simp [readMagnitude, isAsciiDigit] at h
  · rw [h, Option.map_some]

theorem readNumber_minus {s : List Char} {magnitude : ℚ} (h : readMagnitude s = some (magnitude, rest)) :
    readNumber ('-' :: s) = some (true, magnitude, rest) := by
  rw [readNumber, h, Option.map_some]

end Parts

/-! ### Notations -/

/-- The number that a decimal stands for, without its sign. -/
def Decimal.magnitude (x : Decimal) : ℚ := x.coefficient * 10 ^ x.exponent

section Notations

variable {x : Decimal} {size rest : List Char}

theorem ofDigitChars_digits (x : Decimal) : Nat.ofDigitChars 10 x.digits 0 = x.coefficient := by
  have hdigits : x.digits = Nat.toDigits 10 x.coefficient := Nat.toList_repr
  rw [hdigits, Nat.ofDigitChars_ten_toDigits]

theorem isInteger_append_digits (hx : x.coefficient ≠ 0) {s : List Char} (hs : ∀ c ∈ s, isAsciiDigit c) :
    IsInteger (x.digits ++ s) := by
  have hdigits := isDigits_digits x
  obtain ⟨d, run, hd⟩ := List.exists_cons_of_ne_nil hdigits.1
  refine ⟨⟨by simp [hdigits.1], fun c hc => (List.mem_append.mp hc).elim (hdigits.2 c) (hs c)⟩, fun hhead => ?_⟩
  rw [hd, List.cons_append, List.head?_cons] at hhead
  exact absurd (by rw [hd, List.head?_cons, hhead]) (Expression.head?_digits hx)

/-- The digits around the point of a number in fixed notation are those of its coefficient. -/
theorem exists_pointed_digits (hx : x.coefficient ≠ 0) {scale : Nat} (hscale : scale ≠ 0) :
    ∃ front fraction, pointed x.digits scale = front ++ '.' :: fraction ∧ IsInteger front ∧ IsDigits fraction ∧
      fraction.length = scale ∧ front ++ fraction = List.replicate (scale + 1 - x.digits.length) '0' ++ x.digits := by
  obtain ⟨padded, hpadded⟩ : ∃ padded, padded = List.replicate (scale + 1 - x.digits.length) '0' ++ x.digits := ⟨_, rfl⟩
  have hdigits : ∀ c ∈ padded, isAsciiDigit c := by
    intro c hc
    rw [hpadded] at hc
    exact (List.mem_append.mp hc).elim isAsciiDigit_of_mem_replicate ((isDigits_digits x).2 c)
  have hlength : padded.length = max (scale + 1) x.digits.length := by
    rw [hpadded, List.length_append, List.length_replicate]
    omega
  have hpointed : pointed x.digits scale =
      padded.take (padded.length - scale) ++ '.' :: padded.drop (padded.length - scale) := by
    rw [pointed, if_neg hscale, hpadded]
  refine ⟨_, _, hpointed, ⟨⟨?_, fun c hc => hdigits c (List.mem_of_mem_take hc)⟩, fun hhead => ?_⟩,
    ⟨?_, fun c hc => hdigits c (List.mem_of_mem_drop hc)⟩, ?_, ?_⟩
  · apply List.ne_nil_of_length_pos
    rw [List.length_take]
    omega
  · -- the digits of the coefficient do not begin with a zero, so zeros have been put in front
    have hshort : x.digits.length < scale + 1 := by
      by_contra hlong
      have hsame : padded = x.digits := by
        rw [hpadded, Nat.sub_eq_zero_of_le (by omega), List.replicate_zero, List.nil_append]
      rw [List.head?_take, if_neg (by omega), hsame] at hhead
      exact Expression.head?_digits hx hhead
    obtain ⟨k, hk⟩ : ∃ k, scale + 1 - x.digits.length = k + 1 := ⟨scale - x.digits.length, by omega⟩
    have hone : padded.length - scale = 1 := by omega
    rw [hone, hpadded, hk]
    rfl
  · apply List.ne_nil_of_length_pos
    rw [List.length_drop]
    omega
  · rw [List.length_drop]
    omega
  · rw [List.take_append_drop, hpadded]

theorem ofDigitChars_padded (x : Decimal) (k : Nat) :
    Nat.ofDigitChars 10 (List.replicate k '0' ++ x.digits) 0 = x.coefficient := by
  rw [Nat.ofDigitChars_append, Nat.ofDigitChars_replicate_zero, mul_zero, ofDigitChars_digits]

theorem readMagnitude_fixed (hx : x.coefficient ≠ 0) (hrest : StopsAt continuesNumber rest) :
    readMagnitude (x.fixed ++ rest) = some (x.magnitude, rest) := by
  unfold Decimal.fixed
  split_ifs with hexponent
  · obtain ⟨k, hk⟩ : ∃ k : Nat, x.exponent = k := ⟨x.exponent.toNat, by omega⟩
    rw [readMagnitude_whole (isInteger_append_digits hx fun c hc => isAsciiDigit_of_mem_replicate hc) hrest,
      Nat.ofDigitChars_append, Nat.ofDigitChars_replicate_zero, ofDigitChars_digits, Decimal.magnitude, hk,
      Int.toNat_natCast, zpow_natCast]
    push_cast
    rw [mul_comm]
  · obtain ⟨front, fraction, heq, hfront, hfraction, hlength, hdigits⟩ :=
      @exists_pointed_digits x hx (-x.exponent).toNat (by omega)
    rw [heq, List.append_assoc, List.cons_append, readMagnitude_pointed hfront hfraction hrest, hdigits,
      ofDigitChars_padded, hlength,
      Int.toNat_of_nonneg (by omega), neg_neg, Decimal.magnitude]

/-- Scientific notation, with an exponent that may be padded with zeros. -/
theorem readMagnitude_mantissa (hx : x.coefficient ≠ 0) (hsize : IsDigits size)
    (hvalue : Nat.ofDigitChars 10 size 0 = x.leadingExponent.natAbs) (hrest : StopsAt continuesNumber rest) :
    readMagnitude (mantissa x.digits ++ 'e' :: (if x.leadingExponent < 0 then '-' else '+') :: (size ++ rest)) =
      some (x.magnitude, rest) := by
  have hdigits := isDigits_digits x
  obtain ⟨d, run, hd⟩ := List.exists_cons_of_ne_nil hdigits.1
  have hzero : d ≠ '0' := by
    rintro rfl
    exact Expression.head?_digits hx (by rw [hd, List.head?_cons])
  have hrun : ∀ c ∈ run, isAsciiDigit c := fun c hc => hdigits.2 c (hd ▸ List.mem_cons_of_mem d hc)
  have hexponent : (if decide (x.leadingExponent < 0) = true then -(x.leadingExponent.natAbs : Int)
      else x.leadingExponent.natAbs) - run.length = x.exponent := by
    have hlength : x.digits.length = run.length + 1 := by rw [hd, List.length_cons]
    simp only [Decimal.leadingExponent, hlength, Nat.add_sub_cancel]
    split_ifs with hneg
    · simp only [decide_eq_true_eq] at hneg
      omega
    · simp only [decide_eq_true_eq] at hneg
      omega
  have hread := readMagnitude_scientific (hdigits.2 d (by simp [hd])) hzero hrun (decide (x.leadingExponent < 0)) hsize hrest
  rw [hvalue, ← hd, ofDigitChars_digits, hexponent] at hread
  simpa [Decimal.magnitude] using hread

theorem ofDigitChars_toString (n : Nat) : Nat.ofDigitChars 10 (toString n).toList 0 = n := by
  have hdigits : (toString n).toList = Nat.toDigits 10 n := Nat.toList_repr
  rw [hdigits, Nat.ofDigitChars_ten_toDigits]

theorem length_toString_le {n k : Nat} (hk : 0 < k) (h : n < 10 ^ k) : (toString n).toList.length ≤ k := by
  have hdigits : (toString n).toList = Nat.toDigits 10 n := Nat.toList_repr
  rw [hdigits]
  exact (Nat.length_toDigits_le_iff (by decide) hk).mpr h

theorem scientific_eq (x : Decimal) : x.scientific = mantissa x.digits ++
    'e' :: (if x.leadingExponent < 0 then '-' else '+') :: (toString x.leadingExponent.natAbs).toList := by
  have hsign : (if 0 ≤ x.leadingExponent then '+' else '-') = (if x.leadingExponent < 0 then '-' else '+') := by
    split_ifs <;> first | rfl | omega
  rw [← hsign]
  rfl

theorem readMagnitude_shown (hx : x.coefficient ≠ 0) (hrest : StopsAt continuesNumber rest) :
    readMagnitude (x.scientific ++ rest) = some (x.magnitude, rest) := by
  rw [scientific_eq, List.append_assoc, List.cons_append, List.cons_append]
  exact readMagnitude_mantissa hx (isDigits_toString _) (ofDigitChars_toString _) hrest

/-- A written number is read back as its value. -/
theorem numeralValue?_write (style : AutoNotation) (x : Decimal) : numeralValue? (style.write x) = some x.value := by
  by_cases hx : x.coefficient = 0
  · have hzero : readNumber ['0'] = some (false, 0, []) := by
      have hone : IsInteger ['0'] := ⟨⟨by decide, by decide⟩, fun _ => rfl⟩
      have hread := readMagnitude_whole hone (stopsAt_nil (p := continuesNumber))
      apply readNumber_of_readMagnitude
      simpa [Nat.ofDigitChars_cons] using hread
    rw [AutoNotation.write, if_pos hx, numeralValue?, hzero, Decimal.value_eq_zero.mpr hx]
    rfl
  · have hnormal := Expression.coefficient_normal hx
    have hbody : readMagnitude (if style.lower ≤ x.normal.leadingExponent ∧ x.normal.leadingExponent < style.upper
        then x.normal.fixed else x.normal.scientific) = some (x.normal.magnitude, []) := by
      split
      · simpa using readMagnitude_fixed hnormal stopsAt_nil
      · simpa using readMagnitude_shown hnormal stopsAt_nil
    rw [← Decimal.value_normal, AutoNotation.write, if_neg hx]
    dsimp only
    by_cases hnegative : x.normal.negative = true
    · rw [if_pos hnegative, numeralValue?, readNumber_minus hbody, Decimal.value, if_pos hnegative]
      simp [Decimal.magnitude]
    · rw [if_neg hnegative, numeralValue?, readNumber_of_readMagnitude hbody, Decimal.value, if_neg hnegative]
      simp [Decimal.magnitude]

end Notations

end Reckoner.Number
