import Reckoner.Proofs.Document.Chaining
import Reckoner.Proofs.Number.DecimalNotation
import Reckoner.Proofs.Presentation.Agreement

/-!
# Grouped numbers

The presentation of a number changes its looks only.  Zeros at the end of the fraction go, and the separator stands
between groups of three digits in front of the point, counted from there.  Nothing else happens: without the
separators the text is a numeral of the same value, and a number that has been presented is not changed by presenting
it again.
-/

namespace Reckoner.Presentation

open Reckoner.Document Reckoner.Expression Reckoner.Number Reckoner.Text

variable {separator : List Char}

/-! ### Places of separators -/

/-- Digits with the separator in front of each one that has a digit before it and is the first of as many digits as
    some groups of three have. -/
def grouped (separator digits : List Char) : List Char :=
  digits.zipIdx.flatMap fun entry =>
    if 0 < entry.2 ∧ 3 ∣ digits.length - entry.2 then separator ++ [entry.1] else [entry.1]

/-- Digits that stand behind another one, with the separators between their groups. -/
def groupedBehind (separator : List Char) : List Char → List Char
  | [] => []
  | c :: rest => (if 3 ∣ rest.length + 1 then separator else []) ++ c :: groupedBehind separator rest

section Places

variable {digits rest : List Char}

theorem groupedBehind_eq (separator digits : List Char) {place : Nat} (hplace : 0 < place) {size : Nat}
    (hsize : size = place + digits.length) :
    (digits.zipIdx place).flatMap (fun entry =>
      if 0 < entry.2 ∧ 3 ∣ size - entry.2 then separator ++ [entry.1] else [entry.1]) =
        groupedBehind separator digits := by
  induction digits generalizing place with
  | nil => rfl
  | cons c rest ih =>
    have hcount : size - place = rest.length + 1 := by
      rw [hsize, List.length_cons]
      omega
    have hrest := ih (Nat.succ_pos place) (by rw [hsize, List.length_cons]; omega)
    rw [List.zipIdx_cons, List.flatMap_cons, hrest, groupedBehind, hcount]
    by_cases hgroup : 3 ∣ rest.length + 1
    · simp [hplace, hgroup]
    · simp [hgroup]

theorem grouped_cons (separator : List Char) (c : Char) (rest : List Char) :
    grouped separator (c :: rest) = c :: groupedBehind separator rest := by
  have hrest := groupedBehind_eq separator rest Nat.one_pos (Nat.add_comm rest.length 1)
  rw [grouped, List.zipIdx_cons, List.flatMap_cons, List.length_cons, Nat.zero_add, hrest]
  simp

theorem groupedBehind_subset (separator digits : List Char) : groupedBehind separator digits ⊆ digits ++ separator := by
  induction digits with
  | nil => exact List.nil_subset _
  | cons c rest ih =>
    intro d hd
    rw [groupedBehind] at hd
    split_ifs at hd <;> grind

theorem grouped_subset (separator digits : List Char) : grouped separator digits ⊆ digits ++ separator := by
  cases digits with
  | nil => exact List.nil_subset _
  | cons c rest =>
    rw [grouped_cons]
    have hrest := groupedBehind_subset separator rest
    grind

theorem groupedBehind_nil (digits : List Char) : groupedBehind [] digits = digits := by
  induction digits with
  | nil => rfl
  | cons c rest ih => rw [groupedBehind, ih, ite_self, List.nil_append]

end Places

/-! ### Grouping -/

section Runs

variable {c : Char} {digits s : List Char} {afterWord : Bool}

theorem groupRuns_cons_of_not_isWord (hc : isWord c = false) :
    groupRuns separator afterWord (c :: s) = (0, c :: (groupRuns separator false s).2) := by
  have hdigit : isDigit c = false := by
    by_contra h
    rw [isWord_of_isDigit (by simpa using h)] at hc
    cases hc
  simp [groupRuns, hc, hdigit]

theorem groupRuns_append_of_not_isWord (hsome : digits ≠ []) (hdigits : ∀ c ∈ digits, isWord c = false) :
    groupRuns separator afterWord (digits ++ s) = (0, digits ++ (groupRuns separator false s).2) := by
  induction digits generalizing afterWord with
  | nil => exact absurd rfl hsome
  | cons c rest ih =>
    rw [List.forall_mem_cons] at hdigits
    rw [List.cons_append, groupRuns_cons_of_not_isWord hdigits.1]
    cases rest with
    | nil => rfl
    | cons d rest => rw [ih (List.cons_ne_nil d rest) hdigits.2]; rfl

theorem groupRuns_of_no_digit (h : ∀ c ∈ s, isDigit c = false) : groupRuns separator afterWord s = (0, s) := by
  induction s generalizing afterWord with
  | nil => rfl
  | cons c rest ih =>
    rw [List.forall_mem_cons] at h
    simp [groupRuns, ih h.2, h.1]

theorem groupRuns_nil_separator (afterWord : Bool) (s : List Char) : (groupRuns [] afterWord s).2 = s := by
  induction s generalizing afterWord with
  | nil => rfl
  | cons c rest ih => simp [groupRuns, ih]

/-- Digits behind a word character get their separators, and all of them belong to one run. -/
theorem groupRuns_digits (h : ∀ c ∈ digits, isDigit c) :
    groupRuns separator true digits = (digits.length, groupedBehind separator digits) := by
  induction digits with
  | nil => rfl
  | cons c rest ih =>
    rw [List.forall_mem_cons] at h
    rw [groupRuns, isWord_of_isDigit h.1, ih h.2]
    by_cases hgroup : 3 ∣ rest.length + 1
    · simp [h.1, groupedBehind, hgroup, Nat.mod_eq_zero_of_dvd hgroup]
    · simp [h.1, groupedBehind, hgroup, Nat.dvd_iff_mod_eq_zero.not.mp hgroup]

/-- Where the separators stand already, the runs between them are too short to get more. -/
theorem groupRuns_groupedBehind (hsome : separator ≠ []) (hseparator : ∀ c ∈ separator, isWord c = false)
    (h : ∀ c ∈ digits, isDigit c) :
    groupRuns separator true (groupedBehind separator digits) =
      (digits.length % 3, groupedBehind separator digits) := by
  induction digits with
  | nil => rfl
  | cons c rest ih =>
    rw [List.forall_mem_cons] at h
    have hfirst (afterWord : Bool) : groupRuns separator afterWord (c :: groupedBehind separator rest) =
        (rest.length % 3 + 1, if afterWord && (rest.length % 3 + 1) % 3 = 0
          then separator ++ c :: groupedBehind separator rest else c :: groupedBehind separator rest) := by
      rw [groupRuns, isWord_of_isDigit h.1, ih h.2]
      simp [h.1]
    rw [groupedBehind, List.length_cons]
    split_ifs with hgroup
    · rw [groupRuns_append_of_not_isWord hsome hseparator, hfirst, Nat.mod_eq_zero_of_dvd hgroup]
      simp
    · have hshort : (rest.length % 3 + 1) % 3 ≠ 0 ∧ (rest.length + 1) % 3 = rest.length % 3 + 1 := by omega
      rw [List.nil_append, hfirst]
      simp [hshort]

theorem groupDigits_digits (h : ∀ c ∈ digits, isDigit c) : groupDigits separator digits = grouped separator digits := by
  cases digits with
  | nil => rfl
  | cons c rest =>
    rw [List.forall_mem_cons] at h
    rw [groupDigits, groupRuns, isWord_of_isDigit h.1, groupRuns_digits h.2, grouped_cons]
    simp

theorem groupDigits_grouped (hseparator : ∀ c ∈ separator, isWord c = false) (h : ∀ c ∈ digits, isDigit c) :
    groupDigits separator (grouped separator digits) = grouped separator digits := by
  by_cases hsome : separator = []
  · rw [hsome]
    exact groupRuns_nil_separator false _
  · cases digits with
    | nil => rfl
    | cons c rest =>
      rw [List.forall_mem_cons] at h
      rw [grouped_cons, groupDigits, groupRuns, isWord_of_isDigit h.1, groupRuns_groupedBehind hsome hseparator h.2]
      simp

theorem groupDigits_sign (negative : Bool) (s : List Char) :
    groupDigits separator (signText negative ++ s) = signText negative ++ groupDigits separator s := by
  cases negative with
  | false => rfl
  | true =>
    have hsign : isWord '-' = false := by decide
    exact congrArg Prod.snd (groupRuns_cons_of_not_isWord hsign)

end Runs

/-! ### Trimming -/

section Trimming

variable {front run more : List Char} {fraction : Option (List Char)} {c : Char}

theorem partition_of_not_mem (h : c ∉ front) : partition c front = (front, [], []) := by
  have hall : ∀ d ∈ front, decide (d ≠ c) = true := by
    intro d hd
    simpa using ne_of_mem_of_not_mem hd h
  rw [partition, List.span_eq_takeWhile_dropWhile, List.takeWhile_eq_self_iff.mpr hall, List.dropWhile_eq_nil_iff.mpr hall]

theorem partition_append_cons (h : c ∉ front) : partition c (front ++ c :: more) = (front, [c], more) := by
  have hall : ∀ d ∈ front, decide (d ≠ c) = true := by
    intro d hd
    simpa using ne_of_mem_of_not_mem hd h
  rw [partition, List.span_eq_takeWhile_dropWhile, List.takeWhile_append_of_pos hall, List.dropWhile_append_of_pos hall]
  simp

theorem rdropWhile_append_zeros (s : List Char) (count : Nat) :
    (s ++ List.replicate count '0').rdropWhile (· = '0') = s.rdropWhile (· = '0') := by
  induction count with
  | zero => rw [List.replicate_zero, List.append_nil]
  | succ count ih => rw [List.replicate_succ', ← List.append_assoc, List.rdropWhile_concat_pos _ _ _ (by simp), ih]

/-- The zeros at the end of a fraction are trimmed, and so is the point if they were all. -/
theorem trimFraction_pointText (hfront : '.' ∉ front) (hfraction : '.' ∉ fraction.getD []) :
    trimFraction (front ++ pointText fraction) = front ++ pointText (keptFraction fraction) := by
  cases fraction with
  | none => simp [trimFraction_eq, pointText, keptFraction, hfront]
  | some run =>
    obtain ⟨count, hcount⟩ := exists_zeros run
    have hkept : '.' ∉ run.rdropWhile (· = '0') := fun h => hfraction ((List.rdropWhile_prefix _ _).subset h)
    have hlast : ∀ h : run.rdropWhile (· = '0') ≠ [], (run.rdropWhile (· = '0')).getLast h ≠ '0' := by
      intro h
      simpa using List.rdropWhile_last_not (· = '0') run h
    have hpoint : (front ++ '.' :: run).contains '.' = true := by simp
    rw [trimFraction_eq, pointText, if_pos hpoint, keptFraction, Option.bind_some]
    obtain ⟨kept, hk⟩ : ∃ kept, kept = run.rdropWhile (· = '0') := ⟨_, rfl⟩
    simp only [← hk] at hcount hkept hlast ⊢
    rw [hcount, ← List.cons_append, ← List.append_assoc, rdropWhile_append_zeros]
    rcases List.eq_nil_or_concat' kept with rfl | ⟨init, last, rfl⟩
    · have hstays : front.rdropWhile (· = '.') = front := by
        rw [List.rdropWhile_eq_self_iff]
        intro hsome hlast
        exact hfront (by simpa using of_decide_eq_true hlast ▸ List.getLast_mem hsome)
      rw [List.rdropWhile_concat_neg _ _ _ (by decide), List.rdropWhile_concat_pos _ _ _ (by decide), hstays, if_pos rfl,
        pointText, List.append_nil]
    · have hnonzero : last ≠ '0' := by simpa using hlast (by simp)
      have hdigit : last ≠ '.' := ne_of_mem_of_not_mem (by simp) hkept
      have hsplit : front ++ '.' :: (init ++ [last]) = front ++ '.' :: init ++ [last] := by simp
      rw [hsplit, List.rdropWhile_concat_neg _ _ _ (by simpa using hnonzero),
        List.rdropWhile_concat_neg _ _ _ (by simpa using hdigit)]
      simp [pointText]

/-- A number without an exponent is grouped in front of its point. -/
theorem formatWith_fixed (hfront : '.' ∉ front ∧ 'e' ∉ front) (hrun : '.' ∉ fraction.getD [] ∧ 'e' ∉ fraction.getD []) :
    formatWith separator (front ++ pointText fraction) =
      groupDigits separator front ++ pointText (keptFraction fraction) := by
  have hletter : 'e' ∉ front ++ pointText fraction := by
    cases fraction with
    | none => simpa [pointText] using hfront.2
    | some run => simpa [pointText] using ⟨hfront.2, hrun.2⟩
  have hparts : partition '.' (front ++ pointText (keptFraction fraction)) =
      (front, (pointText (keptFraction fraction)).take 1, (pointText (keptFraction fraction)).drop 1) := by
    cases keptFraction fraction with
    | none => simpa [pointText] using partition_of_not_mem hfront.1
    | some run => exact partition_append_cons hfront.1
  simp only [formatWith, partition_of_not_mem hletter, trimFraction_pointText hfront.1 hrun.1, hparts, List.append_nil,
    List.append_assoc, List.take_append_drop]

/-- A number with an exponent is not grouped. -/
theorem formatWith_scientific (hfront : '.' ∉ front ∧ 'e' ∉ front)
    (hrun : '.' ∉ fraction.getD [] ∧ 'e' ∉ fraction.getD []) :
    formatWith separator (front ++ pointText fraction ++ 'e' :: more) =
      front ++ pointText (keptFraction fraction) ++ 'e' :: more := by
  have hletter : 'e' ∉ front ++ pointText fraction := by
    cases fraction with
    | none => simpa [pointText] using hfront.2
    | some run => simpa [pointText] using ⟨hfront.2, hrun.2⟩
  simp only [formatWith, partition_append_cons hletter, trimFraction_pointText hfront.1 hrun.1, List.singleton_append]

end Trimming

/-! ### Deleting separators -/

section Deleting

variable {digits s t : List Char}

theorem deleteAll_separator (hsome : separator ≠ []) (t : List Char) :
    replaceAll.go separator [] (separator ++ t) = replaceAll.go separator [] t := by
  obtain ⟨c, rest, rfl⟩ := List.exists_cons_of_ne_nil hsome
  have hbegins : (c :: rest).isPrefixOf (c :: rest ++ t) = true :=
    List.isPrefixOf_iff_prefix.mpr (List.prefix_append _ _)
  rw [List.cons_append, replaceAll.go, ← List.cons_append, if_pos hbegins, List.nil_append]
  simp

theorem deleteAll_append (hsome : separator ≠ []) (hs : ∀ c ∈ s, c ∉ separator) (t : List Char) :
    replaceAll.go separator [] (s ++ t) = s ++ replaceAll.go separator [] t := by
  induction s with
  | nil => rfl
  | cons c rest ih =>
    rw [List.forall_mem_cons] at hs
    have hother : separator.isPrefixOf (c :: (rest ++ t)) = false := by
      obtain ⟨d, more, rfl⟩ := List.exists_cons_of_ne_nil hsome
      have hne : d ≠ c := by
        rintro rfl
        exact hs.1 List.mem_cons_self
      simp [List.isPrefixOf, hne]
    rw [List.cons_append, replaceAll.go, hother, ih hs.2]
    simp

theorem deleteAll_groupedBehind (hsome : separator ≠ []) (h : ∀ c ∈ digits, c ∉ separator) (t : List Char) :
    replaceAll.go separator [] (groupedBehind separator digits ++ t) = digits ++ replaceAll.go separator [] t := by
  induction digits with
  | nil => rfl
  | cons c rest ih =>
    rw [List.forall_mem_cons] at h
    have hfirst : replaceAll.go separator [] (c :: (groupedBehind separator rest ++ t)) =
        c :: (rest ++ replaceAll.go separator [] t) := by
      have hone := deleteAll_append hsome (s := [c]) (by simpa using h.1) (groupedBehind separator rest ++ t)
      rw [ih h.2] at hone
      exact hone
    rw [groupedBehind]
    split_ifs with hgroup
    · rw [List.append_assoc, deleteAll_separator hsome, List.cons_append, hfirst, List.cons_append]
    · rw [List.nil_append, List.cons_append, hfirst, List.cons_append]

theorem replaceAll_eq (hsome : separator ≠ []) (s : List Char) :
    replaceAll separator [] s = replaceAll.go separator [] s := by
  obtain ⟨c, rest, rfl⟩ := List.exists_cons_of_ne_nil hsome
  rfl

theorem replaceAll_of_not_mem (hs : ∀ c ∈ s, c ∉ separator) : replaceAll separator [] s = s := by
  by_cases hsome : separator = []
  · rw [hsome]
    rfl
  · have hall := deleteAll_append hsome hs []
    rw [replaceAll.go, List.append_nil] at hall
    rw [replaceAll_eq hsome, hall]

/-- Without its separators a grouped number is what it was. -/
theorem replaceAll_grouped (hs : ∀ c ∈ s, c ∉ separator) (h : ∀ c ∈ digits, c ∉ separator) (ht : ∀ c ∈ t, c ∉ separator) :
    replaceAll separator [] (s ++ (grouped separator digits ++ t)) = s ++ (digits ++ t) := by
  by_cases hsome : separator = []
  · subst hsome
    have hplain : grouped [] digits = digits := by
      cases digits with
      | nil => rfl
      | cons c rest => rw [grouped_cons, groupedBehind_nil]
    rw [hplain]
    rfl
  · rw [replaceAll_eq hsome, deleteAll_append hsome hs]
    have htail : replaceAll.go separator [] t = t := by rw [← replaceAll_eq hsome, replaceAll_of_not_mem ht]
    cases digits with
    | nil => exact congrArg (s ++ ·) htail
    | cons c rest =>
      rw [List.forall_mem_cons] at h
      have hone := deleteAll_append hsome (s := [c]) (by simpa using h.1) (groupedBehind separator rest ++ t)
      rw [deleteAll_groupedBehind hsome h.2, htail] at hone
      rw [grouped_cons]
      exact congrArg (s ++ ·) hone

end Deleting

/-! ### Presented numbers -/

/-- A number without its sign as it is presented. -/
def presented (separator : List Char) (n : Numeral) : List Char :=
  match n.exponent with
  | none => grouped separator n.whole ++ pointText (keptFraction n.fraction)
  | some e => n.whole ++ pointText (keptFraction n.fraction) ++ e.text

/-- Texts of numbers that are presented: numerals with the small letter in front of the exponent, and the two
    infinities. -/
inductive IsRaw : List Char → Prop
  | numeral (negative : Bool) {n : Numeral} (hwhole : n.whole ≠ []) (hletter : ∀ e ∈ n.exponent, e.letter = 'e') :
      IsRaw (signText negative ++ n.text)
  | infinity (negative : Bool) : IsRaw (signText negative ++ "Infinity".toList)

section Numbers

variable {digits s : List Char} {n : Numeral} {c : Char}

theorem not_mem_of_isDigit (h : ∀ c ∈ digits, isDigit c) (hc : isDigit c = false) : c ∉ digits := by
  intro hmem
  rw [h c hmem] at hc
  cases hc

theorem not_mem_signed (hc : c ≠ '-') (hs : c ∉ s) (negative : Bool) : c ∉ signText negative ++ s := by
  cases negative with
  | false => exact hs
  | true => simpa [signText] using ⟨hc, hs⟩

/-- Neither the point nor the letter of an exponent is among the digits of a numeral. -/
theorem front_of_digits (h : ∀ c ∈ digits, isDigit c) (negative : Bool) :
    '.' ∉ signText negative ++ digits ∧ 'e' ∉ signText negative ++ digits := by
  constructor
  · exact not_mem_signed (by decide) (not_mem_of_isDigit h (by decide)) negative
  · exact not_mem_signed (by decide) (not_mem_of_isDigit h (by decide)) negative

theorem run_of_digits (h : ∀ c ∈ digits, isDigit c) : '.' ∉ digits ∧ 'e' ∉ digits :=
  ⟨not_mem_of_isDigit h (by decide), not_mem_of_isDigit h (by decide)⟩

theorem formatWith_numeral (separator : List Char) (negative : Bool) (hletter : ∀ e ∈ n.exponent, e.letter = 'e') :
    formatWith separator (signText negative ++ n.text) = signText negative ++ presented separator n := by
  have hfront := front_of_digits n.wholeDigits negative
  have hrun := run_of_digits n.fractionDigits
  rw [Numeral.text, Numeral.exponentText, presented]
  cases hexponent : n.exponent with
  | none =>
    rw [Option.elim_none, List.append_nil, ← List.append_assoc, formatWith_fixed hfront hrun, groupDigits_sign,
      groupDigits_digits n.wholeDigits, List.append_assoc]
  | some e =>
    have hfirst : e.letter = 'e' := hletter e hexponent
    have hassoc (middle : List Char) : signText negative ++ (n.whole ++ middle ++ e.text) =
        signText negative ++ n.whole ++ middle ++ 'e' :: (e.sign ++ e.digits) := by
      rw [NumeralExponent.text, hfirst]
      simp
    rw [Option.elim_some, hassoc, formatWith_scientific hfront hrun]
    exact (hassoc _).symm

theorem text_trimmed (hwhole : n.whole ≠ []) :
    (n.trimmed hwhole).text = n.whole ++ pointText (keptFraction n.fraction) ++ n.exponentText := rfl

theorem pointText_keptFraction_subset (fraction : Option (List Char)) :
    pointText (keptFraction fraction) ⊆ pointText fraction := by
  cases fraction with
  | none => exact List.Subset.refl _
  | some run =>
    have hkept := (List.rdropWhile_prefix (fun c : Char => decide (c = '0')) run).subset
    rw [keptFraction, Option.bind_some]
    split_ifs
    · exact List.nil_subset _
    · exact List.cons_subset_cons _ hkept

/-- Without its separators a presented number is its own numeral, but for the zeros at the end of the fraction. -/
theorem replaceAll_presented (negative : Bool) (hwhole : n.whole ≠ [])
    (h : List.Disjoint separator (signText negative ++ n.text)) :
    replaceAll separator [] (signText negative ++ presented separator n) =
      signText negative ++ (n.trimmed hwhole).text := by
  have hother : ∀ c ∈ signText negative ++ n.text, c ∉ separator := fun c hc hmem => h hmem hc
  simp only [Numeral.text, List.forall_mem_append] at hother
  obtain ⟨hsign, ⟨hdigits, hfraction⟩, hexponent⟩ := hother
  have hkept : ∀ c ∈ pointText (keptFraction n.fraction), c ∉ separator := fun c hc =>
    hfraction c (pointText_keptFraction_subset n.fraction hc)
  rw [text_trimmed, presented, Numeral.exponentText]
  cases hexp : n.exponent with
  | none =>
    rw [Option.elim_none, List.append_nil]
    exact replaceAll_grouped hsign hdigits hkept
  | some e =>
    have htext : ∀ c ∈ e.text, c ∉ separator := by simpa [Numeral.exponentText, hexp] using hexponent
    apply replaceAll_of_not_mem
    simp only [List.forall_mem_append]
    exact ⟨hsign, ⟨hdigits, hkept⟩, htext⟩

/-- No digit of another separator and no letter stands in a presented number without an exponent. -/
theorem front_of_grouped (hseparator : ∀ c ∈ separator, isWord c = false ∧ c ≠ '.') (h : ∀ c ∈ digits, isDigit c)
    (negative : Bool) :
    '.' ∉ signText negative ++ grouped separator digits ∧ 'e' ∉ signText negative ++ grouped separator digits := by
  have hnone {c : Char} (hdigit : isDigit c = false) (hother : c ∉ separator) : c ∉ grouped separator digits := by
    intro hmem
    rcases List.mem_append.mp (grouped_subset separator digits hmem) with hc | hc
    · exact not_mem_of_isDigit h hdigit hc
    · exact hother hc
  have hletter : 'e' ∉ separator := by
    intro hmem
    exact absurd (hseparator _ hmem).1 (by decide)
  constructor
  · exact not_mem_signed (by decide) (hnone (by decide) fun hmem => (hseparator _ hmem).2 rfl) negative
  · exact not_mem_signed (by decide) (hnone (by decide) hletter) negative

theorem formatWith_presented (hseparator : ∀ c ∈ separator, isWord c = false ∧ c ≠ '.') (negative : Bool)
    (hletter : ∀ e ∈ n.exponent, e.letter = 'e') :
    formatWith separator (signText negative ++ presented separator n) = signText negative ++ presented separator n := by
  have hkept : (keptFraction n.fraction).getD [] ⊆ n.fraction.getD [] :=
    getD_keptFraction n.fraction ▸ (List.rdropWhile_prefix _ _).subset
  have hrun := run_of_digits fun c hc => n.fractionDigits c (hkept hc)
  rw [presented]
  cases hexponent : n.exponent with
  | none =>
    have hfront := front_of_grouped hseparator n.wholeDigits negative
    dsimp only
    rw [← List.append_assoc, formatWith_fixed hfront hrun, groupDigits_sign,
      groupDigits_grouped (fun c hc => (hseparator c hc).1) n.wholeDigits, keptFraction_keptFraction]
  | some e =>
    have hfront := front_of_digits n.wholeDigits negative
    have hfirst : e.letter = 'e' := hletter e hexponent
    have htext : signText negative ++ (n.whole ++ pointText (keptFraction n.fraction) ++ e.text) =
        signText negative ++ n.whole ++ pointText (keptFraction n.fraction) ++ 'e' :: (e.sign ++ e.digits) := by
      rw [NumeralExponent.text, hfirst]
      simp
    dsimp only
    rw [htext, formatWith_scientific hfront hrun, keptFraction_keptFraction]

/-- The word for an infinite number stays as it is. -/
theorem formatWith_infinity (separator : List Char) (negative : Bool) :
    formatWith separator (signText negative ++ "Infinity".toList) = signText negative ++ "Infinity".toList := by
  have hfront : '.' ∉ signText negative ++ "Infinity".toList ∧ 'e' ∉ signText negative ++ "Infinity".toList := by
    cases negative <;> decide
  have hword : groupDigits separator (signText negative ++ "Infinity".toList) = signText negative ++ "Infinity".toList := by
    have hnone : ∀ c ∈ signText negative ++ "Infinity".toList, isDigit c = false := by cases negative <;> decide
    rw [groupDigits, groupRuns_of_no_digit hnone]
  have hformat : formatWith separator (signText negative ++ "Infinity".toList ++ pointText none) =
      groupDigits separator (signText negative ++ "Infinity".toList) ++ pointText none := formatWith_fixed hfront (by simp)
  rw [hword] at hformat
  simpa only [pointText, List.append_nil] using hformat

end Numbers

/-- Presenting a number drops the zeros at the end of its fraction, then a bare point, and puts the separator between the
    groups of three digits in front of the point, or nowhere if there is an exponent.  If no character of the
    separator is one of the number, a numeral of the same value is left when the separators are deleted. -/
theorem presentation_keeps_the_value (separator : List Char) (negative : Bool) {n : Numeral} (hwhole : n.whole ≠ [])
    (hletter : ∀ e ∈ n.exponent, e.letter = 'e') :
    formatWith separator (signText negative ++ n.text) = signText negative ++ presented separator n ∧
      (List.Disjoint separator (signText negative ++ n.text) →
        replaceAll separator [] (formatWith separator (signText negative ++ n.text)) =
            signText negative ++ (n.trimmed hwhole).text ∧
          (n.trimmed hwhole).value = n.value) := by
  have hformat := formatWith_numeral separator negative hletter
  refine ⟨hformat, fun hdisjoint => ⟨?_, Numeral.value_trimmed hwhole⟩⟩
  rw [hformat]
  exact replaceAll_presented negative hwhole hdisjoint

def millions : Numeral where
  whole := "1234567".toList
  fraction := some "500".toList
  exponent := none
  wholeDigits := by decide
  fractionDigits := by decide
  nonempty := by decide

theorem millions_keep_their_value :
    List.Disjoint [','] (signText true ++ millions.text) ∧
      formatWith [','] "-1234567.500".toList = "-1,234,567.5".toList ∧
      replaceAll [','] [] "-1,234,567.5".toList = "-1234567.5".toList := by
  have hwhole : millions.whole ≠ [] := by decide
  have hdisjoint : List.Disjoint [','] (signText true ++ millions.text) := by
    intro c hc
    rw [List.mem_singleton.mp hc]
    decide
  have hpresented : signText true ++ presented [','] millions = "-1,234,567.5".toList := by decide
  have hkept : signText true ++ (millions.trimmed hwhole).text = "-1234567.5".toList := rfl
  obtain ⟨hformat, hdelete⟩ := presentation_keeps_the_value [','] true hwhole (by decide)
  rw [hpresented] at hformat
  refine ⟨hdisjoint, hformat, ?_⟩
  rw [← hkept, ← (hdelete hdisjoint).1, hformat]

/-- Presenting a number that has been presented changes nothing, for every separator without word characters and
    points. -/
theorem presentation_is_idempotent {separator raw : List Char} (hraw : IsRaw raw)
    (hseparator : ∀ c ∈ separator, isWord c = false ∧ c ≠ '.') :
    formatWith separator (formatWith separator raw) = formatWith separator raw := by
  cases hraw with
  | numeral negative hwhole hletter =>
    rw [formatWith_numeral separator negative hletter, formatWith_presented hseparator negative hletter]
  | infinity negative => rw [formatWith_infinity, formatWith_infinity]

theorem millions_are_presented_twice :
    formatWith "' ".toList (formatWith "' ".toList "-1234567.500".toList) = "-1' 234' 567.5".toList := by
  have hraw : IsRaw (signText true ++ millions.text) := .numeral true (by decide) (by decide)
  have hagain := @presentation_is_idempotent "' ".toList _ hraw (by decide)
  exact hagain.trans (by decide)

end Reckoner.Presentation
