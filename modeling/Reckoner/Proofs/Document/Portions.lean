import Mathlib.Data.List.Chain
import Reckoner.Proofs.Document.Expansion

/-!
# Portions of a line

Percentages are looked for from left to right: where one begins it is written out, and where none does a single
character is kept.  This cuts a line into portions in one way only, and the expanded line consists of the same portions.
So every percent sign behind a digit goes into one percentage, everything else stays where it is, and no percentage is
left in an expanded line.
-/

namespace Reckoner.Document

open Reckoner.Text

variable {s t numeral before after : List Char} {c : Char}

/-! ### Numerals of percentages -/

def IsDigitRun (s : List Char) : Prop := s ≠ [] ∧ ∀ c ∈ s, isDigit c

/-- The numeral of a percentage: a run of digits, or two with a point between them. -/
inductive IsPercentNumeral : List Char → Prop
  | whole {digits : List Char} (hdigits : IsDigitRun digits) : IsPercentNumeral digits
  | pointed {digits more : List Char} (hdigits : IsDigitRun digits) (hmore : IsDigitRun more) :
    IsPercentNumeral (digits ++ '.' :: more)

/-- The last character of the text is a digit. -/
def EndsInDigit (s : List Char) : Prop := ∃ c ∈ s.getLast?, isDigit c

theorem not_endsInDigit_nil : ¬ EndsInDigit [] := by
  rintro ⟨c, hc, -⟩
  cases hc

theorem endsInDigit_append (ht : t ≠ []) : EndsInDigit (s ++ t) ↔ EndsInDigit t := by
  rw [EndsInDigit, List.getLast?_append_of_ne_nil _ ht, EndsInDigit]

theorem endsInDigit_append_percent : EndsInDigit (s ++ '%' :: t) ↔ EndsInDigit t := by
  rw [endsInDigit_append (List.cons_ne_nil _ _)]
  cases t with
  | nil => simp [EndsInDigit, show isDigit '%' = false by decide]
  | cons d more => exact endsInDigit_append (s := ['%']) (List.cons_ne_nil _ _)

namespace IsDigitRun

theorem percent_not_mem (h : IsDigitRun s) : '%' ∉ s := fun hmem => absurd (h.2 _ hmem) (by decide)

theorem endsInDigit (h : IsDigitRun s) : EndsInDigit s :=
  ⟨s.getLast h.1, List.getLast?_eq_some_getLast h.1, h.2 _ (List.getLast_mem h.1)⟩

end IsDigitRun

namespace IsPercentNumeral

theorem percent_not_mem (h : IsPercentNumeral numeral) : '%' ∉ numeral := by
  cases h with
  | whole hdigits => exact hdigits.percent_not_mem
  | pointed hdigits hmore => simp [hdigits.percent_not_mem, hmore.percent_not_mem]

theorem endsInDigit (h : IsPercentNumeral numeral) : EndsInDigit numeral := by
  cases h with
  | whole hdigits => exact hdigits.endsInDigit
  | pointed hdigits hmore =>
    rw [endsInDigit_append (List.cons_ne_nil _ _)]
    exact (endsInDigit_append (s := ['.']) hmore.1).mpr hmore.endsInDigit

end IsPercentNumeral

/-! ### Percentages at the beginning of a text -/

def BeginsPercentage (s : List Char) : Prop := ∃ numeral after, IsPercentNumeral numeral ∧ s = numeral ++ '%' :: after

theorem beginsPercentage_of_digit (hc : isDigit c) (after : List Char) : BeginsPercentage (c :: '%' :: after) := by
  refine ⟨[c], after, .whole ⟨List.cons_ne_nil c [], ?_⟩, rfl⟩
  intro d hd
  obtain rfl : d = c := by simpa using hd
  exact hc

theorem beginsPercentage_of_percentTail? {fraction : List Char} (hs : IsDigitRun s)
    (htail : percentTail? t = some (fraction, after)) : BeginsPercentage (s ++ t) := by
  obtain ⟨rfl, rfl | ⟨more, rfl, hmore⟩⟩ := eq_of_percentTail? htail
  · exact ⟨s, after, .whole hs, rfl⟩
  · exact ⟨s ++ '.' :: more, after, .pointed hs hmore, by simp⟩

theorem expandPercent_percentage (h : IsPercentNumeral numeral) (after : List Char) :
    expandPercent (numeral ++ '%' :: after) = hundredth numeral ++ expandPercent after := by
  cases h with
  | whole hdigits =>
    rw [expandPercent_of_percentTail? hdigits.2 hdigits.1 (percentTail?_percent after), List.append_nil]
  | pointed hdigits hmore =>
    rw [List.append_assoc, List.cons_append,
      expandPercent_of_percentTail? hdigits.2 hdigits.1 (percentTail?_point hmore.2 hmore.1 after)]

/-- Where no percentage begins, one character is kept, and the search goes on behind it. -/
theorem expandPercent_kept (h : ¬ BeginsPercentage (c :: s)) : expandPercent (c :: s) = c :: expandPercent s := by
  by_cases hc : isDigit c
  · -- No percentage begins at a later digit of the run either: what follows the run is the same.
    obtain ⟨run, tail, rfl, hrun, hstops⟩ := exists_run isDigit s
    have hdigits : IsDigitRun (c :: run) := ⟨List.cons_ne_nil c run, List.forall_mem_cons.mpr ⟨hc, hrun⟩⟩
    have htail : percentTail? tail = none := by
      by_contra hsome
      obtain ⟨⟨fraction, after⟩, htail⟩ := Option.ne_none_iff_exists'.mp hsome
      exact h (beginsPercentage_of_percentTail? hdigits htail)
    rw [← List.cons_append, expandPercent_digits_of_none hdigits.2 hstops htail,
      expandPercent_digits_of_none hrun hstops htail, List.cons_append]
  · exact expandPercent_cons (by simpa using hc) s

/-! ### Portions -/

/-- A portion of a line: a character that is kept, or a percentage with its numeral. -/
inductive Portion
  | kept (c : Char)
  | percentage (numeral : List Char)

namespace Portion

/-- What a portion is in the line. -/
def typed : Portion → List Char
  | .kept c => [c]
  | .percentage numeral => numeral ++ ['%']

/-- What a portion is in the expanded line. -/
def expanded : Portion → List Char
  | .kept c => [c]
  | .percentage numeral => hundredth numeral

theorem typed_ne_nil (portion : Portion) : portion.typed ≠ [] := by
  cases portion with
  | kept c => exact List.cons_ne_nil c []
  | percentage numeral => exact List.append_ne_nil_of_right_ne_nil numeral (List.cons_ne_nil _ _)

theorem eq_nil_of_typed {portions : List Portion} (h : portions.flatMap typed = []) : portions = [] := by
  cases portions with
  | nil => rfl
  | cons portion rest =>
    rw [List.flatMap_cons, List.append_eq_nil_iff] at h
    exact absurd h.1 portion.typed_ne_nil

theorem flatMap_typed_kept (c : Char) (rest : List Portion) :
    (kept c :: rest).flatMap typed = c :: rest.flatMap typed := rfl

theorem flatMap_typed_percentage (numeral : List Char) (rest : List Portion) :
    (percentage numeral :: rest).flatMap typed = numeral ++ '%' :: rest.flatMap typed := by
  simp [typed]

end Portion

open Portion

/-- Portions as they are found from left to right: a percentage wherever one begins, and a single character where none
    does. -/
inductive IsScan : List Portion → Prop
  | nil : IsScan []
  | kept {c : Char} {rest : List Portion} (hnone : ¬ BeginsPercentage (c :: rest.flatMap typed)) (hrest : IsScan rest) :
    IsScan (.kept c :: rest)
  | percentage {numeral : List Char} {rest : List Portion} (hnumeral : IsPercentNumeral numeral)
    (hrest : IsScan rest) : IsScan (.percentage numeral :: rest)

theorem exists_isScan (line : List Char) : ∃ portions, IsScan portions ∧ portions.flatMap typed = line := by
  -- What is left behind a percentage is not the tail of the line, so the induction is on the length.
  induction hlength : line.length using Nat.strongRecOn generalizing line with
  | ind n ih =>
    subst hlength
    by_cases hbegins : BeginsPercentage line
    · obtain ⟨numeral, after, hnumeral, rfl⟩ := hbegins
      have hshorter : after.length < (numeral ++ '%' :: after).length := by
        rw [List.length_append, List.length_cons]
        omega
      obtain ⟨rest, hrest, rfl⟩ := ih _ hshorter after rfl
      exact ⟨_, .percentage hnumeral hrest, flatMap_typed_percentage numeral rest⟩
    · cases line with
      | nil => exact ⟨[], .nil, rfl⟩
      | cons c more =>
        obtain ⟨rest, hrest, rfl⟩ := ih _ (Nat.lt_succ_self _) more rfl
        exact ⟨_, .kept hbegins hrest, rfl⟩

/-- Where a text without a character goes on with it, any other place of the character lies further behind. -/
theorem cases_of_append_cons_eq {s s' t t' : List Char} (hs : c ∉ s) (h : s ++ c :: t = s' ++ c :: t') :
    s' = s ∧ t' = t ∨ ∃ more, s' = s ++ c :: more ∧ t = more ++ c :: t' := by
  rcases List.append_eq_append_iff.mp h with ⟨more, rfl, hmore⟩ | ⟨more, rfl, hmore⟩
  · cases more with
    | nil =>
      left
      simpa using hmore.symm
    | cons d more =>
      right
      obtain ⟨rfl, rfl⟩ : c = d ∧ t = more ++ c :: t' := by simpa using hmore
      exact ⟨more, rfl, rfl⟩
  · cases more with
    | nil =>
      left
      simpa using hmore
    | cons d more =>
      obtain ⟨rfl, -⟩ : c = d ∧ t' = more ++ c :: t := by simpa using hmore
      exact absurd (List.mem_append_right s' List.mem_cons_self) hs

namespace IsScan

variable {portions other : List Portion}

/-- A line has one scan only. -/
theorem unique (h : IsScan portions) (hother : IsScan other) (hline : other.flatMap typed = portions.flatMap typed) :
    other = portions := by
  induction h generalizing other with
  | nil => exact eq_nil_of_typed hline
  | @kept c rest hnone hrest ih =>
    rw [flatMap_typed_kept] at hline
    cases hother with
    | nil => cases hline
    | kept _ hrest' =>
      obtain ⟨rfl, hrests⟩ := List.cons_eq_cons.mp hline
      rw [ih hrest' hrests]
    | percentage hnumeral _ =>
      rw [flatMap_typed_percentage] at hline
      exact absurd ⟨_, _, hnumeral, hline.symm⟩ hnone
  | @percentage numeral rest hnumeral hrest ih =>
    rw [flatMap_typed_percentage] at hline
    cases hother with
    | nil => simp at hline
    | kept hnone _ => exact absurd ⟨_, _, hnumeral, hline⟩ hnone
    | percentage hnumeral' hrest' =>
      rw [flatMap_typed_percentage] at hline
      rcases cases_of_append_cons_eq hnumeral'.percent_not_mem hline with ⟨rfl, hrests⟩ | ⟨more, rfl, -⟩
      · rw [ih hrest' hrests.symm]
      · exact absurd hnumeral.percent_not_mem (by simp)

/-- The expansion writes out the percentages of the scan and keeps its other portions. -/
theorem expandPercent_eq (h : IsScan portions) :
    expandPercent (portions.flatMap typed) = portions.flatMap expanded := by
  induction h with
  | nil => rw [List.flatMap_nil, List.flatMap_nil, expandPercent]
  | kept hnone _ ih =>
    rw [flatMap_typed_kept, expandPercent_kept hnone, ih]
    rfl
  | percentage hnumeral _ ih =>
    rw [flatMap_typed_percentage, expandPercent_percentage hnumeral, ih]
    rfl

end IsScan

/-! ### Percent signs -/

/-- One of the portions stands behind `front`, and the text is what is typed up to its end. -/
structure EndsAt (portions front : List Portion) (portion : Portion) (text : List Char) : Prop where
  place : ∃ back, portions = front ++ portion :: back
  typed_eq : front.flatMap typed ++ portion.typed = text

namespace EndsAt

variable {portions front front' : List Portion} {portion portion' : Portion} {text : List Char}

theorem cons (h : EndsAt portions front portion text) (first : Portion) :
    EndsAt (first :: portions) (first :: front) portion (first.typed ++ text) := by
  obtain ⟨⟨back, rfl⟩, rfl⟩ := h
  exact ⟨⟨back, rfl⟩, by rw [List.flatMap_cons, List.append_assoc]⟩

/-- No portion behind another one ends where that one ends. -/
theorem eq_nil_of_append {more : List Portion} (h : EndsAt portions front portion text)
    (h' : EndsAt portions (front ++ more) portion' text) : more = [] := by
  obtain ⟨⟨back, rfl⟩, rfl⟩ := h
  obtain ⟨⟨back', hplace⟩, htyped⟩ := h'
  cases more with
  | nil => rfl
  | cons first more =>
    rw [List.append_assoc, List.append_cancel_left_eq, List.cons_append, List.cons.injEq] at hplace
    obtain ⟨rfl, -⟩ := hplace
    rw [List.flatMap_append, List.append_assoc, List.append_cancel_left_eq, List.flatMap_cons, List.append_assoc,
      List.append_right_eq_self, List.append_eq_nil_iff] at htyped
    exact absurd htyped.2 portion'.typed_ne_nil

theorem unique (h : EndsAt portions front portion text) (h' : EndsAt portions front' portion' text) :
    front' = front := by
  obtain ⟨back, hplace⟩ := h.place
  obtain ⟨back', hplace'⟩ := h'.place
  rcases List.append_eq_append_iff.mp (hplace.symm.trans hplace') with ⟨more, rfl, -⟩ | ⟨more, rfl, -⟩
  · rw [h.eq_nil_of_append h', List.append_nil]
  · rw [h'.eq_nil_of_append h, List.append_nil]

end EndsAt

/-- A percent sign of the line belongs to a percentage if a digit stands in front of it, and is kept otherwise. -/
theorem IsScan.exists_endsAt {portions : List Portion} (h : IsScan portions)
    (hsign : portions.flatMap typed = before ++ '%' :: after) :
    EndsInDigit before ∧ (∃ front numeral, EndsAt portions front (.percentage numeral) (before ++ ['%'])) ∨
      ¬ EndsInDigit before ∧ ∃ front, EndsAt portions front (.kept '%') (before ++ ['%']) := by
  induction h generalizing before with
  | nil => simp at hsign
  | @kept c rest hnone hrest ih =>
    rw [flatMap_typed_kept] at hsign
    cases before with
    | nil =>
      obtain ⟨rfl, -⟩ : c = '%' ∧ rest.flatMap typed = after := by simpa using hsign
      exact .inr ⟨not_endsInDigit_nil, [], ⟨rest, rfl⟩, rfl⟩
    | cons d more =>
      obtain ⟨rfl, hmore⟩ : c = d ∧ rest.flatMap typed = more ++ '%' :: after := by simpa using hsign
      have hdigit : EndsInDigit (c :: more) ↔ EndsInDigit more := by
        cases more with
        | nil =>
          rw [hmore, List.nil_append] at hnone
          have hc : ¬ isDigit c := fun hc => hnone (beginsPercentage_of_digit hc after)
          simp [EndsInDigit, hc]
        | cons e others => exact endsInDigit_append (s := [c]) (List.cons_ne_nil e others)
      rw [hdigit]
      rcases ih hmore with ⟨hends, front, numeral, hplace⟩ | ⟨hends, front, hplace⟩
      · exact .inl ⟨hends, _, numeral, hplace.cons (.kept c)⟩
      · exact .inr ⟨hends, _, hplace.cons (.kept c)⟩
  | @percentage numeral rest hnumeral hrest ih =>
    rw [flatMap_typed_percentage] at hsign
    rcases cases_of_append_cons_eq hnumeral.percent_not_mem hsign with ⟨rfl, rfl⟩ | ⟨more, rfl, hmore⟩
    · exact .inl ⟨hnumeral.endsInDigit, [], before, ⟨rest, rfl⟩, rfl⟩
    · have htext : numeral ++ '%' :: more ++ ['%'] = (Portion.percentage numeral).typed ++ (more ++ ['%']) := by
        simp [typed]
      rw [endsInDigit_append_percent, htext]
      rcases ih hmore with ⟨hends, front, other, hplace⟩ | ⟨hends, front, hplace⟩
      · exact .inl ⟨hends, _, other, hplace.cons _⟩
      · exact .inr ⟨hends, _, hplace.cons _⟩

/-! ### Expanded lines -/

/-- No digit of the text has a percent sign directly behind it. -/
def IsSettled (s : List Char) : Prop := s.IsChain fun c d => isDigit c → d ≠ '%'

theorem isSettled_iff :
    IsSettled s ↔ ∀ before c after, s = before ++ c :: '%' :: after → isDigit c = false := by
  rw [IsSettled, List.isChain_iff_forall_rel_of_append_cons_cons]
  constructor
  · intro h before c after hs
    by_contra hc
    exact h hs (by simpa using hc) rfl
  · rintro h c d before after hs hc rfl
    rw [h before c after hs] at hc
    cases hc

theorem isSettled_of_percent_not_mem (h : '%' ∉ s) : IsSettled s := by
  rw [isSettled_iff]
  rintro before c after rfl
  exact absurd h (by simp)

theorem percent_not_mem_hundredth (h : '%' ∉ numeral) : '%' ∉ hundredth numeral := by
  simpa [hundredth] using h

theorem isSettled_expandPercent (line : List Char) : IsSettled (expandPercent line) := by
  obtain ⟨portions, hscan, rfl⟩ := exists_isScan line
  induction hscan with
  | nil =>
    rw [List.flatMap_nil, expandPercent]
    exact .nil
  | @kept c rest hnone hrest ih =>
    rw [flatMap_typed_kept, expandPercent_kept hnone, IsSettled, List.isChain_cons]
    refine ⟨?_, ih⟩
    rintro _ hhead hc rfl
    rcases head?_expandPercent (rest.flatMap typed) with hsame | hbracket
    · -- The line itself goes on with the sign behind the digit, so a percentage begins there.
      rw [hsame] at hhead
      obtain ⟨after, hafter⟩ := List.head?_eq_some_iff.mp hhead
      apply hnone
      rw [hafter]
      exact beginsPercentage_of_digit hc after
    · rw [hbracket] at hhead
      cases hhead
  | percentage hnumeral _ ih =>
    rw [flatMap_typed_percentage, expandPercent_percentage hnumeral, IsSettled, List.isChain_append]
    refine ⟨isSettled_of_percent_not_mem (percent_not_mem_hundredth hnumeral.percent_not_mem), ih, ?_⟩
    intro last hlast _ _ hdigit
    rw [getLast?_hundredth, Option.mem_some_iff] at hlast
    subst hlast
    exact absurd hdigit (by decide)

/-- A line is left as it is exactly if no digit in it has a percent sign behind it. -/
theorem expandPercent_eq_self_iff (line : List Char) : expandPercent line = line ↔ IsSettled line := by
  constructor
  · intro h
    rw [← h]
    exact isSettled_expandPercent line
  · obtain ⟨portions, hscan, rfl⟩ := exists_isScan line
    intro hsettled
    induction hscan with
    | nil => rw [List.flatMap_nil, expandPercent]
    | kept hnone _ ih =>
      rw [flatMap_typed_kept] at hsettled ⊢
      rw [expandPercent_kept hnone, ih (List.isChain_cons.mp hsettled).2]
    | percentage hnumeral _ _ =>
      obtain ⟨last, hlast, hdigit⟩ := hnumeral.endsInDigit
      obtain ⟨front, rfl⟩ := List.getLast?_eq_some_iff.mp hlast
      rw [flatMap_typed_percentage, List.append_assoc] at hsettled
      rw [isSettled_iff.mp hsettled front last _ rfl] at hdigit
      cases hdigit

/-- The expansion of a line writes out every percentage and nothing else.  The line has one scan, whose percentages are
    written out and whose other characters stay in their places; a percent sign with a digit in front of it belongs to
    exactly one of the percentages, and any other one is kept.  In the expanded line no digit has a percent sign behind
    it, and there is nothing left to write out. -/
theorem expansion_is_complete_and_idempotent (line : List Char) :
    (∃ portions, IsScan portions ∧ portions.flatMap typed = line ∧ portions.flatMap expanded = expandPercent line ∧
      (∀ other, IsScan other → other.flatMap typed = line → other = portions) ∧
      ∀ before after, line = before ++ '%' :: after →
        (EndsInDigit before →
          ∃! front, ∃ numeral, EndsAt portions front (.percentage numeral) (before ++ ['%'])) ∧
        (¬ EndsInDigit before → ∃! front, EndsAt portions front (.kept '%') (before ++ ['%']))) ∧
    (∀ before c after, expandPercent line = before ++ c :: '%' :: after → isDigit c = false) ∧
    expandPercent (expandPercent line) = expandPercent line := by
  have hsettled : IsSettled (expandPercent line) := isSettled_expandPercent line
  refine ⟨?_, isSettled_iff.mp hsettled, (expandPercent_eq_self_iff _).mpr hsettled⟩
  obtain ⟨portions, hscan, rfl⟩ := exists_isScan line
  refine ⟨portions, hscan, rfl, hscan.expandPercent_eq.symm, fun other => hscan.unique, ?_⟩
  intro before after hsign
  rcases hscan.exists_endsAt hsign with ⟨hends, front, numeral, hplace⟩ | ⟨hends, front, hplace⟩
  · constructor
    · intro _
      refine ⟨front, ⟨numeral, hplace⟩, ?_⟩
      rintro front' ⟨_, hplace'⟩
      exact hplace.unique hplace'
    · intro hnot
      exact absurd hends hnot
  · constructor
    · intro hdigit
      exact absurd hdigit hends
    · intro _
      refine ⟨front, hplace, ?_⟩
      intro front' hplace'
      exact hplace.unique hplace'

/-- A second point ends no numeral, a second sign is kept, and two percentages may touch. -/
example : expandPercent "1.2.3% + 5%% - 1%2%".toList = "1.(2.3/100) + (5/100)% - (1/100)(2/100)".toList := by
  decide +kernel

end Reckoner.Document
