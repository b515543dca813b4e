import Mathlib.Data.List.DropRight
import Reckoner.Document.Percent
import Reckoner.Proofs.Text.Runs

/-!
# Writing out percentages

Writing out the percentages of a line is done from left to right, and what stands in front of a numeral does not matter
for what becomes of it.  The identifiers of the line are those of the typed line, except that one that ends in digits
loses them to a percentage where a percent sign follows.
-/

namespace Reckoner.Document

open Reckoner.Text

variable {s t digits : List Char}

/-! ### Runs of digits -/

/-- No numeral goes on behind the text: it is empty, or its last character is neither a digit nor a point. -/
def EndsNumeral (s : List Char) : Prop := ∀ c ∈ s.getLast?, isDigit c = false ∧ c ≠ '.'

theorem EndsNumeral.of_suffix (h : EndsNumeral s) (ht : t <:+ s) : EndsNumeral t := by
  intro c hc
  obtain ⟨front, rfl⟩ := ht
  apply h c
  have hne : t ≠ [] := by
    rintro rfl
    simp at hc
  rwa [List.getLast?_append_of_ne_nil _ hne]

/-- The digits behind a point are not the end of a text that ends every numeral. -/
theorem EndsNumeral.dropWhile_rest_ne_nil (h : EndsNumeral ('.' :: s)) : s.dropWhile isDigit ≠ [] := by
  intro hnil
  cases hlast : s.getLast? with
  | none =>
    rw [List.getLast?_eq_none_iff] at hlast
    exact (h '.' (by simp [hlast])).2 rfl
  | some c =>
    have hdigit := List.dropWhile_eq_nil_iff.mp hnil c (List.mem_of_getLast? hlast)
    rw [(h.of_suffix (List.suffix_cons '.' s) c hlast).1] at hdigit
    cases hdigit

/-- No numeral goes on into the text, and no percentage: it is empty, or begins with neither a digit, nor a point, nor
    a percent sign. -/
def BeginsAfresh (s : List Char) : Prop := ∀ c ∈ s.head?, isDigit c = false ∧ c ≠ '.' ∧ c ≠ '%'

theorem BeginsAfresh.stopsAt (h : BeginsAfresh s) : StopsAt isDigit s := fun c hc => (h c hc).1

theorem takeWhile_append_of_dropWhile {p : Char → Bool} (h : s.dropWhile p ≠ []) (t : List Char) :
    (s ++ t).takeWhile p = s.takeWhile p ∧ (s ++ t).dropWhile p = s.dropWhile p ++ t := by
  have hlength : (s.takeWhile p).length ≠ s.length := by
    intro hlength
    apply h
    have hsum := congrArg List.length (List.takeWhile_append_dropWhile (p := p) (l := s))
    rw [List.length_append] at hsum
    exact List.eq_nil_of_length_eq_zero (by omega)
  rw [List.takeWhile_append, List.dropWhile_append, if_neg hlength, if_neg (by simpa using h)]
  exact ⟨rfl, rfl⟩

/-! ### Percent signs behind a run of digits -/

theorem eq_of_percentTail? {fraction after : List Char} (h : percentTail? s = some (fraction, after)) :
    s = fraction ++ '%' :: after ∧
      (fraction = [] ∨ ∃ more, fraction = '.' :: more ∧ more ≠ [] ∧ ∀ c ∈ more, isDigit c) := by
  unfold percentTail? at h
  split at h
  · obtain ⟨rfl, rfl⟩ : [] = fraction ∧ _ = after := by simpa using h
    exact ⟨rfl, .inl rfl⟩
  · rename_i rest
    dsimp only at h
    split at h
    · rename_i after' hdrop
      split at h
      · cases h
      · rename_i hempty
        obtain ⟨rfl, rfl⟩ : '.' :: rest.takeWhile isDigit = fraction ∧ after' = after := by simpa using h
        refine ⟨?_, .inr ⟨_, rfl, by simpa using hempty, fun c hc => List.mem_takeWhile_imp hc⟩⟩
        rw [List.cons_append, ← hdrop, List.takeWhile_append_dropWhile]
    · cases h
  · cases h

theorem stopsAt_of_percentTail? {fraction after : List Char} (h : percentTail? s = some (fraction, after)) :
    StopsAt isWord s := by
  obtain ⟨rfl, rfl | ⟨more, rfl, -⟩⟩ := eq_of_percentTail? h
  · rw [List.nil_append, stopsAt_cons]
    decide
  · rw [List.cons_append, stopsAt_cons]
    decide

theorem percentTail?_percent (s : List Char) : percentTail? ('%' :: s) = some ([], s) := rfl

theorem percentTail?_point (hdigits : ∀ c ∈ digits, isDigit c) (hsome : digits ≠ []) (s : List Char) :
    percentTail? ('.' :: (digits ++ '%' :: s)) = some ('.' :: digits, s) := by
  have hstops : StopsAt isDigit ('%' :: s) := by
    rw [stopsAt_cons]
    decide
  have htake : (digits ++ '%' :: s).takeWhile isDigit = digits := by
    rw [takeWhile_append_of_stopsAt _ hstops, List.takeWhile_eq_self_iff]
    exact hdigits
  have hdrop : (digits ++ '%' :: s).dropWhile isDigit = '%' :: s := by
    rw [List.dropWhile_append_of_pos hdigits, dropWhile_of_stopsAt hstops]
  simp [percentTail?, htake, hdrop, hsome]

/-- What is found behind a run of digits does not depend on a text further behind, unless a numeral goes on into it. -/
theorem percentTail?_append (h : EndsNumeral s ∧ s ≠ [] ∨ BeginsAfresh t) :
    percentTail? (s ++ t) = (percentTail? s).map fun tail => (tail.1, tail.2 ++ t) := by
  cases s with
  | nil =>
    have ht : BeginsAfresh t := by simpa using h
    cases t with
    | nil => rfl
    | cons d more =>
      obtain ⟨_, hpoint, hpercent⟩ := ht d rfl
      simp [percentTail?, hpoint, hpercent]
  | cons c rest =>
    by_cases hpercent : c = '%'
    · subst hpercent
      rfl
    · by_cases hpoint : c = '.'
      · subst hpoint
        have hparts : (rest ++ t).takeWhile isDigit = rest.takeWhile isDigit ∧
            (rest ++ t).dropWhile isDigit = rest.dropWhile isDigit ++ t := by
          rcases h with ⟨hends, -⟩ | ht
          · exact takeWhile_append_of_dropWhile hends.dropWhile_rest_ne_nil t
          · exact ⟨takeWhile_append_of_stopsAt rest ht.stopsAt, dropWhile_append_of_stopsAt rest ht.stopsAt⟩
        rw [List.cons_append]
        simp only [percentTail?, hparts.1, hparts.2]
        cases hd : rest.dropWhile isDigit with
        | nil =>
          rcases h with ⟨hends, -⟩ | ht
          · exact absurd hd hends.dropWhile_rest_ne_nil
          · cases t with
            | nil => rfl
            | cons d more => simp [(ht d rfl).2.2]
        | cons d more =>
          by_cases hsign : d = '%'
          · subst hsign
            cases (rest.takeWhile isDigit).isEmpty <;> rfl
          · simp [hsign]
      · simp [percentTail?, hpercent, hpoint]

/-! ### Groups of hundredths -/

theorem stopsAt_hundredth (numeral s : List Char) : StopsAt isWord (hundredth numeral ++ s) := by
  rw [hundredth, List.cons_append, List.cons_append, stopsAt_cons]
  decide

theorem getLast?_hundredth (numeral : List Char) : (hundredth numeral).getLast? = some ')' := by
  rw [hundredth, List.getLast?_append]
  rfl

/-! ### Expansion part by part -/

theorem expandPercent_cons {c : Char} (hc : isDigit c = false) (s : List Char) :
    expandPercent (c :: s) = c :: expandPercent s := by
  rw [expandPercent, if_neg (by simp [hc])]

/-- What becomes of a run of digits is decided by what follows it. -/
theorem expandPercent_digits (hdigits : ∀ c ∈ digits, isDigit c) (hsome : digits ≠ []) (hs : StopsAt isDigit s) :
    expandPercent (digits ++ s) =
      match percentTail? s with
      | some (fraction, after) => hundredth (digits ++ fraction) ++ expandPercent after
      | none => digits ++ expandPercent s := by
  cases digits with
  | nil => exact absurd rfl hsome
  | cons c rest =>
    have hc : isDigit c = true := hdigits c List.mem_cons_self
    have hrest : ∀ d ∈ rest, isDigit d := fun d hd => hdigits d (List.mem_cons_of_mem c hd)
    have htake : (rest ++ s).takeWhile isDigit = rest := by
      rw [takeWhile_append_of_stopsAt _ hs, List.takeWhile_eq_self_iff]
      exact hrest
    have hdrop : (rest ++ s).dropWhile isDigit = s := by
      rw [List.dropWhile_append_of_pos hrest, dropWhile_of_stopsAt hs]
    rw [List.cons_append, expandPercent, if_pos hc]
    split
    · rename_i fraction after htail
      rw [hdrop] at htail
      simp only [htake, htail]
    · rename_i htail
      rw [hdrop] at htail
      simp only [htake, hdrop, htail]

theorem expandPercent_of_percentTail? {fraction after : List Char} (hdigits : ∀ c ∈ digits, isDigit c)
    (hsome : digits ≠ []) (htail : percentTail? s = some (fraction, after)) :
    expandPercent (digits ++ s) = hundredth (digits ++ fraction) ++ expandPercent after := by
  rw [expandPercent_digits hdigits hsome (stopsAt_isDigit_of_isWord (stopsAt_of_percentTail? htail))]
  simp only [htail]

theorem expandPercent_digits_of_none (hdigits : ∀ c ∈ digits, isDigit c) (hs : StopsAt isDigit s)
    (htail : percentTail? s = none) : expandPercent (digits ++ s) = digits ++ expandPercent s := by
  by_cases hsome : digits = []
  · rw [hsome, List.nil_append, List.nil_append]
  · rw [expandPercent_digits hdigits hsome hs]
    simp only [htail]

/-- A line is empty, or begins with a character other than a digit, or with a run of digits; what comes behind a run
    may be cut short before the induction goes on. -/
theorem digitRun_induction {P : List Char → Prop} (nil : P [])
    (character : ∀ c s, isDigit c = false → P s → P (c :: s))
    (digits : ∀ digits s, (∀ c ∈ digits, isDigit c) → digits ≠ [] → StopsAt isDigit s → (∀ t, t <:+ s → P t) →
      P (digits ++ s)) (line : List Char) : P line := by
  induction hlength : line.length using Nat.strongRecOn generalizing line with
  | ind n ih =>
    subst hlength
    cases line with
    | nil => exact nil
    | cons c rest =>
      by_cases hc : isDigit c
      · have hdrop : (c :: rest).dropWhile isDigit = rest.dropWhile isDigit := List.dropWhile_cons_of_pos hc
        have htake : (c :: rest).takeWhile isDigit ≠ [] := by simp [hc]
        have hstops : StopsAt isDigit ((c :: rest).dropWhile isDigit) := stopsAt_dropWhile _ _
        rw [← List.takeWhile_append_dropWhile (p := isDigit) (l := c :: rest)]
        refine digits _ _ (fun d hd => List.mem_takeWhile_imp hd) htake hstops fun t ht => ih _ ?_ t rfl
        rw [hdrop] at ht
        have hlength := (ht.trans (List.dropWhile_suffix _)).length_le
        rw [List.length_cons]
        omega
      · exact character c rest (by simpa using hc) (ih _ (by simp) rest rfl)

/-- A line is expanded part by part where no numeral goes on from one part into the next. -/
theorem expandPercent_append (h : EndsNumeral s ∨ BeginsAfresh t) :
    expandPercent (s ++ t) = expandPercent s ++ expandPercent t := by
  have hseam {u : List Char} (hu : u <:+ s) : EndsNumeral u ∨ BeginsAfresh t := h.imp_left (·.of_suffix hu)
  induction s using digitRun_induction with
  | nil => rw [expandPercent, List.nil_append, List.nil_append]
  | character c s hc ih =>
    have hs : s <:+ c :: s := List.suffix_cons c s
    rw [List.cons_append, expandPercent_cons hc, expandPercent_cons hc,
      ih (hseam hs) fun hu => hseam (hu.trans hs), List.cons_append]
  | digits digits s hdigits hsome hstops ih =>
    have hs : s <:+ digits ++ s := List.suffix_append digits s
    have hbreak : EndsNumeral s ∧ s ≠ [] ∨ BeginsAfresh t := by
      refine h.imp_left fun hends => ⟨hends.of_suffix hs, ?_⟩
      rintro rfl
      have hlast := hends (digits.getLast hsome) (by simp [List.getLast?_eq_some_getLast hsome])
      rw [hdigits _ (List.getLast_mem hsome)] at hlast
      cases hlast.1
    have hstops' : StopsAt isDigit (s ++ t) := by
      cases s with
      | nil => exact (hbreak.resolve_left (by simp)).stopsAt
      | cons c rest => exact stopsAt_cons.mpr (stopsAt_cons.mp hstops)
    rw [List.append_assoc, expandPercent_digits hdigits hsome hstops, expandPercent_digits hdigits hsome hstops',
      percentTail?_append hbreak]
    cases htail : percentTail? s with
    | none =>
      simp only [Option.map_none, ih s List.suffix_rfl (hseam hs) fun hu => hseam (hu.trans hs), List.append_assoc]
    | some tail =>
      obtain ⟨fraction, after⟩ := tail
      have hafter : after <:+ s := by
        rw [(eq_of_percentTail? htail).1]
        exact (List.suffix_cons _ _).trans (List.suffix_append _ _)
      have hsuffix := hafter.trans hs
      simp only [Option.map_some, ih after hafter (hseam hsuffix) fun hu => hseam (hu.trans hsuffix),
        List.append_assoc]

/-- A line without a percent sign is left as it is. -/
theorem expandPercent_eq_self (h : '%' ∉ s) : expandPercent s = s := by
  induction s using digitRun_induction with
  | nil => rw [expandPercent]
  | character c s hc ih => rw [expandPercent_cons hc, ih fun hmem => h (List.mem_cons_of_mem c hmem)]
  | digits digits s hdigits hsome hstops ih =>
    have hs : '%' ∉ s := fun hmem => h (List.mem_append_right digits hmem)
    have htail : percentTail? s = none := by
      by_contra htail
      obtain ⟨⟨fraction, after⟩, htail⟩ := Option.ne_none_iff_exists'.mp htail
      apply hs
      rw [(eq_of_percentTail? htail).1]
      simp
    rw [expandPercent_digits_of_none hdigits hstops htail, ih s List.suffix_rfl hs]

/-! ### Identifiers -/

theorem not_begins_of_isDigit {c : Char} (h : isDigit c) : beginsIdentifier c = false := by
  simp [beginsIdentifier, h]

theorem identifiers_digits (hdigits : ∀ c ∈ digits, isDigit c) (s : List Char) :
    identifiers (digits ++ s) = identifiers s :=
  identifiers_append_of_not_begins (fun c hc => not_begins_of_isDigit (hdigits c hc)) s

theorem not_begins_of_mem_hundredth {numeral : List Char} (h : ∀ c ∈ numeral, beginsIdentifier c = false) :
    ∀ c ∈ hundredth numeral, beginsIdentifier c = false := by
  intro c hc
  simp only [hundredth, List.cons_append, List.mem_cons, List.mem_append, List.not_mem_nil, or_false] at hc
  rcases hc with rfl | hc | rfl | rfl | rfl | rfl | rfl
  · decide
  · exact h c hc
  all_goals decide

theorem identifiers_hundredth {numeral : List Char} (h : ∀ c ∈ numeral, beginsIdentifier c = false) (s : List Char) :
    identifiers (hundredth numeral ++ s) = identifiers s :=
  identifiers_append_of_not_begins (not_begins_of_mem_hundredth h) s

/-- No identifier begins in a numeral with a percent sign behind it. -/
theorem not_begins_of_percentTail? {fraction after : List Char} (hdigits : ∀ c ∈ digits, isDigit c)
    (htail : percentTail? s = some (fraction, after)) : ∀ c ∈ digits ++ fraction, beginsIdentifier c = false := by
  intro c hc
  rcases List.mem_append.mp hc with hc | hc
  · exact not_begins_of_isDigit (hdigits c hc)
  · obtain ⟨-, rfl | ⟨more, rfl, -, hmore⟩⟩ := eq_of_percentTail? htail
    · simp at hc
    · rcases List.mem_cons.mp hc with rfl | hc
      · decide
      · exact not_begins_of_isDigit (hmore c hc)

/-- The identifiers behind a percent sign are those behind the numeral in front of it. -/
theorem identifiers_expandPercent_of_percentTail? {fraction after : List Char}
    (htail : percentTail? s = some (fraction, after)) :
    identifiers (expandPercent s) = identifiers (expandPercent after) := by
  have hsign : identifiers ('%' :: expandPercent after) = identifiers (expandPercent after) :=
    identifiers_append_of_not_begins (s := ['%']) (by decide) _
  obtain ⟨rfl, rfl | ⟨more, rfl, hsome, hmore⟩⟩ := eq_of_percentTail? htail
  · rw [List.nil_append, expandPercent_cons (by decide), hsign]
  · have hpoint : identifiers ('.' :: (hundredth more ++ expandPercent after)) =
        identifiers (hundredth more ++ expandPercent after) :=
      identifiers_append_of_not_begins (s := ['.']) (by decide) _
    rw [List.cons_append, expandPercent_cons (by decide),
      expandPercent_of_percentTail? hmore hsome (percentTail?_percent after), List.append_nil, hpoint,
      identifiers_hundredth fun c hc => not_begins_of_isDigit (hmore c hc)]

/-- The first character of a line stays, unless a bracket takes its place. -/
theorem head?_expandPercent (s : List Char) :
    (expandPercent s).head? = s.head? ∨ (expandPercent s).head? = some '(' := by
  cases s with
  | nil =>
    left
    rw [expandPercent]
  | cons c rest =>
    rw [expandPercent]
    split
    · dsimp only
      split
      · right
        rfl
      · left
        rfl
    · left
      rfl

/-- The last character of a line stays, unless a bracket takes its place. -/
theorem getLast?_expandPercent (s : List Char) :
    (expandPercent s).getLast? = s.getLast? ∨ (expandPercent s).getLast? = some ')' := by
  induction s using digitRun_induction with
  | nil =>
    left
    rw [expandPercent]
  | character c s hc ih =>
    rw [expandPercent_cons hc, List.getLast?_cons, List.getLast?_cons]
    exact ih.imp (by simp [·]) (by simp [·])
  | digits digits s hdigits hsome hstops ih =>
    rw [expandPercent_digits hdigits hsome hstops]
    cases htail : percentTail? s with
    | none =>
      simp only [List.getLast?_append]
      exact (ih s List.suffix_rfl).imp (by simp [·]) (by simp [·])
    | some tail =>
      obtain ⟨fraction, after⟩ := tail
      obtain ⟨hs, -⟩ := eq_of_percentTail? htail
      have hafter : after <:+ s := by
        rw [hs]
        exact (List.suffix_cons _ _).trans (List.suffix_append _ _)
      simp only [List.getLast?_append, getLast?_hundredth, hs]
      cases hlast : after.getLast? with
      | none =>
        rw [List.getLast?_eq_none_iff] at hlast
        subst hlast
        right
        rw [expandPercent]
        rfl
      | some c => exact (ih after hafter).imp (by simp [·, hlast, List.getLast?_cons]) (by simp [·])

theorem stopsAt_expandPercent (hs : StopsAt isWord s) : StopsAt isWord (expandPercent s) := by
  intro c hc
  rcases head?_expandPercent s with hsame | hbracket
  · exact hs c (hsame ▸ hc)
  · rw [hbracket, Option.mem_some_iff] at hc
    subst hc
    decide

/-- A digit in front of a line, part of a percentage or not, adds no identifier. -/
theorem identifiers_expandPercent_of_isDigit {c : Char} (hc : isDigit c) (s : List Char) :
    identifiers (expandPercent (c :: s)) = identifiers (expandPercent s) := by
  obtain ⟨run, tail, rfl, hrun, hstops⟩ := exists_run isDigit s
  have hdigits : ∀ d ∈ c :: run, isDigit d := by
    intro d hd
    rcases List.mem_cons.mp hd with rfl | hd
    · exact hc
    · exact hrun d hd
  cases htail : percentTail? tail with
  | none =>
    rw [← List.cons_append, expandPercent_digits_of_none hdigits hstops htail, identifiers_digits hdigits,
      expandPercent_digits_of_none hrun hstops htail, identifiers_digits hrun]
  | some found =>
    obtain ⟨fraction, after⟩ := found
    have hrest : identifiers (expandPercent (run ++ tail)) = identifiers (expandPercent after) := by
      cases run with
      | nil => exact identifiers_expandPercent_of_percentTail? htail
      | cons d more =>
        rw [expandPercent_of_percentTail? hrun (by simp) htail,
          identifiers_hundredth (not_begins_of_percentTail? hrun htail)]
    rw [← List.cons_append, expandPercent_of_percentTail? hdigits (by simp) htail, hrest,
      identifiers_hundredth (not_begins_of_percentTail? hdigits htail)]

/-- The identifiers of a line as they come out of the expansion: one with a percent sign behind it, or behind a point
    and digits, is cut off before the digits at its end. -/
def cutNames : List Piece → List (List Char)
  | [] => []
  | .other _ :: rest => cutNames rest
  | .identifier name :: rest =>
    (if (percentTail? (rest.flatMap Piece.text)).isSome then name.rdropWhile isDigit else name) :: cutNames rest

/-- What comes out is an identifier, or what is left of one without the digits at its end. -/
theorem exists_of_mem_cutNames {ps : List Piece} {name : List Char} (h : name ∈ cutNames ps) :
    ∃ whole, .identifier whole ∈ ps ∧ (name = whole ∨ name = whole.rdropWhile isDigit) := by
  induction ps with
  | nil => cases h
  | cons piece rest ih =>
    have hrest (h : name ∈ cutNames rest) :
        ∃ whole, .identifier whole ∈ piece :: rest ∧ (name = whole ∨ name = whole.rdropWhile isDigit) := by
      obtain ⟨whole, hwhole, hname⟩ := ih h
      exact ⟨whole, List.mem_cons_of_mem piece hwhole, hname⟩
    cases piece with
    | other c => exact hrest h
    | identifier whole =>
      rcases List.mem_cons.mp h with rfl | h
      · refine ⟨whole, List.mem_cons_self, ?_⟩
        split
        · exact .inr rfl
        · exact .inl rfl
      · exact hrest h

/-- What is left of a word without the digits at its end ends every numeral. -/
theorem endsNumeral_rdropWhile {word : List Char} (hword : ∀ c ∈ word, isWord c) :
    EndsNumeral (word.rdropWhile isDigit) := by
  intro c hc
  obtain ⟨hne, rfl⟩ := List.mem_getLast?_eq_getLast hc
  refine ⟨by simpa using List.rdropWhile_last_not isDigit word hne, ?_⟩
  intro hpoint
  have hlast := hword _ ((List.rdropWhile_prefix isDigit word).subset (List.getLast_mem hne))
  rw [hpoint] at hlast
  exact absurd hlast (by decide)

/-- A word in front of a text that does not go on with it stays as it is, unless digits at its end are the numeral of a
    percentage. -/
theorem expandPercent_word {word : List Char} (hword : ∀ c ∈ word, isWord c) (hs : StopsAt isWord s) :
    expandPercent (word ++ s) = word ++ expandPercent s ∧
        ((percentTail? s).isSome → word.rdropWhile isDigit = word) ∨
      ∃ fraction after, percentTail? s = some (fraction, after) ∧ word.rtakeWhile isDigit ≠ [] ∧
        expandPercent (word ++ s) =
          word.rdropWhile isDigit ++ (hundredth (word.rtakeWhile isDigit ++ fraction) ++ expandPercent after) := by
  have hsplit : word.rdropWhile isDigit ++ word.rtakeWhile isDigit = word := List.rdropWhile_append_rtakeWhile
  have hplain : expandPercent (word.rdropWhile isDigit) = word.rdropWhile isDigit := by
    apply expandPercent_eq_self
    intro hmem
    exact absurd (hword _ ((List.rdropWhile_prefix isDigit word).subset hmem)) (by decide)
  have hline : expandPercent (word ++ s) = word.rdropWhile isDigit ++ expandPercent (word.rtakeWhile isDigit ++ s) := by
    conv_lhs => rw [← hsplit, List.append_assoc]
    rw [expandPercent_append (.inl (endsNumeral_rdropWhile hword)), hplain]
  have hdigits : ∀ c ∈ word.rtakeWhile isDigit, isDigit c := fun c hc => List.mem_rtakeWhile_imp hc
  by_cases hsome : word.rtakeWhile isDigit = []
  · rw [hsome, List.append_nil] at hsplit
    rw [hsome, hsplit] at hline
    exact .inl ⟨hline, fun _ => hsplit⟩
  · cases htail : percentTail? s with
    | none =>
      rw [expandPercent_digits_of_none hdigits (stopsAt_isDigit_of_isWord hs) htail, ← List.append_assoc, hsplit]
        at hline
      exact .inl ⟨hline, fun h => by simp at h⟩
    | some tail =>
      obtain ⟨fraction, after⟩ := tail
      rw [expandPercent_of_percentTail? hdigits hsome htail] at hline
      exact .inr ⟨fraction, after, rfl, hsome, hline⟩

/-- An identifier without the digits at its end is still one. -/
theorem identifiers_rdropWhile {c : Char} {word : List Char} (hc : beginsIdentifier c) (hword : ∀ d ∈ word, isWord d) :
    identifiers ((c :: word).rdropWhile isDigit) = [(c :: word).rdropWhile isDigit] := by
  have hprefix : (c :: word).rdropWhile isDigit <+: c :: word := List.rdropWhile_prefix isDigit _
  cases hstem : (c :: word).rdropWhile isDigit with
  | nil =>
    have hdigit := List.rdropWhile_eq_nil_iff.mp hstem c List.mem_cons_self
    rw [not_begins_of_isDigit hdigit] at hc
    cases hc
  | cons d more =>
    rw [hstem, List.cons_prefix_cons] at hprefix
    obtain ⟨rfl, hmore⟩ := hprefix
    exact identifiers_of_word hc fun e he => hword e (hmore.subset he)

/-- An identifier in front of a text that does not go on with it comes out of the expansion whole or without the
    digits at its end. -/
theorem identifiers_expandPercent_word {c : Char} {word : List Char} (hc : beginsIdentifier c)
    (hword : ∀ d ∈ word, isWord d) (hs : StopsAt isWord s) :
    identifiers (expandPercent (c :: word ++ s)) =
      (if (percentTail? s).isSome then (c :: word).rdropWhile isDigit else c :: word) ::
        identifiers (expandPercent s) := by
  have hall : ∀ d ∈ c :: word, isWord d := by
    simp only [beginsIdentifier, Bool.and_eq_true] at hc
    exact List.forall_mem_cons.mpr ⟨hc.1, hword⟩
  rcases expandPercent_word hall hs with ⟨hline, hwhole⟩ | ⟨fraction, after, htail, -, hline⟩
  · rw [hline, identifiers_append _ (stopsAt_expandPercent hs), identifiers_of_word hc hword, List.singleton_append]
    split
    · rename_i hsome
      rw [hwhole hsome]
    · rfl
  · have hdigits : ∀ d ∈ (c :: word).rtakeWhile isDigit, isDigit d := fun d hd => List.mem_rtakeWhile_imp hd
    rw [hline, identifiers_append _ (stopsAt_hundredth _ _), identifiers_rdropWhile hc hword,
      identifiers_hundredth (not_begins_of_percentTail? hdigits htail),
      identifiers_expandPercent_of_percentTail? htail, if_pos (by simp [htail]), List.singleton_append]

/-- The expansion of a line cuts digits off some of its identifiers, and does nothing else to them. -/
theorem identifiers_expandPercent (line : List Char) : identifiers (expandPercent line) = cutNames (pieces line) := by
  fun_induction pieces line with
  | case1 => rw [expandPercent, identifiers, pieces, List.filterMap_nil, cutNames]
  | case2 c rest hc ih =>
    have hword : ∀ d ∈ rest.takeWhile isWord, isWord d := fun d hd => List.mem_takeWhile_imp hd
    have hline : c :: rest = c :: rest.takeWhile isWord ++ rest.dropWhile isWord := by
      rw [List.cons_append, List.takeWhile_append_dropWhile]
    rw [hline, identifiers_expandPercent_word hc hword (stopsAt_dropWhile _ _), ih, cutNames, flatMap_text_pieces]
  | case3 c rest hc ih =>
    rw [cutNames, ← ih]
    by_cases hdigit : isDigit c
    · exact identifiers_expandPercent_of_isDigit hdigit rest
    · have hbegins : ∀ d ∈ [c], beginsIdentifier d = false := by simpa using hc
      rw [expandPercent_cons (by simpa using hdigit)]
      exact identifiers_append_of_not_begins hbegins _

/-- Of the identifiers behind any place of a line, none that ends in a digit has a percent sign behind it, or a point
    and digits in front of one. -/
def KeepsNames (line : List Char) : Prop :=
  ∀ name rest, .identifier name :: rest <:+ pieces line → (∃ c ∈ name.getLast?, isDigit c) →
    percentTail? (rest.flatMap Piece.text) = none

theorem rdropWhile_eq_self_iff {name : List Char} :
    name.rdropWhile isDigit = name ↔ ¬ ∃ c ∈ name.getLast?, isDigit c := by
  rw [List.rdropWhile_eq_self_iff]
  constructor
  · rintro h ⟨c, hc, hdigit⟩
    obtain ⟨hne, rfl⟩ := List.mem_getLast?_eq_getLast hc
    exact h hne hdigit
  · intro h hne hdigit
    exact h ⟨_, List.getLast?_eq_some_getLast hne, hdigit⟩

theorem cutNames_eq_iff (ps : List Piece) :
    (cutNames ps = ps.filterMap fun
      | .identifier name => some name
      | .other _ => none) ↔
    ∀ name rest, .identifier name :: rest <:+ ps → (∃ c ∈ name.getLast?, isDigit c) →
      percentTail? (rest.flatMap Piece.text) = none := by
  induction ps with
  | nil => simp [cutNames]
  | cons piece more ih =>
    simp only [List.suffix_cons_iff, or_imp, forall_and, ← ih]
    cases piece with
    | other c => simp [cutNames]
    | identifier name =>
      simp only [cutNames, List.filterMap_cons, List.cons.injEq, Piece.identifier.injEq]
      refine and_congr_left fun _ => ?_
      cases htail : percentTail? (more.flatMap Piece.text) with
      | none =>
        simp only [Option.isSome_none, Bool.false_eq_true, if_false, true_iff]
        rintro _ _ ⟨rfl, rfl⟩ _
        exact htail
      | some tail =>
        rw [Option.isSome_some, if_pos rfl, rdropWhile_eq_self_iff]
        constructor
        · rintro hname _ _ ⟨rfl, rfl⟩ hdigit
          exact absurd hdigit hname
        · intro h hdigit
          rw [h name more ⟨rfl, rfl⟩ hdigit] at htail
          cases htail

/-- The expansion leaves the identifiers of a line alone exactly if it cuts none of them. -/
theorem identifiers_expandPercent_eq_iff (line : List Char) :
    identifiers (expandPercent line) = identifiers line ↔ KeepsNames line := by
  rw [identifiers_expandPercent]
  exact cutNames_eq_iff (pieces line)

end Reckoner.Document
