import Reckoner.Proofs.Document.Inspection
import Reckoner.Proofs.Document.PreviousAnswer

/-!
# What is kept from the engine

A line that is not rejected is written out, put together and renamed before the engine reads it.  None of these steps
brings two underscores together.  A forbidden word comes out of them in one way only: it stands in front of digits that
are taken for the numeral of a percentage, and is cut loose from them.
-/

namespace Reckoner.Document

open Reckoner.Expression Reckoner.Number Reckoner.Text

variable {settings : Settings} {context : Context} {aliases : Aliases} {line digits s t : List Char}

theorem exists_prepared {text : List Char} (h : (prepare settings context line).map Prod.fst = .ok text) :
    ∃ prepared, prepare settings context line = .ok (text, prepared) := by
  cases hprepare : prepare settings context line with
  | error fault =>
    rw [hprepare] at h
    cases h
  | ok result =>
    rw [hprepare, Except.map, Except.ok.injEq] at h
    exact ⟨result.2, by rw [← h]⟩

/-! ### Underscores in written-out lines -/

theorem underscore_not_mem_digits (hdigits : ∀ c ∈ digits, isDigit c) : '_' ∉ digits :=
  fun h => absurd (hdigits '_' h) (by decide)

/-- Between a run of digits and the text behind its percent sign there is no underscore. -/
theorem underscore_not_mem_of_percentTail? {fraction after : List Char}
    (htail : percentTail? s = some (fraction, after)) : '_' ∉ fraction ++ ['%'] := by
  obtain ⟨-, rfl | ⟨more, rfl, -, hmore⟩⟩ := eq_of_percentTail? htail
  · decide
  · simp [underscore_not_mem_digits hmore]

theorem underscore_not_mem_hundredth (h : '_' ∉ s) : '_' ∉ hundredth s := by
  simp [hundredth, h]

theorem head?_expandPercent_eq_underscore : (expandPercent s).head? = some '_' ↔ s.head? = some '_' := by
  cases s with
  | nil => rw [expandPercent]
  | cons c rest =>
    by_cases hc : isDigit c
    · have hne : ∀ d ∈ (expandPercent (c :: rest)).head?, d = c ∨ d = '(' := by
        intro d hd
        rcases head?_expandPercent (c :: rest) with hsame | hbracket
        · exact .inl (by simpa [hsame] using hd.symm)
        · exact .inr (by simpa [hbracket] using hd.symm)
      have hunderscore : c ≠ '_' := by
        rintro rfl
        exact absurd hc (by decide)
      refine iff_of_false (fun h => ?_) (by simpa using hunderscore)
      rcases hne '_' h with h | h
      · exact hunderscore h.symm
      · exact absurd h (by decide)
    · rw [expandPercent_cons (by simpa using hc), List.head?_cons, List.head?_cons]

/-- Writing out percentages brings no two underscores together, and separates none. -/
theorem isChain_expandPercent (line : List Char) : (expandPercent line).IsChain Apart ↔ line.IsChain Apart := by
  induction line using digitRun_induction with
  | nil => rw [expandPercent]
  | character c s hc ih =>
    rw [expandPercent_cons hc, List.isChain_cons, List.isChain_cons, ih]
    refine and_congr_left fun _ => ?_
    by_cases hunderscore : c = '_'
    · have hseam (t : List Char) : (∀ d ∈ t.head?, Apart c d) ↔ t.head? ≠ some '_' := by
        subst hunderscore
        cases t <;> simp [Apart]
      rw [hseam, hseam, ne_eq, ne_eq, head?_expandPercent_eq_underscore]
    · exact iff_of_true (fun _ _ => .inl hunderscore) fun _ _ => .inl hunderscore
  | digits digits s hdigits hsome hstops ih =>
    have hnone := underscore_not_mem_digits hdigits
    rw [expandPercent_digits hdigits hsome hstops, isChain_append_of_not_mem hnone]
    cases htail : percentTail? s with
    | none => simp only [isChain_append_of_not_mem hnone, ih s List.suffix_rfl]
    | some tail =>
      obtain ⟨fraction, after⟩ := tail
      obtain ⟨hs, -⟩ := eq_of_percentTail? htail
      have hsign := underscore_not_mem_of_percentTail? htail
      have hnumeral : '_' ∉ digits ++ fraction := by
        rw [List.mem_append, not_or]
        exact ⟨hnone, fun h => hsign (List.mem_append_left _ h)⟩
      have hparts : s = fraction ++ ['%'] ++ after := by simp [hs]
      have hafter : after <:+ s := hparts ▸ List.suffix_append _ _
      dsimp only
      rw [isChain_append_of_not_mem (underscore_not_mem_hundredth hnumeral), ih after hafter, hparts,
        isChain_append_of_not_mem hsign]

/-! ### Underscores in assembled lines -/

/-- The text of a number brings no underscore. -/
theorem isChain_of_chain {previous : Option Value} {assembled : List Char}
    (h : chain settings previous line = .ok assembled) : assembled.IsChain Apart ↔ line.IsChain Apart := by
  rcases chain_eq_ok h with rfl | ⟨-, v, text, -, htext, rfl⟩
  · rfl
  · exact isChain_append_of_not_mem fun hmem =>
      absurd (isDisplayCharacter_of_displayValue htext '_' hmem) (by decide)

/-! ### Underscores in renamed lines -/

theorem isChain_aliasText (k : Nat) : (aliasText k).IsChain Apart := by
  rw [aliasText, List.isChain_cons_cons]
  refine ⟨.inr (by decide), isChain_of_not_mem ?_⟩
  rw [List.mem_cons, not_or]
  exact ⟨by decide, fun h => absurd ((isDigits_toString k).2 '_' h) (by decide)⟩

/-- An alias begins with an underscore, but the name that it replaces has no underscore next to it. -/
theorem isChain_renamed (aliases : Aliases) (h : s.IsChain Apart) : (aliases.renamed s).IsChain Apart := by
  unfold Aliases.renamed
  fun_induction pieces s with
  | case1 => exact .nil
  | case2 c rest hc ih =>
    have hstops := stopsAt_dropWhile isWord rest
    have hparts : c :: rest = c :: rest.takeWhile isWord ++ rest.dropWhile isWord := by
      rw [List.cons_append, List.takeWhile_append_dropWhile]
    rw [hparts, isChain_append_of_stopsAt hstops] at h
    rw [List.flatMap_cons]
    refine (isChain_append_of_stopsAt (aliases.stopsAt_renamed hstops)).mpr ⟨?_, ih h.2⟩
    rw [Aliases.renamedPiece, Aliases.engineName]
    split
    · exact isChain_aliasText _
    · exact h.1
  | case3 c rest hc ih =>
    have hnone : '_' ∉ [c] := by
      rw [List.mem_singleton]
      rintro rfl
      exact hc (by decide)
    rw [List.flatMap_cons, Aliases.renamedPiece, isChain_append_of_not_mem hnone]
    exact ih (List.isChain_cons.mp h).2

/-- In a state that lines can lead to, the lines that are not rejected are those that become an expression, and no step
    on the way to it brings two underscores together. -/
theorem expression_has_no_double_underscore (hcontext : Reachable settings context) (line : List Char) :
    ((∃ text prepared, prepare settings context line = .ok (text, prepared)) ↔ reject? settings line = none) ∧
    ∀ text prepared, prepare settings context line = .ok (text, prepared) →
      ∃ assembled, chain settings context.previous (expandPercent line) = .ok assembled ∧
        ∀ stage ∈ [line, expandPercent line, assembled, text], occursIn ['_', '_'] stage = false := by
  refine ⟨⟨?_, ?_⟩, ?_⟩
  · rintro ⟨text, prepared, h⟩
    exact (exists_assembled_of_prepare h).1
  · intro hline
    obtain ⟨assembled, -, hprepare⟩ := hcontext.exists_assembled hline
    exact ⟨_, _, hprepare⟩
  · intro text prepared h
    obtain ⟨hline, assembled, hchain, rfl, -⟩ := exists_assembled_of_prepare h
    obtain ⟨-, hraw, -⟩ := reject?_eq_none.mp hline
    have hexpanded : (expandPercent line).IsChain Apart := (isChain_expandPercent line).mpr hraw
    have hassembled : assembled.IsChain Apart := (isChain_of_chain hchain).mpr hexpanded
    have hexpression := isChain_renamed (Request.ofAssembled context assembled).prepared.aliases hassembled
    rw [← Request.expression_ofAssembled] at hexpression
    refine ⟨assembled, hchain, ?_⟩
    simp only [occursIn_underscores_eq_false, List.forall_mem_cons]
    exact ⟨hraw, hexpanded, hassembled, hexpression, by simp⟩

theorem quarter_is_continued_with_rent :
    let context := contextAfter .standard .empty ["房租 = 1/4"]
    Reachable .standard context ∧
      ∃ text prepared, prepare .standard context "* 5%_租_ + 5房租".toList = .ok (text, prepared) ∧
        text = "0.25* (5/100)_v1 + 5_v0".toList ∧ occursIn ['_', '_'] text = false := by
  intro context
  have hcontext : Reachable .standard context := Reachable.start.contextAfter _
  have hexpression : (prepare .standard context "* 5%_租_ + 5房租".toList).map Prod.fst =
      .ok "0.25* (5/100)_v1 + 5_v0".toList := by
    decide +kernel
  obtain ⟨prepared, hprepare⟩ := exists_prepared hexpression
  obtain ⟨_, -, hstages⟩ := (expression_has_no_double_underscore hcontext _).2 _ prepared hprepare
  exact ⟨hcontext, _, prepared, hprepare, rfl, hstages _ (by simp)⟩

/-! ### Words in written-out lines -/

/-- Words without digits. -/
structure IsPlainWord (word : List Char) : Prop where
  ne_nil : word ≠ []
  letter : ∀ c ∈ word, isWord c ∧ isDigit c = false

/-- A word stands at the beginning of a longer one, and the rest of the longer one is the digits that begin the numeral
    of a percentage. -/
def IsCutLoose (line word : List Char) : Prop :=
  ∃ before digits after, line = before ++ (word ++ (digits ++ after)) ∧ (∀ c ∈ before.getLast?, isWord c = false) ∧
    digits ≠ [] ∧ (∀ c ∈ digits, isDigit c) ∧ (percentTail? after).isSome

section Words

variable {word : List Char}

theorem IsCutLoose.append_left (h : IsCutLoose s word) (hword : IsPlainWord word)
    (hseam : StopsAt isWord s ∨ ∀ c ∈ t.getLast?, isWord c = false) : IsCutLoose (t ++ s) word := by
  obtain ⟨before, digits, after, rfl, hbefore, hdigits⟩ := h
  refine ⟨t ++ before, digits, after, by simp, ?_, hdigits⟩
  intro c hc
  rcases List.eq_nil_or_concat before with rfl | ⟨front, last, rfl⟩
  · rcases hseam with hstops | hlast
    · obtain ⟨d, more, rfl⟩ := List.exists_cons_of_ne_nil hword.ne_nil
      have hd : isWord d = true := (hword.letter d List.mem_cons_self).1
      rw [stopsAt_cons.mp hstops] at hd
      cases hd
    · exact hlast c (by simpa using hc)
  · exact hbefore c (by simpa using hc)

/-- What comes loose stands alone when the percentages of the line are written out. -/
theorem IsCutLoose.mem_wordRuns (h : IsCutLoose line word) (hword : IsPlainWord word) :
    word ∈ wordRuns (expandPercent line) := by
  obtain ⟨before, digits, after, rfl, hbefore, hsome, hdigits, htail⟩ := h
  obtain ⟨⟨fraction, rest⟩, htail⟩ := Option.isSome_iff_exists.mp htail
  have hne {c d : Char} (hc : c ∈ word) (hd : isWord d = false) : c ≠ d := by
    rintro rfl
    rw [(hword.letter c hc).1] at hd
    cases hd
  have hbegins : BeginsAfresh (word ++ (digits ++ after)) := by
    intro c hc
    rw [List.head?_append_of_ne_nil _ hword.ne_nil] at hc
    have hmem : c ∈ word := List.mem_of_mem_head? hc
    exact ⟨(hword.letter c hmem).2, hne hmem (by decide), hne hmem (by decide)⟩
  have hends : EndsNumeral word := fun c hc =>
    ⟨(hword.letter c (List.mem_of_getLast? hc)).2, hne (List.mem_of_getLast? hc) (by decide)⟩
  have hplain : expandPercent word = word := expandPercent_eq_self fun h => hne h (by decide) rfl
  have hlast : ∀ c ∈ (expandPercent before).getLast?, isWord c = false := by
    intro c hc
    rcases getLast?_expandPercent before with hsame | hbracket
    · exact hbefore c (hsame ▸ hc)
    · obtain rfl : ')' = c := by simpa [hbracket] using hc
      decide
  rw [expandPercent_append (.inr hbegins), expandPercent_append (.inl hends), hplain,
    expandPercent_of_percentTail? hdigits hsome htail, wordRuns_append_of_getLast? hlast,
    wordRuns_word_append (fun c hc => (hword.letter c hc).1) hword.ne_nil (stopsAt_hundredth _ _)]
  exact List.mem_append_right _ List.mem_cons_self

theorem IsPlainWord.not_mem_wordRuns (hword : IsPlainWord word) (hs : ∀ c ∈ s, isWord c → isDigit c) :
    word ∉ wordRuns s := by
  intro hmem
  obtain ⟨c, more, rfl⟩ := List.exists_cons_of_ne_nil hword.ne_nil
  have hdigit := hs c (mem_of_mem_wordRuns hmem List.mem_cons_self) ((hword.letter c List.mem_cons_self).1)
  rw [(hword.letter c List.mem_cons_self).2] at hdigit
  cases hdigit

/-- A word without digits behind the group of a percentage is one of the text behind the group. -/
theorem IsPlainWord.mem_wordRuns_hundredth (hword : IsPlainWord word) {numeral : List Char}
    (hnumeral : ∀ c ∈ numeral, beginsIdentifier c = false) :
    word ∈ wordRuns (hundredth numeral ++ t) ↔ word ∈ wordRuns t := by
  have hlast : ∀ c ∈ (hundredth numeral).getLast?, isWord c = false := by
    rw [getLast?_hundredth]
    decide
  have hgroup : word ∉ wordRuns (hundredth numeral) := by
    apply hword.not_mem_wordRuns
    intro c hc hcWord
    have hbegins := not_begins_of_mem_hundredth hnumeral c hc
    simpa [beginsIdentifier, hcWord] using hbegins
  rw [wordRuns_append_of_getLast? hlast, List.mem_append]
  exact or_iff_right hgroup

/-- The words without digits behind a percent sign are those behind the numeral in front of it. -/
theorem IsPlainWord.mem_wordRuns_of_percentTail? (hword : IsPlainWord word) {fraction after : List Char}
    (htail : percentTail? s = some (fraction, after)) :
    word ∈ wordRuns (expandPercent s) ↔ word ∈ wordRuns (expandPercent after) := by
  obtain ⟨rfl, rfl | ⟨more, rfl, hsome, hmore⟩⟩ := eq_of_percentTail? htail
  · rw [List.nil_append, expandPercent_cons (by decide), wordRuns_cons (by decide)]
  · rw [List.cons_append, expandPercent_cons (by decide), wordRuns_cons (by decide),
      expandPercent_of_percentTail? hmore hsome (percentTail?_percent after), List.append_nil,
      hword.mem_wordRuns_hundredth fun c hc => not_begins_of_isDigit (hmore c hc)]

/-- A word without digits that stands alone in a written-out line does so in the line, or comes loose. -/
theorem mem_wordRuns_or_isCutLoose (hword : IsPlainWord word) (h : word ∈ wordRuns (expandPercent line)) :
    word ∈ wordRuns line ∨ IsCutLoose line word := by
  induction line using wordRun_induction with
  | nil =>
    rw [expandPercent, wordRuns_nil] at h
    cases h
  | character c s hc ih =>
    have hdigit : isDigit c = false := by
      by_contra hdigit
      rw [isWord_of_isDigit (by simpa using hdigit)] at hc
      cases hc
    rw [expandPercent_cons hdigit, wordRuns_cons hc] at h
    rw [wordRuns_cons hc]
    exact (ih h).imp_right fun hcut => hcut.append_left (t := [c]) hword (.inr (by simpa using hc))
  | word run s hrun hne hstops ih =>
    have hbehind (hmem : word ∈ wordRuns (expandPercent s)) :
        word ∈ run :: wordRuns s ∨ IsCutLoose (run ++ s) word :=
      (ih hmem).imp (List.mem_cons_of_mem _) fun hcut => hcut.append_left hword (.inl hstops)
    rw [wordRuns_word_append hrun hne hstops]
    rcases expandPercent_word hrun hstops with ⟨hline, -⟩ | ⟨fraction, after, htail, hsome, hline⟩
    · rw [hline, wordRuns_word_append hrun hne (stopsAt_expandPercent hstops), List.mem_cons] at h
      rcases h with rfl | h
      · exact .inl List.mem_cons_self
      · exact hbehind h
    · have hdigits : ∀ d ∈ run.rtakeWhile isDigit, isDigit d := fun d hd => List.mem_rtakeWhile_imp hd
      rw [hline, wordRuns_append _ (stopsAt_hundredth _ _), List.mem_append,
        hword.mem_wordRuns_hundredth (not_begins_of_percentTail? hdigits htail)] at h
      rcases h with h | h
      · -- the word is what the percentage leaves of the run
        right
        have hstem : ∀ d ∈ run.rdropWhile isDigit, isWord d :=
          fun d hd => hrun d ((List.rdropWhile_prefix isDigit run).subset hd)
        have hrest : run.rdropWhile isDigit ≠ [] := by
          intro hnil
          rw [hnil, wordRuns_nil] at h
          cases h
        rw [wordRuns_of_word hstem hrest, List.mem_singleton] at h
        refine ⟨[], _, s, ?_, by simp, hsome, hdigits, by simp [htail]⟩
        rw [List.nil_append, ← List.append_assoc, h, List.rdropWhile_append_rtakeWhile]
      · exact hbehind ((hword.mem_wordRuns_of_percentTail? htail).mpr h)

/-! ### Words in assembled lines -/

/-- The text of a number brings no word with a character that occurs in no such text. -/
theorem mem_wordRuns_of_chain {previous : Option Value} {assembled : List Char}
    (h : chain settings previous line = .ok assembled) (hword : ¬ ∀ c ∈ word, isDisplayCharacter c) :
    word ∈ wordRuns assembled ↔ word ∈ wordRuns line := by
  rcases chain_eq_ok h with rfl | ⟨hline, v, text, -, htext, rfl⟩
  · rfl
  · rw [wordRuns_append _ hline.stopsAt_isWord, List.mem_append]
    refine or_iff_right fun hmem => hword fun c hc => ?_
    exact isDisplayCharacter_of_displayValue htext c (mem_of_mem_wordRuns hmem hc)

/-! ### Words in renamed lines -/

theorem isWord_of_mem_engineName {name : List Char} (hname : ∀ c ∈ name, isWord c) :
    ∀ c ∈ aliases.engineName name, isWord c := by
  intro c hc
  unfold Aliases.engineName at hc
  split at hc
  · obtain ⟨first, rest, hchars, hfirst, hrest⟩ := isVariableName_aliasText (aliases.names.idxOf name)
    rw [String.toList_ofList] at hchars
    rw [Aliases.aliasOf, hchars] at hc
    apply isWord_of_isAsciiWord
    rcases List.mem_cons.mp hc with rfl | hc
    · exact isAsciiWord_of_isLetter hfirst
    · exact hrest c hc
  · exact hname c hc

/-- A word is renamed behind the digits in front of it. -/
theorem renamed_word (aliases : Aliases) (hword : ∀ c ∈ word, isWord c) :
    aliases.renamed word = word.takeWhile isDigit ++ aliases.engineName (word.dropWhile isDigit) := by
  have hdigits : ∀ c ∈ word.takeWhile isDigit, beginsIdentifier c = false :=
    fun c hc => not_begins_of_isDigit (List.mem_takeWhile_imp hc)
  have hstem : aliases.renamed (word.dropWhile isDigit) = aliases.engineName (word.dropWhile isDigit) := by
    have hstops := stopsAt_dropWhile isDigit word
    have hsubset : ∀ c ∈ word.dropWhile isDigit, isWord c :=
      fun c hc => hword c ((List.dropWhile_suffix isDigit).subset hc)
    cases hname : word.dropWhile isDigit with
    | nil => rw [Aliases.renamed_nil, Aliases.engineName, if_neg (by decide)]
    | cons c rest =>
      rw [hname, stopsAt_cons] at hstops
      rw [hname, List.forall_mem_cons] at hsubset
      have hidentifier : IsIdentifier (c :: rest) :=
        ⟨c, rest, rfl, by simp [beginsIdentifier, hstops, hsubset.1], hsubset.2⟩
      exact hidentifier.renamed_eq aliases
  conv_lhs => rw [← List.takeWhile_append_dropWhile (p := isDigit) (l := word)]
  rw [Aliases.renamed_append_of_not_begins hdigits, hstem]

theorem isWord_of_mem_renamed (hword : ∀ c ∈ word, isWord c) : ∀ c ∈ aliases.renamed word, isWord c := by
  intro c hc
  rw [renamed_word aliases hword, List.mem_append] at hc
  rcases hc with hc | hc
  · exact isWord_of_isDigit (List.mem_takeWhile_imp hc)
  · exact isWord_of_mem_engineName (fun d hd => hword d ((List.dropWhile_suffix isDigit).subset hd)) c hc

/-- No word becomes an ASCII word without an underscore by being renamed. -/
theorem renamed_word_eq_iff {run : List Char} (hrun : ∀ c ∈ run, isWord c) (hword : IsAsciiText word)
    (hunderscore : '_' ∉ word) : aliases.renamed run = word ↔ run = word := by
  have hparts : run.takeWhile isDigit ++ run.dropWhile isDigit = run := List.takeWhile_append_dropWhile
  rw [renamed_word aliases hrun, Aliases.engineName]
  cases hneeds : needsAlias (run.dropWhile isDigit) with
  | false => rw [if_neg (by simp), hparts]
  | true =>
    rw [if_pos rfl]
    refine iff_of_false ?_ ?_
    · rintro rfl
      exact hunderscore (by simp [Aliases.aliasOf, aliasText])
    · rintro rfl
      rw [← hparts, isAsciiText_append] at hword
      rw [needsAlias_eq_false.mpr hword.2] at hneeds
      cases hneeds

/-- The renaming makes no ASCII word without an underscore, and removes none. -/
theorem mem_wordRuns_renamed (aliases : Aliases) (hword : IsAsciiText word) (hunderscore : '_' ∉ word) :
    word ∈ wordRuns (aliases.renamed s) ↔ word ∈ wordRuns s := by
  induction s using wordRun_induction with
  | nil => rw [Aliases.renamed_nil, wordRuns_nil]
  | character c s hc ih =>
    rw [Aliases.renamed_cons_of_not_begins (by simp [beginsIdentifier, hc]), wordRuns_cons hc, wordRuns_cons hc, ih]
  | word run s hrun hne hstops ih =>
    have hsome : aliases.renamed run ≠ [] := by
      rwa [ne_eq, renamed_word_eq_iff hrun isAsciiText_nil (by simp)]
    rw [Aliases.renamed_append _ hstops, wordRuns_word_append hrun hne hstops,
      wordRuns_word_append (isWord_of_mem_renamed hrun) hsome (aliases.stopsAt_renamed hstops), List.mem_cons,
      List.mem_cons, ih, eq_comm, renamed_word_eq_iff hrun hword hunderscore, eq_comm]

end Words

/-! ### Forbidden words in expressions -/

theorem isPlainWord_of_mem_forbiddenWords : ∀ word ∈ forbiddenWords, IsPlainWord word.toList := by
  have hall : ∀ word ∈ forbiddenWords,
      word.toList ≠ [] ∧ ∀ c ∈ word.toList, isWord c = true ∧ isDigit c = false := by
    decide
  exact fun word hword => ⟨(hall word hword).1, (hall word hword).2⟩

theorem not_displayed_of_mem_forbiddenWords :
    ∀ word ∈ forbiddenWords, ¬ ∀ c ∈ word.toList, isDisplayCharacter c := by
  decide

/-- The forbidden words in the expression of a line are those that come loose in the line. -/
theorem mem_wordRuns_expression_iff {text : List Char} {prepared : Context}
    (h : prepare settings context line = .ok (text, prepared)) {word : String} (hword : word ∈ forbiddenWords) :
    word.toList ∈ wordRuns text ↔ IsCutLoose line word.toList := by
  obtain ⟨hline, assembled, hchain, rfl, -⟩ := exists_assembled_of_prepare h
  obtain ⟨-, -, hraw⟩ := reject?_eq_none.mp hline
  obtain ⟨hascii, hunderscore⟩ := isAsciiText_of_mem_forbiddenWords word hword
  have hplain := isPlainWord_of_mem_forbiddenWords word hword
  rw [Request.expression_ofAssembled, mem_wordRuns_renamed _ hascii hunderscore,
    mem_wordRuns_of_chain hchain (not_displayed_of_mem_forbiddenWords word hword)]
  constructor
  · exact fun hmem => (mem_wordRuns_or_isCutLoose hplain hmem).resolve_left (hraw word hword)
  · exact fun hcut => hcut.mem_wordRuns hplain

/-- In a state that lines can lead to, a line that is not rejected becomes an expression, and the forbidden words in it
    are those that a percentage of the line cuts loose. -/
theorem forbidden_words_are_kept_out_iff (hcontext : Reachable settings context)
    (hline : reject? settings line = none) :
    ∃ text prepared, prepare settings context line = .ok (text, prepared) ∧
      (∀ word ∈ forbiddenWords, word.toList ∈ wordRuns text ↔ IsCutLoose line word.toList) ∧
      (forbiddenWord? text = none ↔ ∀ word ∈ forbiddenWords, ¬ IsCutLoose line word.toList) := by
  obtain ⟨assembled, -, hprepare⟩ := hcontext.exists_assembled hline
  have hwords (word : String) (hword : word ∈ forbiddenWords) := mem_wordRuns_expression_iff hprepare hword
  refine ⟨_, _, hprepare, hwords, ?_⟩
  rw [forbiddenWord?_eq_none]
  exact forall₂_congr fun word hword => not_congr (hwords word hword)

/-- A word that is not forbidden holds one that is, and digits behind it. -/
theorem name_in_front_of_percentage_comes_loose :
    let context := contextAfter .standard .empty ["房租 = 1/4"]
    Reachable .standard context ∧ reject? .standard "+ 房租 * exec2.5%".toList = none ∧
      ∃ text prepared, prepare .standard context "+ 房租 * exec2.5%".toList = .ok (text, prepared) ∧
        "exec".toList ∈ wordRuns text := by
  intro context
  have hcontext : Reachable .standard context := Reachable.start.contextAfter _
  have hline : reject? .standard "+ 房租 * exec2.5%".toList = none := by decide +kernel
  have hcut : IsCutLoose "+ 房租 * exec2.5%".toList "exec".toList :=
    ⟨"+ 房租 * ".toList, "2".toList, ".5%".toList, by decide, by decide, by decide, by decide, by decide⟩
  obtain ⟨text, prepared, hprepare, hwords, -⟩ := forbidden_words_are_kept_out_iff hcontext hline
  exact ⟨hcontext, hline, text, prepared, hprepare, (hwords "exec" (by decide)).mpr hcut⟩

/-- The line `eval1%` passes the validation, and `eval(1/100)` is made of it. -/
theorem forbidden_word_reaches_the_engine :
    (∃ prepared, prepare .standard .empty "eval1%".toList = .ok ("eval(1/100)".toList, prepared)) ∧
      ¬ ∀ context, Reachable .standard context → ∀ line text prepared,
        prepare .standard context line = .ok (text, prepared) → forbiddenWord? text = none := by
  have hexpression : (prepare .standard .empty "eval1%".toList).map Prod.fst = .ok "eval(1/100)".toList := by
    decide +kernel
  obtain ⟨prepared, hprepare⟩ := exists_prepared hexpression
  refine ⟨⟨prepared, hprepare⟩, fun h => ?_⟩
  exact absurd (h .empty .start _ _ _ hprepare) (by decide +kernel)

end Reckoner.Document
