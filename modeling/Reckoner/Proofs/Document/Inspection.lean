import Reckoner.Proofs.Document.Assembly
import Reckoner.Proofs.Document.Expansion
import Reckoner.Proofs.Document.Run
import Reckoner.Proofs.Document.Validation
import Reckoner.Proofs.Expression.Inspection

/-!
# Looking at a variable

A line that shows the value of an assignment leaves the value in its variable, and a line that is nothing but the name
of the variable is evaluated to look at it.
-/

namespace Reckoner.Document

open Reckoner.Algebra Reckoner.Expression Reckoner.Number Reckoner.Text

variable {settings : Settings} {context : Context} {line name s t : List Char}

/-! ### Names and blanks -/

/-- A name as it is typed: a word that does not begin with a digit. -/
def IsIdentifier (name : List Char) : Prop :=
  ∃ c rest, name = c :: rest ∧ beginsIdentifier c ∧ ∀ d ∈ rest, isWord d

namespace IsIdentifier

theorem isWord (h : IsIdentifier name) {c : Char} (hc : c ∈ name) : isWord c := by
  obtain ⟨first, rest, rfl, hfirst, hrest⟩ := h
  rcases List.mem_cons.mp hc with rfl | hc
  · simp only [beginsIdentifier, Bool.and_eq_true] at hfirst
    exact hfirst.1
  · exact hrest c hc

theorem not_mem (h : IsIdentifier name) {c : Char} (hc : Text.isWord c = false) : c ∉ name := by
  intro hmem
  rw [h.isWord hmem] at hc
  cases hc

theorem pieces_eq (h : IsIdentifier name) : pieces name = [.identifier name] := by
  obtain ⟨c, rest, rfl, hc, hrest⟩ := h
  have htake : rest.takeWhile Text.isWord = rest := by
    simpa [List.takeWhile_eq_self_iff] using hrest
  have hdrop : rest.dropWhile Text.isWord = [] := by
    simpa [List.dropWhile_eq_nil_iff] using hrest
  rw [pieces, if_pos hc, htake, hdrop, pieces]

theorem renamed_eq (h : IsIdentifier name) (aliases : Aliases) : aliases.renamed name = aliases.engineName name := by
  simp [Aliases.renamed, h.pieces_eq, Aliases.renamedPiece]

theorem isVariableName (h : IsIdentifier name) (hascii : IsAsciiText name) : IsVariableName (String.ofList name) := by
  obtain ⟨c, rest, rfl, hc, hrest⟩ := h
  rw [isAsciiText_cons] at hascii
  refine ⟨c, rest, String.toList_ofList, ?_, ?_⟩
  · rw [beginsIdentifier_of_isAscii hascii.1] at hc
    simp only [Text.isWord, hascii.1, if_true, isAsciiWord, Bool.and_eq_true, Bool.or_eq_true, Bool.not_eq_true',
      decide_eq_true_eq] at hc
    obtain ⟨(hletter | hdigit) | hline, hnone⟩ := hc
    · exact .inl hletter
    · rw [hdigit] at hnone
      cases hnone
    · exact .inr hline
  · intro d hd
    simpa [Text.isWord, hascii.2 d hd] using hrest d hd

end IsIdentifier

theorem isVariableName_aliasText (k : Nat) : IsVariableName (String.ofList (aliasText k)) := by
  refine ⟨'_', 'v' :: (toString k).toList, String.toList_ofList, .inr rfl, ?_⟩
  intro c hc
  rcases List.mem_cons.mp hc with rfl | hc
  · decide
  · exact isAsciiWord_of_isAsciiDigit ((isDigits_toString k).2 c hc)

theorem isVariableName_engineName (aliases : Aliases) (h : IsIdentifier name) :
    IsVariableName (String.ofList (aliases.engineName name)) := by
  unfold Aliases.engineName
  cases hneeds : needsAlias name with
  | false => simpa using h.isVariableName (needsAlias_eq_false.mp hneeds)
  | true => exact isVariableName_aliasText _

/-! ### Assignments -/

/-- A trimmed line assigns to a name: an equals sign follows it, perhaps after blanks, and no second one behind that. -/
structure IsAssignment (line name : List Char) : Prop where
  isIdentifier : IsIdentifier name
  parts : ∃ blanks body, line = name ++ blanks ++ '=' :: body ∧ (∀ c ∈ blanks, isBlank c) ∧ body.head? ≠ some '='

/-- No word goes on into the blanks in front of an equals sign. -/
theorem stopsAt_blanks {blanks : List Char} (hblanks : ∀ c ∈ blanks, isBlank c) (body : List Char) :
    StopsAt isWord (blanks ++ '=' :: body) := by
  cases blanks with
  | nil => exact stopsAt_cons.mpr (by decide)
  | cons c more => exact stopsAt_cons.mpr (isWord_of_isBlank (hblanks c List.mem_cons_self))

theorem splitAssignment?_append {word : String} {blanks body : List Char} (hword : IsVariableName word)
    (hblanks : ∀ c ∈ blanks, isBlank c) (hbody : body.head? ≠ some '=') :
    splitAssignment? (word.toList ++ blanks ++ '=' :: body) = some (word, body) := by
  obtain ⟨c, rest, hchars, hc, hrest⟩ := hword
  have hblank : ∀ d ∈ word.toList, isBlank d = false := by
    intro d hd
    by_contra hd'
    have hletter : isAsciiWord d := by
      rw [hchars] at hd
      rcases List.mem_cons.mp hd with rfl | hd
      · exact isAsciiWord_of_isLetter hc
      · exact hrest d hd
    have hnone := isWord_of_isBlank (c := d) (by simpa using hd')
    rw [isWord_of_isAsciiWord hletter] at hnone
    cases hnone
  have hstops : StopsAt isAsciiWord (blanks ++ '=' :: body) := by
    intro d hd
    by_contra hletter
    have hnone := stopsAt_blanks hblanks body d hd
    rw [isWord_of_isAsciiWord (by simpa using hletter)] at hnone
    cases hnone
  have htake : (rest ++ (blanks ++ '=' :: body)).takeWhile isAsciiWord = rest := by
    rw [takeWhile_append_of_stopsAt _ hstops, List.takeWhile_eq_self_iff]
    exact hrest
  have hdrop : (rest ++ (blanks ++ '=' :: body)).dropWhile isAsciiWord = blanks ++ '=' :: body := by
    rw [List.dropWhile_append_of_pos hrest, dropWhile_of_stopsAt hstops]
  have hsign : (blanks ++ '=' :: body).dropWhile isBlank = '=' :: body := by
    rw [List.dropWhile_append_of_pos hblanks, List.dropWhile_cons_of_neg (by decide)]
  have hfirst : (word.toList ++ blanks ++ '=' :: body).dropWhile isBlank = c :: (rest ++ (blanks ++ '=' :: body)) := by
    rw [hchars, List.cons_append, List.cons_append, List.append_assoc,
      List.dropWhile_cons_of_neg (by simp [hblank c (by simp [hchars])])]
  have hletter : (isAsciiLetter c || decide (c = '_')) = true := by simpa using hc
  rw [splitAssignment?, hfirst]
  simp only [hletter, if_true, htake, hdrop, hsign, hbody, if_false, ← hchars, String.ofList_toList]

/-- Renaming puts no equals sign in front of a text. -/
theorem head?_renamed (aliases : Aliases) (h : s.head? ≠ some '=') : (aliases.renamed s).head? ≠ some '=' := by
  cases s with
  | nil => simp [Aliases.renamed, pieces]
  | cons c rest =>
    by_cases hc : beginsIdentifier c
    · have hidentifier : IsIdentifier (c :: rest.takeWhile isWord) :=
        ⟨c, _, rfl, hc, fun d hd => List.mem_takeWhile_imp hd⟩
      obtain ⟨first, more, hchars, hfirst, _⟩ := isVariableName_engineName aliases hidentifier
      rw [String.toList_ofList] at hchars
      rw [Aliases.renamed, pieces, if_pos hc, List.flatMap_cons, Aliases.renamedPiece, hchars, List.cons_append,
        List.head?_cons, ne_eq, Option.some.injEq]
      rintro rfl
      exact absurd hfirst (by decide)
    · rw [Aliases.renamed_cons_of_not_begins (by simpa using hc)]
      exact h

theorem IsIdentifier.not_continues (h : IsIdentifier name) (s : List Char) : ¬ Continues (name ++ s) := by
  rintro ⟨c, hc, hoperator⟩
  obtain ⟨first, rest, rfl, _⟩ := id h
  obtain rfl : first = c := by simpa using hc
  have hnone := not_isWord_of_mem_chainOperators hoperator
  rw [h.isWord List.mem_cons_self] at hnone
  cases hnone

namespace IsAssignment

theorem not_continues (h : IsAssignment line name) : ¬ Continues line := by
  obtain ⟨blanks, body, rfl, _⟩ := h.parts
  rw [List.append_assoc]
  exact h.isIdentifier.not_continues _

/-- An assignment is still one when its percentages are written out. -/
theorem expandPercent (h : IsAssignment line name) : IsAssignment (Document.expandPercent line) name := by
  obtain ⟨blanks, body, rfl, hblanks, hbody⟩ := h.parts
  refine ⟨h.isIdentifier, blanks, Document.expandPercent body, ?_, hblanks, ?_⟩
  · have hends : EndsNumeral (name ++ blanks ++ ['=']) := by
      intro c hc
      obtain rfl : '=' = c := by simpa using hc
      decide
    have hplain : '%' ∉ name ++ blanks ++ ['='] := by
      simp only [List.mem_append, List.mem_singleton, not_or]
      refine ⟨⟨h.isIdentifier.not_mem (by decide), ?_⟩, by decide⟩
      intro hmem
      exact absurd (hblanks _ hmem) (by decide)
    have hparts : name ++ blanks ++ '=' :: body = name ++ blanks ++ ['='] ++ body := by simp
    rw [hparts, expandPercent_append (.inl hends), expandPercent_eq_self hplain, List.append_assoc _ ['='],
      List.singleton_append]
  · rcases head?_expandPercent body with hsame | hbracket
    · rwa [hsame]
    · rw [hbracket]
      decide

/-- What stands for the name in the expression is assigned to. -/
theorem splitAssignment?_renamed (h : IsAssignment line name) (aliases : Aliases) :
    ∃ body, splitAssignment? (aliases.renamed line) = some (String.ofList (aliases.engineName name), body) := by
  obtain ⟨blanks, body, rfl, hblanks, hbody⟩ := h.parts
  have hnames : ∀ c ∈ blanks ++ ['='], beginsIdentifier c = false := by
    intro c hc
    rcases List.mem_append.mp hc with hc | hc
    · simp [beginsIdentifier, isWord_of_isBlank (hblanks c hc)]
    · obtain rfl : c = '=' := by simpa using hc
      decide
  have hbehind : aliases.renamed (blanks ++ '=' :: body) = blanks ++ '=' :: aliases.renamed body := by
    have hparts : blanks ++ '=' :: body = blanks ++ ['='] ++ body := by simp
    rw [hparts, Aliases.renamed_append_of_not_begins hnames, List.append_assoc, List.singleton_append]
  have hsplit := splitAssignment?_append (isVariableName_engineName aliases h.isIdentifier) hblanks
    (head?_renamed aliases hbody)
  rw [String.toList_ofList, List.append_assoc] at hsplit
  rw [List.append_assoc, Aliases.renamed_append _ (stopsAt_blanks hblanks body), h.isIdentifier.renamed_eq, hbehind]
  exact ⟨_, hsplit⟩

/-- Nothing is put in front of an assignment. -/
theorem assembled_eq (h : IsAssignment line name) {r : Request} (hrequest : request? settings context line = some r) :
    r.assembled = Document.expandPercent line := by
  obtain ⟨_, _, hchain, _⟩ := prepared_of_request? hrequest
  rw [chain_of_not_continues h.expandPercent.not_continues, Except.ok.injEq] at hchain
  exact hchain.symm

theorem mem_identifiers (h : IsAssignment line name) : name ∈ identifiers line := by
  obtain ⟨blanks, body, rfl, hblanks, _⟩ := h.parts
  rw [List.append_assoc, Text.mem_identifiers, pieces_append name (stopsAt_blanks hblanks body),
    h.isIdentifier.pieces_eq]
  exact List.mem_append_left _ List.mem_cons_self

/-- The request of an assignment assigns to what stands for the name. -/
theorem splitAssignment?_request (h : IsAssignment line name) {r : Request}
    (hrequest : request? settings context line = some r) :
    ∃ body, splitAssignment? r.expression = some (String.ofList (r.prepared.aliases.engineName name), body) := by
  obtain ⟨_, _, _, hr⟩ := prepared_of_request? hrequest
  have hexpression : r.expression = r.prepared.aliases.renamed r.assembled := by
    rw [hr]
    exact Request.expression_ofAssembled context r.assembled
  rw [hexpression, h.assembled_eq hrequest]
  exact h.expandPercent.splitAssignment?_renamed _

theorem mem_aliases_request (h : IsAssignment line name) {r : Request}
    (hrequest : request? settings context line = some r) (hneeds : needsAlias name) :
    name ∈ r.prepared.aliases.names := by
  obtain ⟨_, _, _, hr⟩ := prepared_of_request? hrequest
  have hgrows := growsBy_ofAssembled context r.assembled
  rw [← hr, h.assembled_eq hrequest] at hgrows
  exact hgrows.complete name h.expandPercent.mem_identifiers hneeds

end IsAssignment

/-! ### Lines that are a name -/

/-- A text in front of a line that is not rejected is not rejected when it stands alone, and it has no two underscores
    in a row. -/
theorem reject?_of_append (h : reject? settings (s ++ t) = none) (ht : StopsAt isWord t) :
    reject? settings s = none ∧ occursIn ['_', '_'] s = false := by
  rw [reject?_eq_none, List.length_append, isChain_append_of_stopsAt ht, wordRuns_append s ht] at h
  rw [reject?_eq_none, occursIn_underscores_eq_false]
  obtain ⟨hlength, hunderscores, hwords⟩ := h
  exact ⟨⟨by omega, hunderscores.1, fun word hword hmem => hwords word hword (List.mem_append_left _ hmem)⟩,
    hunderscores.1⟩

/-- A name is no ruler, unless it is a single underscore or has two in a row. -/
theorem isRuler_eq_false (h : IsIdentifier name) (hname : name ≠ ['_'])
    (hunderscores : occursIn ['_', '_'] name = false) : isRuler name = false := by
  have hunderscore : ∀ c ∈ rulerCharacters, isWord c → c = '_' := by decide +kernel
  have hend : name.getLast? ≠ some '\n' := by
    intro hend
    exact h.not_mem (by decide) (List.mem_of_getLast? hend)
  by_contra hruler
  simp only [isRuler, hend, if_false, Bool.not_eq_false, Bool.and_eq_true, List.all_eq_true,
    List.contains_iff_mem] at hruler
  have hall : ∀ c ∈ name, c = '_' := fun c hc => hunderscore c (hruler.2 c hc) (h.isWord hc)
  obtain ⟨c, rest, rfl, _⟩ := id h
  obtain rfl := hall c List.mem_cons_self
  cases rest with
  | nil => exact hname rfl
  | cons d more =>
    obtain rfl := hall d (by simp)
    simp [occursIn] at hunderscores

/-- A name that means something is asked for, unless the line is a ruler. -/
theorem request?_name (h : IsIdentifier name) (hruler : isRuler name = false) (hknows : context.knows name)
    (hreject : reject? settings name = none) :
    ∃ r, request? settings context name = some r ∧ r.expression = context.aliases.engineName name ∧
      r.prepared.scope = context.bindAnswer.scope := by
  have hclass : classify context name = .evaluate := by
    obtain ⟨c, rest, rfl, _⟩ := id h
    have hcomment : c ≠ '#' := by
      rintro rfl
      exact h.not_mem (c := '#') (by decide) List.mem_cons_self
    unfold classify
    split
    · rename_i heq
      cases heq
    · rename_i heq
      exact absurd (List.cons.inj heq).1 hcomment
    · simp [hruler, hknows]
  have hassembled : chain settings context.previous (Document.expandPercent name) = .ok name := by
    have hcontinues := h.not_continues []
    rw [List.append_nil] at hcontinues
    rw [expandPercent_eq_self (h.not_mem (by decide)), chain_of_not_continues hcontinues]
  refine ⟨.ofAssembled context name, ?_, ?_, rfl⟩
  · simp [request?, hclass, hreject, hassembled]
  · rw [Request.ofAssembled, Aliases.substitute, h.pieces_eq, Aliases.substitutePieces_cons,
      Aliases.substitutePieces, List.append_nil, Aliases.substitutePiece, Aliases.engineName]
    split <;> rfl

/-! ### Reading back what was written -/

/-- A number is real, and a line that has it for its answer shows a text and a double. -/
structure Shows (settings : Settings) (t : Term) (text : String) (numeric : Double) : Prop where
  isReal : Answer.ofValue (.number t) = .ok (.numeric t)
  text : (DisplayStyle.ofSettings settings).display t = .ok text
  numeric : toDouble t = numeric

section Inspection

variable {text : String} {numeric : Double}

/-- What a line that shows the value of an assignment leaves behind: a variable that is bound to a number with that
    text, under the word that stands for the name from now on. -/
structure Leaves (settings : Settings) (after : Context) (name : List Char) (t : Term) : Prop where
  previous : after.previous = some (.number t)
  bound : after.scope.find? (String.ofList (after.aliases.engineName name)) = some (.number t)
  knows : after.knows name
  isAllowed : isKeyword (String.ofList (after.aliases.engineName name)) = false
  limit : 0 ≤ settings.maxDecimalExponent
  accepted : reject? settings name = none ∧ occursIn ['_', '_'] name = false

theorem leaves_of_display (hline : IsAssignment line name)
    (hshown : (evaluateTrimmed settings context line).result = .display text numeric) :
    ∃ t, Shows settings t text numeric ∧ Leaves settings (evaluateTrimmed settings context line).context name t := by
  obtain ⟨r, t, hrequest, hanswer, htext, hnumeric, hcontext⟩ := exists_request_of_display hshown
  obtain ⟨body, hsplit⟩ := hline.splitAssignment?_request hrequest
  obtain ⟨v, hassigns⟩ := exists_assigns_of_answer hsplit hanswer
  obtain rfl := eq_number_of_answer hassigns.answers
  obtain ⟨body', isRounded, _, hvalue⟩ := hassigns.isAssignment
  obtain ⟨_, hreject, hchain, hr⟩ := prepared_of_request? hrequest
  have hscope := scope_of_assigns hassigns
  have hbound : (r.left settings).scope.find? (String.ofList (r.prepared.aliases.engineName name)) =
      some (.number t) := by
    rw [Request.left_scope, hscope]
    exact Scope.find?_assign_self _ _ _
  refine ⟨t, ⟨hassigns.answers, htext, hnumeric⟩, ?_⟩
  rw [hcontext]
  refine ⟨rfl, hbound, ?_, hassigns.isAllowed, maxDecimalExponent_of_value hvalue, ?_⟩
  · simp only [Context.knows, Bool.or_eq_true]
    cases hneeds : needsAlias name with
    | false =>
      left
      simp only [Aliases.engineName, hneeds, Bool.false_eq_true, if_false] at hbound
      rw [Scope.binds, hbound]
      rfl
    | true =>
      right
      simpa [Aliases.contains] using hline.mem_aliases_request hrequest hneeds
  · obtain ⟨blanks, body, rfl, hblanks, _⟩ := hline.parts
    rw [List.append_assoc] at hreject
    exact reject?_of_append hreject (stopsAt_blanks hblanks body)

/-- Binding the previous answer changes no variable: if the name is the one it is bound to, it holds it already. -/
theorem Leaves.find?_bindAnswer {after : Context} {t : Term} (h : Leaves settings after name t) {other : String}
    (hother : other = "ans" → String.ofList (after.aliases.engineName name) = "ans") :
    after.bindAnswer.scope.find? other = after.scope.find? other := by
  by_cases hans : other = "ans"
  · have hbound := h.bound
    rw [hother hans] at hbound
    rw [hans, hbound, Context.bindAnswer, h.previous]
    exact Scope.find?_assign_self _ _ _
  · exact Document.bindAnswer_find? hans

/-- What it takes to look at a variable: its name is neither a ruler nor the word for an operation, and the number that
    is recalled from the variable that the name is looked up as shows the text and the double. -/
structure ReadsBack (settings : Settings) (after : Context) (name : List Char) (text : String) (numeric : Double) :
    Prop where
  isNoRuler : name ≠ ['_']
  isNoOperation : String.ofList (after.aliases.engineName name) ∉ operationWords
  recalls : ∃ s s', after.scope.find? (lookupWord settings (String.ofList (after.aliases.engineName name))) =
    some (.number s) ∧ recalled settings s = .ok s' ∧ Shows settings s' text numeric

theorem Leaves.result_iff {after : Context} {t : Term} (h : Leaves settings after name t) (hname : IsIdentifier name) :
    (evaluateTrimmed settings after name).result = .display text numeric ↔
      ReadsBack settings after name text numeric := by
  by_cases hline : name = ['_']
  · subst hline
    have hruler : classify after ['_'] ≠ .evaluate := by
      have hisRuler : isRuler ['_'] = true := by decide
      simp [classify, hisRuler]
    refine iff_of_false ?_ fun hreads => hreads.isNoRuler rfl
    simp [evaluateTrimmed, hruler]
  obtain ⟨r, hrequest, hexpression, hscope⟩ := request?_name hname
    (isRuler_eq_false hname hline h.accepted.2) h.knows h.accepted.1
  have hword := isVariableName_engineName after.aliases hname
  have hreport : r.report settings = evaluateExpression settings after.bindAnswer.scope
      (String.ofList (after.aliases.engineName name)).toList := by
    rw [Request.report, hexpression, hscope, String.toList_ofList]
  by_cases hoperation : String.ofList (after.aliases.engineName name) ∈ operationWords
  · refine iff_of_false ?_ fun hreads => hreads.isNoOperation hoperation
    intro hresult
    obtain ⟨r', s, hrequest', hanswer, _⟩ := exists_request_of_display hresult
    obtain rfl := Option.some.inj (hrequest.symm.trans hrequest')
    rw [hreport] at hanswer
    exact answer_of_operationWord hoperation _ hanswer
  have hbinds : after.bindAnswer.scope.binds (String.ofList (after.aliases.engineName name)) := by
    rw [Scope.binds, h.find?_bindAnswer id, h.bound]
    rfl
  have hlookup : lookupWord settings (String.ofList (after.aliases.engineName name)) = "ans" →
      String.ofList (after.aliases.engineName name) = "ans" := by
    intro hans
    unfold lookupWord at hans
    split at hans
    · exact absurd hans (by decide)
    · exact hans
  have hanswer := answer_name_iff hword h.isAllowed hoperation hbinds h.limit
  rw [← hreport, h.find?_bindAnswer hlookup] at hanswer
  constructor
  · intro hresult
    obtain ⟨r', s', hrequest', hanswer', htext, hnumeric, _⟩ := exists_request_of_display hresult
    obtain rfl := Option.some.inj (hrequest.symm.trans hrequest')
    obtain ⟨s, hfind, hrecalled, hreal⟩ := (hanswer s').mp hanswer'
    exact ⟨hline, hoperation, s, s', hfind, hrecalled, hreal, htext, hnumeric⟩
  · rintro ⟨_, _, s, s', hfind, hrecalled, hshows⟩
    rw [result_of_answer hrequest ((hanswer s').mpr ⟨s, hfind, hrecalled, hshows.isReal⟩) hshows.text, hshows.numeric]

end Inspection

/-- Behind a line that shows the value of an assignment, the name of the variable shows the same just if it reads back.
    It does if it is no single underscore, stands neither for the maker of decimals nor for an operation, and every
    power in the value is small. -/
theorem name_shows_value_iff {line bare : String} {name : List Char} {text : String} {numeric : Double}
    (hline : IsAssignment (trim line.toList) name)
    (hshown : (evaluateLine settings context line).result = .display text numeric) (hbare : trim bare.toList = name) :
    let after := (evaluateLine settings context line).context
    let word := String.ofList (after.aliases.engineName name)
    ((evaluateLine settings after bare).result = .display text numeric ↔ ReadsBack settings after name text numeric) ∧
      ∃ t, after.scope.find? word = some (.number t) ∧ Shows settings t text numeric ∧
        (name ≠ ['_'] → word ∉ "Float" :: operationWords →
          (∀ power ∈ Term.powers t, extentOf settings false power.1 power.2 = .small) →
          ReadsBack settings after name text numeric) := by
  intro after word
  obtain ⟨t, hshows, hleaves⟩ := leaves_of_display hline hshown
  refine ⟨?_, t, hleaves.bound, hshows, ?_⟩
  · rw [evaluateLine, hbare]
    exact hleaves.result_iff hline.isIdentifier
  · intro hname hword hpowers
    rw [List.mem_cons, not_or] at hword
    refine ⟨hname, hword.2, t, t, ?_, recalled_eq hpowers, hshows⟩
    rw [lookupWord_eq (.inr hword.1)]
    exact hleaves.bound

theorem rent_is_looked_at :
    IsAssignment (trim "房租 = 1/4".toList) "房租".toList ∧
      (evaluateLine .standard .empty "房租 = 1/4").result = .display "0.25" (.ofRat (1 / 4)) ∧
      trim "房租".toList = "房租".toList ∧
      (evaluateLine .standard (evaluateLine .standard .empty "房租 = 1/4").context "房租").result =
        .display "0.25" (.ofRat (1 / 4)) := by
  have hline : IsAssignment (trim "房租 = 1/4".toList) "房租".toList :=
    ⟨⟨'房', ['租'], rfl, by decide +kernel, by decide +kernel⟩, [' '], " 1/4".toList, by decide +kernel, by decide,
      by decide⟩
  have hshown : (evaluateLine .standard .empty "房租 = 1/4").result = .display "0.25" (.ofRat (1 / 4)) := by
    decide +kernel
  have hbare : trim "房租".toList = "房租".toList := by decide +kernel
  obtain ⟨hiff, t, hbound, hshows, hreads⟩ := name_shows_value_iff hline hshown hbare
  refine ⟨hline, hshown, hbare, hiff.mpr (hreads (by decide) (by decide +kernel) ?_)⟩
  have hpowers : (((evaluateLine .standard .empty "房租 = 1/4").context.scope.find? (String.ofList
      ((evaluateLine .standard .empty "房租 = 1/4").context.aliases.engineName "房租".toList))).bind
        Value.number?).any (fun t => (Term.powers t).isEmpty) = true := by
    decide +kernel
  rw [hbound] at hpowers
  have hnone : Term.powers t = [] := by simpa [Value.number?] using hpowers
  simp [hnone]

/-- Names that can be assigned to and not looked at: a word for an operation, the maker of decimals, and a ruler. -/
theorem some_names_are_not_looked_at :
    (¬ ∀ context, Reachable .standard context → ∀ (line bare : String) (name : List Char) (text : String)
      (numeric : Double), IsAssignment (trim line.toList) name →
        (evaluateLine .standard context line).result = .display text numeric → trim bare.toList = name →
          (evaluateLine .standard (evaluateLine .standard context line).context bare).result =
            .display text numeric) ∧
    (calculate .standard "Add = 5\nAdd").map (·.text?) = [some "5", none] ∧
    (calculate .standard "Float = 5\nFloat").map (·.text?) = [some "5", none] ∧
    (calculate .standard "_ = 5\n_").map (·.text?) = [some "5", none] := by
  refine ⟨?_, by decide +kernel, by decide +kernel, by decide +kernel⟩
  intro h
  have hline : IsAssignment (trim "Add = 5".toList) "Add".toList :=
    ⟨⟨'A', ['d', 'd'], rfl, by decide, by decide⟩, [' '], " 5".toList, by decide +kernel, by decide, by decide⟩
  have hshown : (evaluateLine .standard .empty "Add = 5").result = .display "5" (.ofRat 5) := by decide +kernel
  have hagain := h .empty .start "Add = 5" "Add" "Add".toList "5" (.ofRat 5) hline hshown (by decide +kernel)
  exact absurd hagain (by decide +kernel)

end Reckoner.Document
