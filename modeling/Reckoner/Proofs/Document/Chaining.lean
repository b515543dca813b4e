import Reckoner.Proofs.Document.Assembly
import Reckoner.Proofs.Expression.Layout
import Reckoner.Proofs.Expression.Leading
import Reckoner.Proofs.Expression.Shown

/-!
# Lines that go on with the previous answer

The text of the previous answer is put in front of a line that begins with an operator.  What the line means is the
same as if that text stood in brackets, because nothing binds more tightly than a literal but the sign of a power.
Only a line that raises the previous answer to a power takes a negative answer apart.
-/

namespace Reckoner.Document

open Reckoner.Algebra Reckoner.Expression Reckoner.Number Reckoner.Text

variable {line numeral : List Char} {maker : Maker}

/-! ### Scanning -/

theorem Continues.exists_cons (h : Continues line) : ∃ c rest, line = c :: rest ∧ c ∈ chainOperators := by
  obtain ⟨c, hc, hoperator⟩ := h
  cases line with
  | nil => cases hc
  | cons first rest =>
    obtain rfl : first = c := by simpa using hc
    exact ⟨first, rest, rfl, hoperator⟩

theorem operatorAt?_of_mem_chainOperators {c : Char} (hc : c ∈ chainOperators) (rest : List Char) :
    ∃ text, operatorAt? (c :: rest) = some text ∧ text.head? = some c := by
  have hone : ∀ c ∈ chainOperators, [c] ∈ operators := by decide +kernel
  have hne : ∀ text ∈ operators, text ≠ [] := by decide +kernel
  cases hfind : operatorAt? (c :: rest) with
  | none => exact absurd (by simp) (List.find?_eq_none.mp hfind [c] (hone c hc))
  | some text =>
    refine ⟨text, rfl, ?_⟩
    have hbegins := List.find?_some hfind
    cases text with
    | nil => exact absurd rfl (hne [] (List.mem_of_find?_eq_some hfind))
    | cons d more =>
      rw [List.isPrefixOf_iff_prefix, List.cons_prefix_cons] at hbegins
      simp [hbegins.1]

/-- A line that begins with an operator has an operator as its first token, wherever it stands. -/
theorem Continues.exists_scanFrom (h : Continues line) : ∃ operator after, OperatesOn operator ∧
    operator.toList.head? = line.head? ∧ ∀ fresh, scanFrom 0 fresh line = (scanFrom 0 false after).map (.operator operator :: ·) := by
  obtain ⟨c, rest, rfl, hc⟩ := h.exists_cons
  have hkinds : ∀ c ∈ chainOperators, isInk c ∧ isAsciiDigit c = false ∧ c ≠ '.' ∧ c.toLower ∉ ['b', 'r', 'u', 'f'] ∧
      c ≠ '\'' ∧ c ≠ '"' := by decide
  obtain ⟨hink, hdigit, hpoint, hmark, hquote⟩ := hkinds c hc
  obtain ⟨text, htext, hhead⟩ := operatorAt?_of_mem_chainOperators hc rest
  have hlexeme : lexemeAt (c :: rest) = .token (.operator (String.ofList text)) text.length := by
    rw [lexemeAt_of_isInk hink (quotationStart?_of_first hmark hquote rest),
      if_neg (by simp [numeralLength_eq_zero hdigit hpoint]), htext]
  have hoperates : OperatesOn (String.ofList text) := ⟨c, by simp [hhead], hc⟩
  have hstep : bracketStep (.operator (String.ofList text)) = 0 := by
    have hnot := hoperates.not_mem ["(", "[", "\x7b", ")", "]", "\x7d"] (by decide)
    simp only [List.mem_cons, List.not_mem_nil, or_false, not_or] at hnot
    simp [bracketStep, hnot]
  refine ⟨_, rest.drop (text.length - 1), hoperates, by simp [hhead], fun fresh => ?_⟩
  rw [scanFrom_lexeme hink hlexeme (by simp), hstep, Int.add_zero]

/-- The sign in front of a numeral. -/
def signText (negative : Bool) : List Char := if negative then ['-'] else []

theorem scanFrom_signed (h : ReadsAsOne numeral maker) (negative : Bool) {s : List Char}
    (hs : StopsAt continuesNumeral s) (depth : Int) (fresh : Bool) :
    scanFrom depth fresh (signText negative ++ numeral ++ s) =
      (scanFrom depth false s).map (signTokens negative ++ .numeral (String.ofList numeral) :: ·) := by
  obtain ⟨c, rest, hnumeral, hc⟩ := h.exists_first
  have hplain := scanFrom_numeral h.exists_first (h.numeralLength_append s hs)
  cases negative with
  | false => exact hplain depth fresh
  | true =>
    have hstops : StopsAt (Token.operator "-").goesOn (numeral ++ s) := by
      have hne : ∀ d ∈ ['=', '>', '*', '/'], ¬ (isAsciiDigit d ∨ d = '.') := by decide
      rw [hnumeral, List.cons_append, stopsAt_cons]
      cases hgoes : (Token.operator "-").goesOn c with
      | false => rfl
      | true =>
        have hmem : ['=', '>', '*', '/'].contains c = true := hgoes
        rw [List.contains_iff_mem] at hmem
        exact absurd hc (hne c hmem)
    have hminus := scanFrom_operator (by decide : "-" ∈ typedOperators) hstops depth fresh
    have hstep : bracketStep (.operator "-") = 0 := by simp [bracketStep]
    rw [hstep, Int.add_zero, hplain, Option.map_map] at hminus
    exact hminus

theorem Continues.stopsAt_continuesNumeral (h : Continues line) : StopsAt continuesNumeral line := by
  have hall : ∀ c ∈ chainOperators, continuesNumeral c = false := by decide
  obtain ⟨c, rest, rfl, hc⟩ := h.exists_cons
  exact stopsAt_cons.mpr (hall c hc)

theorem Continues.stopsAt_isDigit (h : Continues line) : StopsAt isDigit line := by
  obtain ⟨c, rest, rfl, hc⟩ := h.exists_cons
  exact stopsAt_cons.mpr (not_isDigit_of_mem_chainOperators hc)

theorem scan_bracketed (h : IsLiteral numeral maker) (negative : Bool) (line : List Char) :
    scan ('(' :: (signText negative ++ numeral ++ ')' :: line)) = (scanFrom 0 false line).map fun tokens =>
      .operator "(" :: (signTokens negative ++ .numeral (String.ofList numeral) :: .operator ")" :: tokens) := by
  have hno (bracket : String) (hbracket : bracket ∈ ["(", ")"]) (s : List Char) :
      StopsAt (Token.operator bracket).goesOn s := by
    have hall : ∀ bracket ∈ ["(", ")"], ∀ c, (Token.operator bracket).goesOn c = false := by simp [Token.goesOn]
    exact fun c _ => hall bracket hbracket c
  have hopening := scanFrom_operator (by decide : "(" ∈ typedOperators)
    (hno "(" (by decide) (signText negative ++ numeral ++ ')' :: line)) 0 true
  have hclosing := scanFrom_operator (by decide : ")" ∈ typedOperators) (hno ")" (by decide) line) 1 false
  have hstops : StopsAt continuesNumeral (')' :: line) := stopsAt_cons.mpr (by decide)
  have hsteps : bracketStep (.operator "(") = 1 ∧ bracketStep (.operator ")") = -1 := by simp [bracketStep]
  rw [hsteps.1, Int.zero_add, scanFrom_signed h.readsAsOne negative hstops] at hopening
  rw [hsteps.2] at hclosing
  change scanFrom 1 false (')' :: line) = (scanFrom 0 false line).map _ at hclosing
  rw [hclosing] at hopening
  change scan _ = _ at hopening
  rw [Option.map_map, Option.map_map] at hopening
  exact hopening

/-! ### Blanks at the end -/

theorem isBlank_of_mem_chainOperators {c : Char} (hc : c ∈ chainOperators) : isBlank c = false := by
  have hall : ∀ c ∈ chainOperators, isBlank c = false := by decide
  exact hall c hc

/-- Blanks at the end of a line that begins with an operator, and only those, are cut off, whatever stands in front. -/
theorem trim_append {c d : Char} {front : List Char} (hc : isBlank c = false) (hd : isBlank d = false) (line : List Char) :
    trim (c :: front ++ d :: line) = c :: front ++ d :: trimRight line := by
  have hlast : ∀ e ∈ (c :: front ++ [d]).getLast?, isBlank e = false := by
    intro e he
    rw [List.getLast?_concat] at he
    obtain rfl : d = e := by simpa using he
    exact hd
  have hright := @trimRight_append (c :: front ++ [d]) line hlast
  rw [List.append_assoc, List.singleton_append, List.append_assoc, List.singleton_append] at hright
  have hdrop : (c :: front ++ d :: line).dropWhile isBlank = c :: front ++ d :: line := by
    rw [List.cons_append, List.dropWhile_cons_of_neg (by simp [hc])]
  rw [trim, hdrop]
  exact hright

/-- A line that begins with an operator loses only the blanks at its end. -/
theorem Continues.trim_eq (h : Continues line) : trim line = trimRight line ∧ Continues (trim line) := by
  obtain ⟨c, rest, rfl, hc⟩ := h.exists_cons
  have hblank := isBlank_of_mem_chainOperators hc
  have hright := @trimRight_append [c] rest (by simp [hblank])
  have htrim : trim (c :: rest) = trimRight (c :: rest) := by
    rw [trim, List.dropWhile_cons_of_neg (by simp [hblank])]
    rfl
  refine ⟨htrim, c, ?_, hc⟩
  rw [htrim]
  exact congrArg List.head? hright

theorem trimRight_trimRight (s : List Char) : trimRight (trimRight s) = trimRight s := by
  rw [trimRight, trimRight, List.reverse_reverse, dropWhile_of_stopsAt (stopsAt_dropWhile _ _)]

/-! ### Programs -/

/-- The sign of a power is what a line begins with when nothing in it is left out. -/
def Raises (scope : Scope) (line : List Char) : Prop :=
  ∃ exact tokens completed rest, (scan (trim line)).bind (resolve (Vocabulary.ofScope scope)) = some tokens ∧
    complete (Vocabulary.ofScope scope) exact tokens = .ok completed ∧
    joinOperators [] false completed = some (.operator "**" :: rest)

/-- A literal in front of a line may stand in brackets, if it has no sign and its maker is a function wherever the line
    raises it to a power. -/
theorem readProgram_bracketed (h : IsLiteral numeral maker) (negative : Bool) (hline : Continues line)
    (htrim : trim line = line) {scope : Scope}
    (hraises : Raises scope line → negative = false ∧ isFunctionName scope maker.word) (exact : Bool) :
    readProgram scope exact (signText negative ++ numeral ++ line) =
      readProgram scope exact ('(' :: (signText negative ++ numeral ++ ')' :: line)) := by
  obtain ⟨operator, after, hoperates, -, hscan⟩ := hline.exists_scanFrom
  have hplain : scan (signText negative ++ numeral ++ line) = _ :=
    scanFrom_signed h.readsAsOne negative hline.stopsAt_continuesNumeral 0 true
  have hbracket := scan_bracketed h negative line
  rw [hscan, Option.map_map] at hplain hbracket
  cases htokens : scanFrom 0 false after with
  | none =>
    rw [htokens] at hplain hbracket
    rw [readProgram, readProgram, hplain, hbracket]
    rfl
  | some tokens =>
    rw [htokens] at hplain hbracket
    obtain ⟨others, hresolved, hresolvedPlain, hresolvedBracket⟩ := resolve_numeral hoperates h.readsAsOne.numeralLiteral_eq
      (Vocabulary.ofScope scope) negative tokens
    obtain ⟨completed, hcompletedPlain, hcompletedBracket, hcompleted⟩ := exists_completed h.readsAsOne.maker_cases hoperates
      (Vocabulary.ofScope scope) exact negative (String.ofList numeral) others
    simp only [Option.map_some, Function.comp_apply] at hplain hbracket
    rw [readProgram, readProgram, hplain, hbracket]
    simp only [Option.bind_some, hresolvedPlain, hresolvedBracket, hcompletedPlain, hcompletedBracket]
    have hkeyword : isKeyword (maker.spelled exact) = false := by
      have hall : ∀ maker ∈ [Maker.whole, .decimal], ∀ exact, isKeyword (maker.spelled exact) = false := by decide
      exact hall maker (by simpa using h.readsAsOne.maker_cases) exact
    have htext : String.ofList numeral ≠ "" := by
      obtain ⟨c, rest, rfl, -⟩ := h.exists_first
      simp
    rcases hcompleted with ⟨e, rfl, -⟩ | ⟨rest, rfl, halone⟩ | ⟨word, rest, rfl, -⟩
    · cases e <;> rfl
    · have hpower (raised : List Token) (hjoined : joinOperators [] false (.operator operator :: rest) =
          some (.operator "**" :: raised)) : negative = false ∧ isFunctionName scope maker.word := by
        refine hraises ⟨exact, _, _, raised, ?_, halone, hjoined⟩
        rw [htrim, scan, hscan, htokens]
        exact hresolved
      have hread := read?_bracketed (isFunctionName scope maker.word) negative maker htext hkeyword hoperates hpower
      simp only [Except.map]
      rw [show (Vocabulary.ofScope scope).isFunction maker.word = isFunctionName scope maker.word from rfl, hread]
    · have hpower (raised : List Token) (hjoined : joinOperators [] false (.operator "*" :: .name word :: rest) =
          some (.operator "**" :: raised)) : negative = false ∧ isFunctionName scope maker.word := by
        have hproduct : cutOperators ['*'] = some [.operator "*"] := by
          simpa using @cutOperators_flatMap ["*"] (by decide) (by simp)
        simp [joinOperators, hproduct, Option.bind_eq_some_iff] at hjoined
      have hread := read?_bracketed (isFunctionName scope maker.word) negative maker htext hkeyword
        ⟨'*', by decide, by decide⟩ hpower
      simp only [Except.map]
      rw [show (Vocabulary.ofScope scope).isFunction maker.word = isFunctionName scope maker.word from rfl, hread]

/-- A line that raises what stands in front of it to a power begins with a star. -/
theorem Raises.head?_eq {scope : Scope} (h : Raises scope line) (hline : Continues line) : line.head? = some '*' := by
  obtain ⟨exact, resolved, completed, raised, hresolved, hcompleted, hjoined⟩ := h
  obtain ⟨c, rest, rfl, hc⟩ := hline.exists_cons
  obtain ⟨htrim, hcontinues⟩ := hline.trim_eq
  have hright := @trimRight_append [c] rest (by simp [isBlank_of_mem_chainOperators hc])
  obtain ⟨operator, after, hoperates, hhead, hscan⟩ := hcontinues.exists_scanFrom
  have hfirst : (trim (c :: rest)).head? = some c := by
    rw [htrim]
    exact congrArg List.head? hright
  rw [hfirst] at hhead
  rw [scan, hscan] at hresolved
  cases htokens : scanFrom 0 false after with
  | none =>
    rw [htokens] at hresolved
    cases hresolved
  | some tokens =>
    rw [htokens] at hresolved
    obtain ⟨others, halone, -⟩ := @resolve_numeral operator hoperates "1" (.literal .whole "1") (by decide)
      (Vocabulary.ofScope scope) false tokens
    obtain rfl : .operator operator :: others = resolved := by
      rw [Option.map_some, Option.bind_some, halone] at hresolved
      exact Option.some.inj hresolved
    obtain ⟨_, -, -, hcases⟩ := exists_completed (.inl rfl) hoperates (Vocabulary.ofScope scope) exact false "1" others
    rcases hcases with ⟨e, -, herror⟩ | ⟨more, -, hok⟩ | ⟨word, more, -, hok⟩
    · rw [herror] at hcompleted
      cases hcompleted
    · rw [hok] at hcompleted
      obtain rfl := Except.ok.inj hcompleted
      have hblank : c ≠ ' ' := by
        rintro rfl
        exact absurd hc (by decide)
      obtain ⟨text, _, htext, hstar⟩ := exists_joined_operator hhead hblank hjoined
      obtain ⟨rfl, -⟩ : "**" = text ∧ _ := by simpa using htext
      exact hstar.symm.trans (by decide)
    · rw [hok] at hcompleted
      obtain rfl := Except.ok.inj hcompleted
      have hnil : cutOperators [] = some [] := by rw [cutOperators]
      simp [joinOperators, hnil, Option.bind_eq_some_iff] at hjoined

/-! ### Texts -/

theorem literalExponents_of_stopsAt {s : List Char} (hs : StopsAt isDigit s) (inside other : Bool) :
    literalExponents inside 0 s = literalExponents other 0 s := by
  cases s with
  | nil => rfl
  | cons c rest =>
    have hc : isDigit c = false := stopsAt_cons.mp hs
    rw [literalExponents, literalExponents]
    simp [hc]

theorem readsExactly_bracketed (h : IsLiteral numeral maker) (negative : Bool) (hline : Continues line)
    (settings : Settings) : readsExactly settings (signText negative ++ numeral ++ line) =
      readsExactly settings ('(' :: (signText negative ++ numeral ++ ')' :: line)) := by
  obtain ⟨found, hfound⟩ := h.exists_exponents
  obtain ⟨after, hafter⟩ := hfound line hline.stopsAt_continuesNumeral hline.stopsAt_isDigit
  obtain ⟨after', hafter'⟩ := hfound (')' :: line) (stopsAt_cons.mpr (by decide)) (stopsAt_cons.mpr (by decide))
  have hsign : ∀ c ∈ signText negative, isDigit c = false := by cases negative <;> decide
  have hopening : ∀ c ∈ '(' :: signText negative, isDigit c = false := by cases negative <;> decide
  have hplain := literalExponents_of_not_digits hsign false (numeral ++ line)
  have hbracket := literalExponents_of_not_digits hopening false (numeral ++ ')' :: line)
  have hclosing := @literalExponents_of_not_digits [')'] (by decide) after' line
  have hinside : insideAfter false (signText negative) = false := by cases negative <;> decide
  have hinside' : insideAfter false ('(' :: signText negative) = false := by cases negative <;> decide
  rw [hinside, hafter, literalExponents_of_stopsAt hline.stopsAt_isDigit after false] at hplain
  rw [List.singleton_append] at hclosing
  rw [hinside', hafter', hclosing, literalExponents_of_stopsAt hline.stopsAt_isDigit _ false] at hbracket
  rw [readsExactly, readsExactly, List.append_assoc, List.append_assoc, hplain]
  rw [List.cons_append] at hbracket
  rw [hbracket]

theorem operationWord?_bracketed (front : List Char) (hline : Continues line) :
    operationWord? (front ++ line) = operationWord? ('(' :: (front ++ ')' :: line)) := by
  have hidentifiers : identifiers ('(' :: (front ++ ')' :: line)) = identifiers (front ++ line) := by
    rw [identifiers_cons_of_not_begins (by decide), identifiers_append front (stopsAt_cons.mpr (by decide)),
      identifiers_cons_of_not_begins (by decide), identifiers_append front hline.stopsAt_isWord]
  rw [operationWord?, operationWord?, hidentifiers]

theorem evaluateText_bracketed (h : IsLiteral numeral maker) (negative : Bool) (hline : Continues line) {scope : Scope}
    (hraises : Raises scope line → negative = false ∧ isFunctionName scope maker.word) (settings : Settings) :
    evaluateText settings scope (signText negative ++ numeral ++ line) =
      evaluateText settings scope ('(' :: (signText negative ++ numeral ++ ')' :: line)) := by
  obtain ⟨htrim, hcontinues⟩ := hline.trim_eq
  have htwice : trim (trim line) = trim line := by rw [hcontinues.trim_eq.1, htrim, trimRight_trimRight]
  obtain ⟨c, front, hfront, hblank⟩ : ∃ c front, signText negative ++ numeral = c :: front ∧ isBlank c = false := by
    obtain ⟨c, rest, rfl, hc⟩ := h.exists_first
    cases negative with
    | true => exact ⟨'-', _, rfl, by decide⟩
    | false => exact ⟨c, _, rfl, isBlank_of_isInk (isInk_of_isAsciiWord (isAsciiWord_of_isAsciiDigit hc))⟩
  have hplain : trim (signText negative ++ numeral ++ line) = signText negative ++ numeral ++ trim line := by
    obtain ⟨d, rest, rfl, hd⟩ := hline.exists_cons
    have hright := @trimRight_append [d] rest (by simp [isBlank_of_mem_chainOperators hd])
    rw [hfront, trim_append hblank (isBlank_of_mem_chainOperators hd), htrim]
    exact congrArg (c :: front ++ ·) hright.symm
  have hbracket : trim ('(' :: (signText negative ++ numeral ++ ')' :: line)) =
      '(' :: (signText negative ++ numeral ++ ')' :: trim line) := by
    rw [htrim]
    exact trim_append (by decide) (by decide) line
  have hempty : (signText negative ++ numeral ++ trim line).isEmpty = false := by rw [hfront]; rfl
  have hprogram (exact : Bool) := readProgram_bracketed h negative hcontinues htwice
    (fun hraise => hraises (by unfold Raises at hraise ⊢; rwa [htwice] at hraise)) exact
  have hword := operationWord?_bracketed (signText negative ++ numeral) hcontinues
  rw [evaluateText, evaluateText, hplain, hbracket, readsExactly_bracketed h negative hline]
  simp only [hempty, hword, hprogram, List.isEmpty_cons]

/-! ### Evaluation -/

theorem splitAssignment?_of_first {c : Char} (hc : isBlank c = false ∧ isAsciiLetter c = false ∧ c ≠ '_') (s : List Char) :
    splitAssignment? (c :: s) = none := by
  rw [splitAssignment?, List.dropWhile_cons_of_neg (by simp [hc.1])]
  simp [hc.2]

theorem plain_of_isAsciiDigit {c : Char} (hc : isAsciiDigit c) :
    isBlank c = false ∧ isAsciiLetter c = false ∧ c ≠ '_' := by
  refine ⟨isBlank_of_isInk (isInk_of_isAsciiWord (isAsciiWord_of_isAsciiDigit hc)), ?_, ?_⟩
  · by_contra hletter
    rw [isAsciiDigit_eq_false (.inl (by simpa using hletter))] at hc
    cases hc
  · rintro rfl
    exact absurd hc (by decide)

theorem evaluateExpression_of_first {c : Char} (hc : isBlank c = false ∧ isAsciiLetter c = false ∧ c ≠ '_') (s : List Char)
    (settings : Settings) (scope : Scope) : (evaluateExpression settings scope (c :: s)).scope = scope ∧
      (evaluateExpression settings scope (c :: s)).answer =
        (evaluateText settings scope (c :: s)).bind fun r => Answer.ofValue r.1 := by
  rw [evaluateExpression, splitAssignment?_of_first hc]
  dsimp only
  cases evaluateText settings scope (c :: s) with
  | error f => exact ⟨rfl, rfl⟩
  | ok r =>
    obtain ⟨value, isRounded⟩ := r
    cases hvalue : Answer.ofValue value with
    | error f => simp [hvalue, Except.bind]
    | ok answer => simp [hvalue, Except.bind]

/-- A line that begins with an operator has the answer that it has behind the previous answer in brackets, and leaves the
    same scope.  If the line raises the previous answer to a power, that answer must not be negative, and the words that
    make literals must be functions. -/
theorem chained_answer_is_bracketed (settings : Settings) (scope : Scope) {v : Rat} {text : String}
    (htext : (DisplayStyle.ofSettings settings).displayValue (.number (.rational v)) = .ok text) {line : List Char}
    (hline : Continues line)
    (hraises : Raises scope line → 0 ≤ v ∧ isFunctionName scope "Integer" ∧ isFunctionName scope "Float") :
    ∃ assembled, chain settings (some (.number (.rational v))) line = .ok assembled ∧
      (evaluateExpression settings scope assembled).answer =
        (evaluateExpression settings scope ('(' :: (text.toList ++ ')' :: line))).answer ∧
      (evaluateExpression settings scope assembled).scope =
        (evaluateExpression settings scope ('(' :: (text.toList ++ ')' :: line))).scope := by
  refine ⟨text.toList ++ line, chain_of_continues hline htext, ?_⟩
  obtain ⟨negative, maker, numeral, hshown, hliteral, hnegative⟩ := exists_literal_display htext
  have hsame : evaluateText settings scope (text.toList ++ line) =
      evaluateText settings scope ('(' :: (text.toList ++ ')' :: line)) := by
    rw [hshown]
    refine evaluateText_bracketed hliteral negative hline (fun hraise => ?_) settings
    obtain ⟨hv, hwhole, hdecimal⟩ := hraises hraise
    refine ⟨hnegative hv, ?_⟩
    rcases hliteral.readsAsOne.maker_cases with rfl | rfl
    · exact hwhole
    · exact hdecimal
  obtain ⟨c, rest, hfirst, hc⟩ : ∃ c rest, text.toList ++ line = c :: rest ∧
      (isBlank c = false ∧ isAsciiLetter c = false ∧ c ≠ '_') := by
    obtain ⟨c, rest, hnumeral, hc⟩ := hliteral.exists_first
    rw [hshown, hnumeral]
    cases negative with
    | true => exact ⟨'-', _, rfl, by decide⟩
    | false => exact ⟨c, _, rfl, plain_of_isAsciiDigit hc⟩
  rw [hfirst] at hsame ⊢
  obtain ⟨hscope, hanswer⟩ := evaluateExpression_of_first hc rest settings scope
  obtain ⟨hscope', hanswer'⟩ := @evaluateExpression_of_first '(' (by decide) (text.toList ++ ')' :: line) settings scope
  exact ⟨by rw [hanswer, hanswer', hsame], hscope.trans hscope'.symm⟩

theorem half_is_squared_in_brackets :
    (DisplayStyle.ofSettings .standard).displayValue (.number (.rational (5 / 2))) = .ok "2.5" ∧
      Continues "**2".toList ∧ Raises [] "**2".toList ∧
      ∃ assembled, chain .standard (some (.number (.rational (5 / 2)))) "**2".toList = .ok assembled ∧
        (evaluateExpression .standard [] assembled).answer =
          (evaluateExpression .standard [] "(2.5)**2".toList).answer := by
  have htext : (DisplayStyle.ofSettings .standard).displayValue (.number (.rational (5 / 2))) = .ok "2.5" := by
    decide +kernel
  have hline : Continues "**2".toList := ⟨'*', by decide, by decide⟩
  obtain ⟨assembled, hchain, hanswer, -⟩ := chained_answer_is_bracketed .standard [] htext hline
    fun _ => ⟨by decide +kernel, by decide +kernel, by decide +kernel⟩
  refine ⟨htext, hline, ?_, assembled, hchain, hanswer⟩
  exact ⟨true, [.operator "**", .literal .whole "2", .lineEnd false, .finish],
    [.operator "**", .name "Integer", .operator "(", .numeral "2", .operator ")", .lineEnd false, .finish],
    [.name "Integer", .operator "(", .numeral "2", .operator ")"], by decide +kernel, by rfl, by decide +kernel⟩

/-- A negative answer is taken apart by a line that raises it to a power: the sign is applied to the power. -/
theorem negative_answer_is_regrouped :
    (¬ ∀ (settings : Settings) (scope : Scope) (v : Rat) (text : String) (line assembled : List Char),
      (DisplayStyle.ofSettings settings).displayValue (.number (.rational v)) = .ok text → Continues line →
        chain settings (some (.number (.rational v))) line = .ok assembled →
          (evaluateExpression settings scope assembled).answer =
            (evaluateExpression settings scope ('(' :: (text.toList ++ ')' :: line))).answer) ∧
      (pass .standard "-5\n**2\n(-5)**2").map (fun report => report.result.text?) =
        [some "-5", some "-25", some "25"] := by
  refine ⟨fun h => ?_, by decide +kernel⟩
  have hline : Continues "**2".toList := ⟨'*', by decide, by decide⟩
  have htext : (DisplayStyle.ofSettings .standard).displayValue (.number (.rational (-5))) = .ok "-5" := by decide +kernel
  have hsame := h .standard [] (-5) "-5" "**2".toList _ htext hline (chain_of_continues hline htext)
  let shown (answer : Except Failure Answer) : Option (Option String) :=
    answer.toOption.map fun a => (answerReport .standard .empty [] [] a).result.text?
  have hplain : shown (evaluateExpression .standard [] "-5**2".toList).answer = some (some "-25") := by decide +kernel
  have hbracket : shown (evaluateExpression .standard [] "(-5)**2".toList).answer = some (some "25") := by
    decide +kernel
  have hequal : some (some "-25") = some (some "25") := hplain.symm.trans ((congrArg shown hsame).trans hbracket)
  exact absurd hequal (by decide)

end Reckoner.Document
