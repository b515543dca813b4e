import Reckoner.Proofs.Expression.ShownLiterals

/-!
# Decimal literals

A text that is a decimal numeral evaluates to exactly what the numeral denotes, if the guard of literals lets its exponent
pass.  Whole numbers with needless zeros are the exception: their zeros are multiplied by the digits behind them.
-/

namespace Reckoner.Expression

open Reckoner.Algebra Reckoner.Document Reckoner.Number Reckoner.Text

/-! ### Products of two adjacent literals -/

/-- Zeros, and digits of a whole number behind them that does not begin with a zero. -/
structure AreAdjacent (zeros digits : List Char) : Prop where
  areZeros : ∀ c ∈ zeros, c = '0'
  someZero : zeros ≠ []
  whole : IsWhole digits
  first : ∃ c ∈ digits.head?, c ≠ '0'

namespace AreAdjacent

variable {zeros digits : List Char}

theorem isWhole_zeros (h : AreAdjacent zeros digits) : IsWhole zeros where
  ne_nil := h.someZero
  areDigits c hc := by
    rw [h.areZeros c hc]
    decide
  areZeros _ := h.areZeros

theorem readsAsOne_zeros (h : AreAdjacent zeros digits) : ReadsAsOne zeros .whole :=
  (IsLiteral.whole h.isWhole_zeros).readsAsOne

theorem readsAsOne_digits (h : AreAdjacent zeros digits) : ReadsAsOne digits .whole := (IsLiteral.whole h.whole).readsAsOne

/-- The tokens of the zeros and of the digits behind them. -/
def tokens (zeros digits : List Char) : List Token :=
  [.numeral (String.ofList zeros), .numeral (String.ofList digits)]

theorem scan_tokens (h : AreAdjacent zeros digits) : scan (zeros ++ digits) = some (tokens zeros digits ++ closingTokens) := by
  have hzeros := numeralLength_zeros h.areZeros h.someZero h.whole.areDigits h.first (stopsAt_nil (p := continuesNumeral))
  have hdigits := h.readsAsOne_digits.numeralLength_append [] stopsAt_nil
  have hsecond := scanFrom_numeral h.readsAsOne_digits.exists_first hdigits 0 false
  have hfirst := scanFrom_numeral h.readsAsOne_zeros.exists_first hzeros 0 true
  rw [List.append_nil] at hsecond hfirst
  rw [scan, hfirst, hsecond, scanFrom]
  rfl

/-- The tokens as literals. -/
def literals (zeros digits : List Char) : List Token :=
  [.literal .whole (String.ofList zeros), .literal .whole (String.ofList digits)]

theorem resolve_tokens (h : AreAdjacent zeros digits) (v : Vocabulary) :
    resolve v (tokens zeros digits ++ closingTokens) = some (literals zeros digits ++ closingTokens) := by
  have hnames : ∀ word, Token.name word ∈ tokens zeros digits ++ closingTokens → v.hasValue word := by
    simp [tokens, closingTokens]
  have hbracket : Token.operator "[" ∉ tokens zeros digits ++ closingTokens := by simp [tokens, closingTokens]
  rw [resolve, rewriteAnonymous_eq (by simp [tokens]), Option.map_some, resolveNames_eq hnames, expandRepetends_eq hbracket]
  simp [tokens, literals, closingTokens, resolveNumerals, h.readsAsOne_zeros.numeralLiteral_eq,
    h.readsAsOne_digits.numeralLiteral_eq]

/-- The trees of the literals. -/
def trees (zeros digits : List Char) : List Tree := (literals zeros digits).map Tree.leaf ++ closingTrees

/-- The tokens of the product with nothing left out. -/
def completed (zeros digits : List Char) : List Token :=
  [.name "Integer", .operator "(", .numeral (String.ofList zeros), .operator ")", .operator "*",
    .name "Integer", .operator "(", .numeral (String.ofList digits), .operator ")"]

/-- Nothing stands between the two literals, so they are multiplied. -/
theorem complete_literals (zeros digits : List Char) {v : Vocabulary} (hwhole : v.isFunction Maker.whole.word) :
    complete v true (literals zeros digits ++ closingTokens) = .ok (completed zeros digits ++ closingTokens) := by
  have hattached : factorialsAttached none 0 (literals zeros digits ++ closingTokens) = true :=
    factorialsAttached_eq (by simp [literals, closingTokens]) none
  have htrees : Tree.ofTokens (literals zeros digits ++ closingTokens) = .ok (trees zeros digits) := by
    simp [literals, trees, closingTokens, closingTrees, Tree.ofTokens, groupFrom]
  have hfactorials : factorialsFrom [] 0 (trees zeros digits) = trees zeros digits := by
    simp [trees, literals, factorialsFrom, Tree.factorials, applyFactorials, closingTrees, closingTokens]
  have hcompleted : completed zeros digits =
      [.name Maker.whole.word, .operator "(", argumentToken .whole (String.ofList zeros), .operator ")", .operator "*",
        .name Maker.whole.word, .operator "(", argumentToken .whole (String.ofList digits), .operator ")"] := rfl
  have hcalls : insertCalls v {} (itemsIn v (withProducts v (trees zeros digits))) =
      completed zeros digits ++ closingTokens := by
    rw [hcompleted]
    simp [trees, literals, withProducts, productsIn, Tree.products, expandLiteral, hwhole, joinArguments, insertProducts,
      endsFactor, beginsFactor, asFactor, closingTrees, closingTokens, itemsIn, Tree.items, insertCalls,
      Item.isOperator, Item.isArgument, Item.tokens]
  rw [complete, hattached]
  simp only [Bool.not_true, Bool.false_eq_true, if_false, htrees, bind, Except.bind, hfactorials, hcalls,
    if_true, pure, Except.pure]
  simp [unifyPowers, exactDecimals, completed, closingTokens]

def formula (zeros digits : List Char) : Formula := .binary .mul (Maker.whole.formula zeros) (Maker.whole.formula digits)

section Readable

variable {q : ℚ}

/-- The complete tokens are read as a product. -/
theorem read?_completed {p : ℚ} (hzeros : MakesExactly zeros .whole p) (hdigits : MakesExactly digits .whole q)
    (h : AreAdjacent zeros digits) :
    Program.read? (completed zeros digits ++ closingTokens) = some (.expression (formula zeros digits)) := by
  have hcomplete : ∀ t ∈ completed zeros digits, IsComplete t := by
    intro t ht
    simp only [completed, List.mem_cons, List.not_mem_nil, or_false] at ht
    rcases ht with rfl | rfl | rfl | rfl | rfl | rfl | rfl | rfl | rfl
    · exact .name _
    · exact .operator _ (by decide)
    · exact .numeral _ (by simpa using h.someZero)
    · exact .operator _ (by decide)
    · exact .operator _ (by decide)
    · exact .name _
    · exact .operator _ (by decide)
    · exact .numeral _ (by simpa using h.whole.ne_nil)
    · exact .operator _ (by decide)
  have hchain : (completed zeros digits).IsChain Token.Parts := by
    simp [completed, Token.Parts, StopsAt, Token.goesOn]
  have hjoined : joinOperators [] false (completed zeros digits ++ closingTokens) = some (completed zeros digits) :=
    joinOperators_pending [] (by simp) hcomplete hchain
  have hdepth : bracketDepth 0 0 (completed zeros digits) = 1 := by simp [completed, bracketDepth]
  have hstops : Stops 4 (.operator "*" :: .name "Integer" :: .operator "(" :: .numeral (String.ofList digits) ::
      .operator ")" :: []) := @stops_operator 4 .mul (by decide) _
  have hfirst := takes_literalCall .whole (String.ofList zeros) (by decide : isKeyword "Integer" = false)
    hstops.endsPrimary hzeros.argument?
  have hsecond := takes_literalCall .whole (String.ofList digits) (by decide : isKeyword "Integer" = false)
    (stops_nil 0).endsPrimary hdigits.argument?
  have hproduct := takes_scaled .mul (.inl rfl) hfirst rfl hsecond rfl (stops_nil 0)
  have hlist := (hproduct.conditional_of_sum (stops_nil 0) (by simp)).list (stops_nil 0)
  refine read?_of_readList hjoined (by rw [hdepth]; decide) (hlist _ ?_) (by simp [completed]) ?_ (by simp [completed])
  · simp [readingFuel, completed]
  · rintro word more hkeyword heq
    obtain ⟨rfl, -⟩ : "Integer" = word ∧ _ := by simpa [completed] using heq
    exact absurd hkeyword (by decide)

variable {scope : Scope} {settings : Settings}

/-- Needless zeros make the value of the whole nothing. -/
theorem evaluate_product (hzeros : MakesExactly zeros .whole 0) (hdigits : MakesExactly digits .whole q)
    (hscope : scope.LeavesReserved) (bits : Nat) :
    (formula zeros digits).evaluate bits scope = .ok (.number (.rational 0)) := by
  simp only [formula, Formula.evaluate, hzeros.evaluate_formula hscope, hdigits.evaluate_formula hscope, operate,
    operateNumbers, Term.mul_rational, zero_mul]

theorem sketch_product (hzeros : MakesExactly zeros .whole 0) (hdigits : MakesExactly digits .whole q)
    (hscope : scope.LeavesReserved) :
    (formula zeros digits).sketch settings scope =
      .ok (.product [.value (.number (.rational 0)), .value (.number (.rational q))]) := by
  simp [formula, Formula.sketch, Formula.draft, hzeros.draft_formula hscope, hdigits.draft_formula hscope, Draft.join,
    Draft.sketchOf, Draft.factors, Draft.close, Sketch.isOperand, Sketch.joinOperands, bind, Except.bind, pure,
    Except.pure, Except.map]

theorem needsRounding_product (q : ℚ) :
    Sketch.needsRounding settings (.product [.value (.number (.rational 0)), .value (.number (.rational q))]) =
      .ok false := by
  simp [Sketch.needsRounding, Sketch.isMathematical, Sketch.powers, Sketch.powersOf, Term.powers, anyLarge]

end Readable

/-- Needless zeros in front of a whole number make nothing of it. -/
theorem evaluateExpression_eq (h : AreAdjacent zeros digits) (hlength : (zeros ++ digits).length ≤ maxDigits)
    {scope : Scope} (hscope : scope.LeavesReserved) {settings : Settings}
    (hexact : readsExactly settings (zeros ++ digits) = .ok true) :
    evaluateExpression settings scope (zeros ++ digits) = ⟨.ok (.numeric (.rational 0)), scope, none⟩ := by
  rw [List.length_append] at hlength
  have hnothing : Nat.ofDigitChars 10 zeros 0 = 0 := by
    rw [← decimalValue_eq_ofDigitChars h.isWhole_zeros.areDigits]
    exact (decimalValue_eq_zero h.isWhole_zeros.areDigits).mpr h.areZeros
  have hzeros : MakesExactly zeros .whole 0 := by
    have hmakes := MakesExactly.whole h.isWhole_zeros (by omega)
    rwa [hnothing, Nat.cast_zero] at hmakes
  have hdigits : MakesExactly digits .whole (Nat.ofDigitChars 10 digits 0) := .whole h.whole (by omega)
  have hplain : IsPlainText (zeros ++ digits) := by
    apply isPlainText_of_mem
    · simp [h.someZero]
    · rw [List.forall_mem_append]
      exact ⟨fun c hc => .inl (h.isWhole_zeros.areDigits c hc), fun c hc => .inl (h.whole.areDigits c hc)⟩
  have hprogram : readProgram scope true (zeros ++ digits) = .ok (.expression (formula zeros digits)) := by
    have hcomplete := complete_literals zeros digits (v := Vocabulary.ofScope scope)
      (isFunctionName_of_reserved hscope rfl rfl)
    simp only [readProgram, h.scan_tokens, Option.bind_some, h.resolve_tokens, hcomplete, read?_completed hzeros hdigits h]
  have hnesting : (formula zeros digits).nesting ≤ Formula.nestingLimit := by
    simp [formula, Maker.formula, Maker.argument, Formula.nesting, Formula.nestingOf, Formula.nestingLimit]
  apply evaluateExpression_of_program hplain hexact hprogram
  exact evaluateFormula_exact hnesting (sketch_product hzeros hdigits hscope) (needsRounding_product _)
    (evaluate_product hzeros hdigits hscope _)

end AreAdjacent

/-! ### Values of numerals -/

section Values

variable {n : Numeral} {settings : Settings} {scope : Scope}

theorem makesExactly_numeral (h : IsReadableNumeral n) (hzeros : ¬ HasNeedlessZeros n) :
    MakesExactly n.text (makerOf n) n.value := by
  rw [makerOf]
  split_ifs with hwhole
  · obtain ⟨hfraction, hexponent⟩ := hwhole
    rw [Numeral.text_of_whole hfraction hexponent, Numeral.value_of_whole hfraction hexponent,
      decimalValue_eq_ofDigitChars h.ascii.whole]
    exact .whole (isWhole_numeral h.ascii hzeros hfraction hexponent) h.whole
  · exact .decimal (rationalOfText?_numeral h)

/-- Needless zeros stand in front of the digits that are left. -/
theorem HasNeedlessZeros.exists_adjacent (hzeros : HasNeedlessZeros n) (hascii : n.IsAscii) :
    ∃ zeros digits, n.text = zeros ++ digits ∧ AreAdjacent zeros digits := by
  obtain ⟨hfraction, hexponent, hfirst, c, hc, hne⟩ := hzeros
  obtain ⟨more, hmore⟩ : ∃ more, n.whole = '0' :: more := List.head?_eq_some_iff.mp hfirst
  have hsome : n.whole.dropWhile (· = '0') ≠ [] := by
    rw [Ne, List.dropWhile_eq_nil_iff]
    intro hall
    exact hne (by simpa using hall c hc)
  obtain ⟨d, rest, hd⟩ := List.exists_cons_of_ne_nil hsome
  have hother : d ≠ '0' := by simpa [hd] using List.head_dropWhile_not (· = '0') hsome
  have hdigits : ∀ c ∈ d :: rest, isAsciiDigit c := by
    rw [← hd]
    exact fun c hc => hascii.whole c ((List.dropWhile_suffix _).subset hc)
  refine ⟨n.whole.takeWhile (· = '0'), d :: rest, ?_, ?_, ?_, ⟨by simp, hdigits, ?_⟩, ⟨d, rfl, hother⟩⟩
  · rw [Numeral.text_of_whole hfraction hexponent, ← hd, List.takeWhile_append_dropWhile]
  · exact fun c hc => by simpa using List.mem_takeWhile_imp hc
  · simp [hmore]
  · intro hzero
    exact absurd (Option.some.inj hzero) hother

/-- What becomes of a numeral: the guard refuses its exponent, its needless zeros make nothing of it, or its value is what
    it denotes. -/
theorem evaluateExpression_text (h : IsReadableNumeral n) (hexponent : (n.power.natAbs : Int) ≤ settings.maxExactDigits)
    (hscope : scope.LeavesReserved) : evaluateExpression settings scope n.text =
      ⟨if settings.maxDecimalExponent < guardedExponent n then .error .literalTooLarge
        else .ok (.numeric (.rational (if HasNeedlessZeros n then 0 else n.value))), scope, none⟩ := by
  have hexact := readsExactly_text settings h
  have hplain : IsPlainText n.text := by
    apply isPlainText_of_mem
    · obtain ⟨c, rest, hfirst, -⟩ := exists_first_numeral h.ascii
      simp [hfirst]
    · exact fun c hc => h.ascii.mem hc
  by_cases hlarge : settings.maxDecimalExponent < guardedExponent n
  · rw [if_pos hlarge] at hexact ⊢
    simp only [evaluateExpression, hplain.assignsNothing, evaluateText, hexact]
    rfl
  have hguarded : (guardedExponent n : Int) ≤ settings.maxExactDigits := by
    have hle := guardedExponent_le n
    omega
  rw [if_neg hlarge, decide_eq_true hguarded] at hexact
  rw [if_neg hlarge]
  by_cases hzeros : HasNeedlessZeros n
  · have hlength : n.text.length ≤ maxDigits := by
      rw [Numeral.text_of_whole hzeros.1 hzeros.2.1]
      exact h.whole
    obtain ⟨zeros, digits, htext, hadjacent⟩ := hzeros.exists_adjacent h.ascii
    rw [htext] at hexact hlength ⊢
    rw [if_pos hzeros, hadjacent.evaluateExpression_eq hlength hscope hexact]
  · rw [if_neg hzeros]
    exact evaluateExpression_signed false (readsAsOne_numeral h.ascii hzeros) (makesExactly_numeral h hzeros) hscope hexact

/-- A numeral with needless zeros denotes more than nothing. -/
theorem HasNeedlessZeros.value_ne_zero (hzeros : HasNeedlessZeros n) (hascii : n.IsAscii) : n.value ≠ 0 := by
  obtain ⟨hfraction, hexponent, -, c, hc, hne⟩ := hzeros
  rw [Numeral.value_of_whole hfraction hexponent, Nat.cast_ne_zero, Ne, decimalValue_eq_zero hascii.whole]
  exact fun hall => hne (hall c hc)

/-- A numeral on its own evaluates to what it denotes exactly if it has no needless zeros and the guard lets its exponent
    pass. -/
theorem numeral_means_what_it_denotes_iff (settings : Settings) (h : IsReadableNumeral n)
    (hexponent : (n.power.natAbs : Int) ≤ settings.maxExactDigits) :
    evaluateExpression settings [] n.text = ⟨.ok (.numeric (.rational n.value)), [], none⟩ ↔
      ¬ HasNeedlessZeros n ∧ (guardedExponent n : Int) ≤ settings.maxDecimalExponent := by
  rw [evaluateExpression_text h hexponent leavesReserved_nil]
  by_cases hlarge : settings.maxDecimalExponent < guardedExponent n
  · simp [hlarge]
  by_cases hzeros : HasNeedlessZeros n
  · simpa [hlarge, hzeros] using (hzeros.value_ne_zero h.ascii).symm
  · simp [hlarge, hzeros, not_lt.mp hlarge]

end Values

/-- A numeral that begins with its point and ends in an exponent. -/
def pointedFifty : Numeral where
  whole := []
  fraction := some "50".toList
  exponent := some ⟨'e', [], ['2'], .inl rfl, .inl rfl, by decide, by decide⟩
  wholeDigits := by decide
  fractionDigits := by decide
  nonempty := by decide

theorem pointed_fifty_means_fifty :
    IsReadableNumeral pointedFifty ∧ (pointedFifty.power.natAbs : Int) ≤ Settings.standard.maxExactDigits ∧
      evaluateExpression .standard [] ".50e2".toList = ⟨.ok (.numeric (.rational 50)), [], none⟩ := by
  have hreadable : IsReadableNumeral pointedFifty :=
    ⟨⟨by decide, by decide, by decide⟩, by decide, by decide, by decide⟩
  have hexponent : (pointedFifty.power.natAbs : Int) ≤ Settings.standard.maxExactDigits := by decide
  have hvalue : pointedFifty.value = 50 := by decide +kernel
  have hmeans := (numeral_means_what_it_denotes_iff .standard hreadable hexponent).mpr (by decide)
  rw [hvalue] at hmeans
  exact ⟨hreadable, hexponent, hmeans⟩

/-- Seven with two needless zeros. -/
def zerosAndSeven : Numeral where
  whole := "007".toList
  fraction := none
  exponent := none
  wholeDigits := by decide
  fractionDigits := by decide
  nonempty := by decide

theorem seven_behind_zeros_is_nothing :
    IsReadableNumeral zerosAndSeven ∧ (zerosAndSeven.power.natAbs : Int) ≤ Settings.standard.maxExactDigits ∧
      zerosAndSeven.value = 7 ∧
      evaluateExpression .standard [] "007".toList = ⟨.ok (.numeric (.rational 0)), [], none⟩ := by
  have hreadable : IsReadableNumeral zerosAndSeven :=
    ⟨⟨by decide, by decide, by decide⟩, by decide, by decide, by decide⟩
  have hexponent : (zerosAndSeven.power.natAbs : Int) ≤ Settings.standard.maxExactDigits := by decide
  have hguard : ¬ Settings.standard.maxDecimalExponent < guardedExponent zerosAndSeven := by decide
  have hzeros : HasNeedlessZeros zerosAndSeven := by decide
  have hevaluated := evaluateExpression_text hreadable hexponent leavesReserved_nil
  rw [if_neg hguard, if_pos hzeros] at hevaluated
  exact ⟨hreadable, hexponent, by decide +kernel, hevaluated⟩

end Reckoner.Expression
