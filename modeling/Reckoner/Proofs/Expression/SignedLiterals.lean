import Reckoner.Proofs.Document.Chaining
import Reckoner.Proofs.Expression.Hundredths
import Reckoner.Proofs.Expression.ShownValues

/-!
# Literals with a sign

A text that is one literal, perhaps with a minus in front, evaluates to the exact value of the literal with that sign,
in fixed notation and in scientific notation, as long as its exponent lets it be read exactly.
-/

namespace Reckoner.Expression

open Reckoner.Algebra Reckoner.Document Reckoner.Number Reckoner.Text

/-! ### Reading -/

theorem mem_of_isFixed {s : List Char} (h : IsFixed s) {c : Char} (hc : c ∈ s) : isAsciiDigit c ∨ c = '.' := by
  cases h with
  | whole hfront => exact .inl (hfront.2 c hc)
  | pointed hfront hfraction => exact mem_pointed hfront.2 hfraction.2 hc

theorem trim_of_not_blank {s : List Char} (h : ∀ c ∈ s, isBlank c = false) : trim s = s := by
  have hstart {s : List Char} (h : ∀ c ∈ s, isBlank c = false) : s.dropWhile isBlank = s :=
    dropWhile_of_stopsAt fun c hc => h c (List.mem_of_mem_head? hc)
  rw [trim, hstart h, hstart fun c hc => h c (List.mem_reverse.mp hc), List.reverse_reverse]

theorem MakesExactly.argument? {numeral : List Char} {maker : Maker} {q : Rat} (h : MakesExactly numeral maker q) :
    maker.argument? (String.ofList numeral) = some (maker.argument numeral) := by
  cases h with
  | whole h hlength => simp [Maker.argument?, Maker.argument, wholeValue?_of_isWhole h hlength]
  | decimal hvalue => rfl

section Reading

variable {numeral : List Char} {maker : Maker} {q : Rat} (negative : Bool)

theorem scan_signed (h : ReadsAsOne numeral maker) : scan (signText negative ++ numeral) =
    some (signTokens negative ++ .numeral (String.ofList numeral) :: closingTokens) := by
  have hscan := scanFrom_signed h negative stopsAt_nil 0 true
  rw [List.append_nil] at hscan
  rw [scan, hscan, scanFrom]
  rfl

theorem resolve_signed (h : ReadsAsOne numeral maker) (v : Vocabulary) :
    resolve v (signTokens negative ++ .numeral (String.ofList numeral) :: closingTokens) =
      some (signTokens negative ++ .literal maker (String.ofList numeral) :: closingTokens) := by
  obtain ⟨tokens, htokens⟩ : ∃ tokens, tokens = signTokens negative ++ .numeral (String.ofList numeral) :: closingTokens :=
    ⟨_, rfl⟩
  have hnames : ∀ word, Token.name word ∈ tokens → v.hasValue word := by
    cases negative <;> simp [htokens, signTokens, closingTokens]
  have hbracket : Token.operator "[" ∉ tokens := by cases negative <;> simp [htokens, signTokens, closingTokens]
  have hanonymous : ∀ t ∈ tokens.head?, t ≠ .name "lambda" := by cases negative <;> simp [htokens, signTokens]
  rw [← htokens, resolve, rewriteAnonymous_eq hanonymous, Option.map_some, resolveNames_eq hnames,
    expandRepetends_eq hbracket, htokens]
  cases negative <;> simp [signTokens, closingTokens, resolveNumerals, h.numeralLiteral_eq]

/-- The complete tokens of a literal with a sign. -/
def signedTokens (maker : Maker) (numeral : List Char) : List Token :=
  signTokens negative ++
    [.name maker.exactWord, .operator "(", argumentToken maker (String.ofList numeral), .operator ")"]

theorem complete_signed (hmaker : maker = .whole ∨ maker = .decimal) {v : Vocabulary}
    (hfunction : v.isFunction maker.word) :
    complete v true (signTokens negative ++ .literal maker (String.ofList numeral) :: closingTokens) =
      .ok (signedTokens negative maker numeral ++ closingTokens) := by
  obtain ⟨trees, htrees⟩ : ∃ trees, trees = literalTrees negative maker (String.ofList numeral) ++ closingTrees := ⟨_, rfl⟩
  have hattached : factorialsAttached none 0
      (signTokens negative ++ .literal maker (String.ofList numeral) :: closingTokens) = true :=
    factorialsAttached_eq (by cases negative <;> simp [signTokens, closingTokens]) none
  have hgrouped : Tree.ofTokens (signTokens negative ++ .literal maker (String.ofList numeral) :: closingTokens) =
      .ok trees := by
    cases negative <;> simp [htrees, literalTrees, signTokens, closingTokens, closingTrees, Tree.ofTokens, groupFrom]
  have hfactorials : factorialsFrom [] 0 trees = trees := by
    cases negative <;> simp [htrees, literalTrees, signTokens, factorialsFrom, Tree.factorials, applyFactorials,
      closingTrees, closingTokens]
  have hproducts : withProducts v trees = trees := by
    cases negative <;> simp [htrees, literalTrees, signTokens, withProducts, productsIn, Tree.products, expandLiteral,
      hfunction, joinArguments, insertProducts, endsFactor, beginsFactor, closingTrees, closingTokens]
  have hcalls : insertCalls v {} (itemsIn v trees) = signTokens negative ++
      [.name maker.word, .operator "(", argumentToken maker (String.ofList numeral), .operator ")"] ++ closingTokens := by
    cases negative <;> simp [htrees, literalTrees, signTokens, itemsIn, Tree.items, insertCalls, Item.isOperator,
      Item.isArgument, Item.tokens, closingTrees, closingTokens]
  rw [complete, hattached]
  simp only [Bool.not_true, Bool.false_eq_true, if_false, hgrouped, bind, Except.bind, hfactorials, hproducts, hcalls,
    if_true, pure, Except.pure]
  rcases hmaker with rfl | rfl <;> cases negative <;>
    simp [unifyPowers, exactDecimals, signedTokens, signTokens, Maker.exactWord, Maker.word, argumentToken, closingTokens]

/-- The complete tokens are read as the literal with its sign. -/
theorem read?_signed (h : ReadsAsOne numeral maker) (hvalue : MakesExactly numeral maker q) :
    Program.read? (signedTokens negative maker numeral ++ closingTokens) =
      some (.expression (signFormula negative (maker.formula numeral))) := by
  have hmaker := h.maker_cases
  have hne : numeral ≠ [] := by
    obtain ⟨c, rest, rfl, -⟩ := h.exists_first
    simp
  have hargument : IsComplete (argumentToken maker (String.ofList numeral)) := by
    rcases hmaker with rfl | rfl
    · exact .numeral _ (by simpa using hne)
    · exact .quotation _
  have hword : isKeyword maker.exactWord = false ∧ maker.exactWord ≠ "not" := by
    rcases hmaker with rfl | rfl <;> decide
  have hcomplete : ∀ t ∈ signedTokens negative maker numeral, IsComplete t := by
    intro t ht
    simp only [signedTokens, List.mem_append, List.mem_cons, List.not_mem_nil, or_false] at ht
    rcases ht with ht | rfl | rfl | rfl | rfl
    · cases negative with
      | false => cases ht
      | true =>
        obtain rfl : t = .operator "-" := by simpa [signTokens] using ht
        exact .operator _ (by decide)
    · exact .name _
    · exact .operator _ (by decide)
    · exact hargument
    · exact .operator _ (by decide)
  have hchain : (signedTokens negative maker numeral).IsChain Token.Parts := by
    rcases hmaker with rfl | rfl <;> cases negative <;>
      simp [signedTokens, signTokens, argumentToken, Token.Parts, StopsAt, Token.goesOn]
  have hjoined : joinOperators [] false (signedTokens negative maker numeral ++ closingTokens) =
      some (signedTokens negative maker numeral) :=
    joinOperators_pending [] (by simp) hcomplete hchain
  have hdepth : bracketDepth 0 0 (signedTokens negative maker numeral) = 1 := by
    rcases hmaker with rfl | rfl <;> cases negative <;> simp [signedTokens, signTokens, argumentToken, bracketDepth]
  have hfactor := (takes_literalCall maker (String.ofList numeral) hword.1 (stops_nil 0).endsPrimary
    hvalue.argument?).power (stops_nil 3).ne_power
  have hproduct := (hfactor.sign negative rfl).tightest.binary (by decide)
    fun n => readBinaryRest_of_stops (stops_nil 1) (.inr rfl) n _
  have hsum := hproduct.binary (by decide) fun n => readBinaryRest_of_stops (stops_nil 0) (.inr rfl) n _
  have hlist := (hsum.conditional_of_sum (stops_nil 0) (by cases negative <;> simp [signTokens, hword.2])).list (stops_nil 0)
  refine read?_of_readList hjoined (by rw [hdepth]; decide) (hlist _ ?_) ?_ ?_ ?_
  · cases negative <;> simp [readingFuel, signedTokens, signTokens]
  · simp [signedTokens]
  · rintro word more hkeyword heq
    cases negative with
    | false =>
      obtain ⟨rfl, -⟩ : maker.exactWord = word ∧ _ := by simpa [signedTokens, signTokens] using heq
      rw [hword.1] at hkeyword
      cases hkeyword
    | true => simp [signedTokens, signTokens] at heq
  · cases negative <;> simp [signedTokens, signTokens]

end Reading

/-! ### Evaluation -/

section Evaluation

variable {settings : Settings} {scope : Scope} {numeral : List Char} {maker : Maker} {q : Rat} (negative : Bool)

/-- A rational with a sign. -/
def signedRat (negative : Bool) (q : Rat) : Rat := if negative then -q else q

theorem evaluate_signed (hvalue : MakesExactly numeral maker q) (hscope : scope.LeavesReserved) (bits : Nat) :
    (signFormula negative (maker.formula numeral)).evaluate bits scope =
      .ok (.number (.rational (signedRat negative q))) := by
  cases negative with
  | false => exact hvalue.evaluate_formula hscope bits
  | true =>
    simp [signFormula, signedRat, Formula.evaluate, hvalue.evaluate_formula hscope, operateUnary, Term.neg, Term.minusOne]

theorem sketch_signed (hvalue : MakesExactly numeral maker q) (hscope : scope.LeavesReserved) :
    (signFormula negative (maker.formula numeral)).sketch settings scope =
      .ok (.value (.number (.rational (signedRat negative q)))) := by
  cases negative with
  | false => simp [signFormula, signedRat, Formula.sketch, Draft.sketchOf, hvalue.draft_formula hscope, Draft.close, Except.bind]
  | true =>
    simp [signFormula, signedRat, Formula.sketch, Formula.draft, Draft.sketchOf, hvalue.draft_formula hscope, Draft.close, bind,
      Except.bind, pure, Except.pure, Sketch.unary, operateUnary, Term.neg, Term.minusOne, Except.map]

/-- A text of the characters of numerals reaches the reader as it is. -/
theorem isPlainText_of_mem {text : List Char} (hsome : text ≠ []) (hmem : ∀ c ∈ text, isAsciiDigit c ∨ c ∈ numeralMarks) :
    IsPlainText text where
  nonempty := hsome
  trimmed := by
    have hall : ∀ c ∈ numeralMarks, isBlank c = false := by decide
    exact trim_of_not_blank fun c hc => (hmem c hc).elim (fun hdigit => (plain_of_isAsciiDigit hdigit).1) (hall c)
  assignsNothing := splitAssignment?_eq_none fun hequals => absurd (hmem _ hequals) (by decide)
  namesNothing := by
    -- every operation has a letter in its name that no numeral has
    have hletter : ∀ word ∈ operationWords,
        word.toList.all (fun c => isAsciiDigit c || numeralMarks.contains c) = false := by
      decide
    have hnone : operationWords.filter (fun word => (identifiers text).contains word.toList) = [] := by
      rw [List.filter_eq_nil_iff]
      intro word hword hcontains
      obtain ⟨c, hc, hother⟩ := List.all_eq_false.mp (hletter word hword)
      obtain ⟨hdigit, hmark⟩ : isAsciiDigit c = false ∧ c ∉ numeralMarks := by simpa using hother
      have hmem := hmem c (mem_of_mem_identifiers (by simpa using hcontains) hc)
      simp [hdigit, hmark] at hmem
    rw [operationWord?, hnone, List.head?_nil]

theorem isPlainText_signed (h : ReadsAsOne numeral maker) : IsPlainText (signText negative ++ numeral) := by
  apply isPlainText_of_mem
  · obtain ⟨c, rest, rfl, -⟩ := h.exists_first
    simp
  · rw [List.forall_mem_append]
    refine ⟨?_, h.mem⟩
    cases negative with
    | false => simp [signText]
    | true => simp [signText, numeralMarks]

/-- A literal with a sign evaluates to its exact value, if its exponent lets it be read exactly. -/
theorem evaluateExpression_signed (h : ReadsAsOne numeral maker) (hvalue : MakesExactly numeral maker q)
    (hscope : scope.LeavesReserved) (hexact : readsExactly settings (signText negative ++ numeral) = .ok true) :
    evaluateExpression settings scope (signText negative ++ numeral) =
      ⟨.ok (.numeric (.rational (signedRat negative q))), scope, none⟩ := by
  have hprogram : readProgram scope true (signText negative ++ numeral) =
      .ok (.expression (signFormula negative (maker.formula numeral))) := by
    have hfunction : (Vocabulary.ofScope scope).isFunction maker.word := by
      rcases h.maker_cases with rfl | rfl <;> exact isFunctionName_of_reserved hscope rfl rfl
    have hcomplete : complete (.ofScope scope) true
        (signTokens negative ++ .literal maker (String.ofList numeral) :: closingTokens) =
          .ok (signedTokens negative maker numeral ++ closingTokens) :=
      complete_signed negative h.maker_cases hfunction
    simp only [readProgram, scan_signed negative h, Option.bind_some, resolve_signed negative h,
      hcomplete, read?_signed negative h hvalue]
  have hnesting : (signFormula negative (maker.formula numeral)).nesting ≤ Formula.nestingLimit := by
    rcases h.maker_cases with rfl | rfl <;> cases negative <;>
      simp [signFormula, Maker.formula, Maker.argument, Formula.nesting, Formula.nestingOf, Formula.nestingLimit]
  apply evaluateExpression_of_program (isPlainText_signed negative h) hexact hprogram
  exact evaluateFormula_exact hnesting (sketch_signed negative hvalue hscope) rfl (evaluate_signed negative hvalue hscope _)

end Evaluation

end Reckoner.Expression
