import Reckoner.Document.Percent
import Reckoner.Proofs.Expression.Exactness
import Reckoner.Proofs.Number.Numerals

/-!
# Hundredths

A numeral without exponent that is divided by a hundred in brackets is read as one group wherever it stands, and the
value of that group is a hundredth of the value of the numeral.  Unlike a literal of school arithmetic, the numeral may
have needless zeros in front of its point.
-/

namespace Reckoner.Expression

open Reckoner.Algebra Reckoner.Document Reckoner.Number Reckoner.Text

/-! ### Numerals without exponent -/

/-- A numeral without exponent, with the maker of its literal and its value. -/
inductive Denotes : List Char → Maker → Rat → Prop
  | whole {digits : List Char} (h : IsWhole digits) (hlength : digits.length ≤ maxDigits) :
      Denotes digits .whole (Nat.ofDigitChars 10 digits 0)
  | pointed {front fraction : List Char} (hfront : ∀ c ∈ front, isAsciiDigit c)
      (hfraction : ∀ c ∈ fraction, isAsciiDigit c) (hsome : front ≠ [] ∨ fraction ≠ [])
      (hfrontLength : front.length ≤ maxDigits) (hfractionLength : fraction.length ≤ maxDigits) :
      Denotes (front ++ '.' :: fraction) .decimal (Nat.ofDigitChars 10 (front ++ fraction) 0 / 10 ^ fraction.length)

theorem denotes_hundred : Denotes ['1', '0', '0'] .whole 100 :=
  .whole ⟨by decide, by decide, by decide⟩ (by decide)

namespace Denotes

variable {numeral : List Char} {maker : Maker} {q : Rat}

theorem numeralLength_append (h : Denotes numeral maker q) {s : List Char} (hs : StopsAt continuesNumeral s) :
    numeralLength (numeral ++ s) = numeral.length := by
  cases h with
  | whole h hlength => exact numeralLength_whole h hs
  | pointed hfront hfraction hsome =>
    rw [List.append_assoc, List.cons_append, numeralLength_pointed hfront hfraction hsome hs, List.length_append,
      List.length_cons]
    omega

theorem mem (h : Denotes numeral maker q) {c : Char} (hc : c ∈ numeral) : isAsciiDigit c ∨ c = '.' := by
  cases h with
  | whole h hlength => exact .inl (h.areDigits c hc)
  | pointed hfront hfraction => exact mem_pointed hfront hfraction hc

theorem ne_nil (h : Denotes numeral maker q) : numeral ≠ [] := by
  cases h with
  | whole h hlength => exact h.ne_nil
  | pointed hfront hfraction => simp

theorem exists_first (h : Denotes numeral maker q) : ∃ c rest, numeral = c :: rest ∧ (isAsciiDigit c ∨ c = '.') := by
  obtain ⟨c, rest, rfl⟩ := List.exists_cons_of_ne_nil h.ne_nil
  exact ⟨c, rest, rfl, h.mem List.mem_cons_self⟩

theorem scanFrom_append (h : Denotes numeral maker q) {s : List Char} (hs : StopsAt continuesNumeral s) (depth : Int)
    (fresh : Bool) :
    scanFrom depth fresh (numeral ++ s) = (scanFrom depth false s).map (.numeral (String.ofList numeral) :: ·) :=
  scanFrom_numeral h.exists_first (h.numeralLength_append hs) depth fresh

theorem numeralLiteral_eq (h : Denotes numeral maker q) :
    numeralLiteral (String.ofList numeral) = [.literal maker (String.ofList numeral)] := by
  rw [numeralLiteral_of_digits fun c hc => h.mem hc]
  cases h with
  | whole h hlength =>
    have hpoint : '.' ∉ numeral := not_mem_digits h.areDigits (by decide)
    simp [hpoint]
  | pointed hfront hfraction => simp

end Denotes

/-! ### Formulas of literals -/

/-- The word that makes a literal where decimals are read exactly. -/
def Maker.exactWord : Maker → String
  | .decimal => "Rational"
  | maker => maker.word

/-- The number or the text that a literal is made of. -/
def Maker.argument (maker : Maker) (numeral : List Char) : Formula :=
  match maker with
  | .whole => .numeral (Nat.ofDigitChars 10 numeral 0)
  | _ => .quotation (String.ofList numeral)

def Maker.formula (maker : Maker) (numeral : List Char) : Formula :=
  .call (.name maker.exactWord) [""] [maker.argument numeral]

section Literals

variable {numeral : List Char} {maker : Maker} {q : Rat}

theorem Denotes.takes (h : Denotes numeral maker q) {strength : Nat} {rest : List Token} (hrest : Stops strength rest) :
    Takes readPrimary 20
      (.name maker.exactWord :: .operator "(" :: argumentToken maker (String.ofList numeral) :: .operator ")" :: rest)
      (maker.formula numeral) rest := by
  have hargument : Takes readAtom 1 (argumentToken maker (String.ofList numeral) :: .operator ")" :: rest)
      (maker.argument numeral) (.operator ")" :: rest) := by
    intro n hn
    obtain ⟨m, rfl⟩ : ∃ m, n = m + 1 := ⟨n - 1, by omega⟩
    cases h with
    | whole h hlength =>
      simp [argumentToken, Maker.argument, readAtom, wholeValue?_of_isWhole h hlength]
    | pointed => simp [argumentToken, Maker.argument, readAtom, joinQuotations]
  refine takes_call ?_ hargument ?_ ?_ hrest.endsPrimary
  · cases h <;> rfl
  · cases h <;> simp [argumentToken]
  · cases h <;> simp [argumentToken]

variable {scope : Scope}

theorem nameOutcome_of_reserved (hscope : scope.LeavesReserved) {word : String} {v : Value}
    (hword : reservedValue? word = some v) (hnamespace : namespaceValue? word = none) :
    nameOutcome scope word = .ok v := by
  have hfind : scope.find? word = none := by
    by_contra hsome
    have hnone := hscope word (Option.isSome_iff_ne_none.mpr hsome)
    rw [hword] at hnone
    cases hnone
  simp [nameOutcome, nameValue?, hfind, hnamespace, hword]

/-- A numeral whose literal is made exactly, with the maker of the literal and the value that it makes. -/
inductive MakesExactly (numeral : List Char) : Maker → Rat → Prop
  | whole (h : IsWhole numeral) (hlength : numeral.length ≤ maxDigits) :
      MakesExactly numeral .whole (Nat.ofDigitChars 10 numeral 0)
  | decimal {q : Rat} (hvalue : rationalOfText? (String.ofList numeral) = some q) : MakesExactly numeral .decimal q

theorem Denotes.makesExactly (h : Denotes numeral maker q) : MakesExactly numeral maker q := by
  cases h with
  | whole h hlength => exact .whole h hlength
  | pointed hfront hfraction hsome hfrontLength hfractionLength =>
    exact .decimal (rationalOfText?_pointed hfront hfraction hsome hfrontLength hfractionLength)

namespace MakesExactly

/-- The function that a literal calls, and what it is called with. -/
theorem call (h : MakesExactly numeral maker q) (hscope : scope.LeavesReserved) :
    ∃ f v, nameOutcome scope maker.exactWord = .ok (.function f) ∧
      (∀ bits, (maker.argument numeral).evaluate bits scope = .ok v) ∧
      (∀ settings, (maker.argument numeral).draft settings scope = .ok (.finished (.value v))) ∧
      (∀ bits, applyBuiltin bits f [v] = .ok (.number (.rational q))) ∧
      Sketch.heldNames.contains maker.exactWord = false := by
  cases h with
  | whole h hlength =>
    refine ⟨.whole, .number (.rational (Nat.ofDigitChars 10 numeral 0)), nameOutcome_of_reserved hscope rfl rfl,
      fun _ => by simp [Maker.argument, Formula.evaluate], fun _ => by simp [Maker.argument, Formula.draft],
      fun _ => ?_, by decide⟩
    simp [applyBuiltin, makeWhole, cutToWhole?, Term.ofInt]
  | decimal hvalue =>
    refine ⟨.rational, .text (String.ofList numeral), nameOutcome_of_reserved hscope rfl rfl,
      fun _ => by simp [Maker.argument, Formula.evaluate], fun _ => by simp [Maker.argument, Formula.draft],
      fun _ => ?_, by decide⟩
    simp only [applyBuiltin, makeRational, hvalue]

theorem evaluate_formula (h : MakesExactly numeral maker q) (hscope : scope.LeavesReserved) (bits : Nat) :
    (maker.formula numeral).evaluate bits scope = .ok (.number (.rational q)) := by
  obtain ⟨f, v, hname, hargument, _, happly, _⟩ := h.call hscope
  simp [Maker.formula, Formula.evaluate, Formula.evaluateAll, hname, hargument, Except.map, callValue_single, happly]

theorem draft_formula (h : MakesExactly numeral maker q) (hscope : scope.LeavesReserved) (settings : Settings) :
    (maker.formula numeral).draft settings scope = .ok (.finished (.value (.number (.rational q)))) := by
  obtain ⟨f, v, hname, _, hargument, happly, hheld⟩ := h.call hscope
  have hcall : Sketch.call settings maker.exactWord (.function f) [""] [.value v] =
      .ok (.value (.number (.rational q))) := by
    have hvalues : Sketch.values? [.value v] = some [v] := rfl
    simp only [Sketch.call, List.all_cons, List.all_nil, decide_true, Bool.and_self, if_true, hheld, Bool.false_eq_true,
      if_false, Sketch.carryOut, hvalues, happly, Except.map]
  simp [Maker.formula, Formula.draft, Formula.draftAll, hname, hargument, Except.map, Draft.sketchOf, Draft.close, bind,
    Except.bind, pure, Except.pure, hcall]

end MakesExactly

end Literals

/-! ### Quotients in brackets -/

/-- The tokens of a numeral that is divided by a hundred in brackets. -/
def hundredthTokens (numeral : List Char) : List Token :=
  [.operator "(", .numeral (String.ofList numeral), .operator "/", .numeral "100", .operator ")"]

def hundredthFormula (maker : Maker) (numeral : List Char) : Formula :=
  .binary .div (maker.formula numeral) (Maker.whole.formula ['1', '0', '0'])

section Quotients

variable {numeral : List Char} {maker : Maker} {q : Rat}

/-- Wherever it stands, the group is scanned into its own five tokens. -/
theorem scanFrom_hundredth (h : Denotes numeral maker q) (s : List Char) (depth : Int) (fresh : Bool) :
    scanFrom depth fresh (hundredth numeral ++ s) = (scanFrom depth false s).map (hundredthTokens numeral ++ ·) := by
  have hparts : hundredth numeral ++ s =
      "(".toList ++ (numeral ++ ("/".toList ++ (['1', '0', '0'] ++ (")".toList ++ s)))) := by
    simp [hundredth]
  have hopening : StopsAt (Token.operator "(").goesOn
      (numeral ++ ("/".toList ++ (['1', '0', '0'] ++ (")".toList ++ s)))) := fun c _ => rfl
  have hnumeral : StopsAt continuesNumeral ("/".toList ++ (['1', '0', '0'] ++ (")".toList ++ s))) :=
    stopsAt_cons.mpr (by decide)
  have hhundred : StopsAt continuesNumeral (")".toList ++ s) := stopsAt_cons.mpr (by decide)
  have hslash : StopsAt (Token.operator "/").goesOn (['1', '0', '0'] ++ (")".toList ++ s)) :=
    stopsAt_cons.mpr (by decide)
  have hclosing : StopsAt (Token.operator ")").goesOn s := fun c _ => rfl
  have hdepth : depth + bracketStep (.operator "(") + bracketStep (.operator "/") + bracketStep (.operator ")") =
      depth := by
    simp [bracketStep]
  rw [hparts, scanFrom_operator (by decide) hopening, h.scanFrom_append hnumeral,
    scanFrom_operator (by decide) hslash, denotes_hundred.scanFrom_append hhundred,
    scanFrom_operator (by decide) hclosing, hdepth]
  simp only [Option.map_map]
  rfl

theorem scan_hundredth (h : Denotes numeral maker q) :
    scan (hundredth numeral) = some (hundredthTokens numeral ++ closingTokens) := by
  have hscan := scanFrom_hundredth h [] 0 true
  rw [List.append_nil] at hscan
  rw [scan, hscan, scanFrom]
  rfl

/-- The tokens of the group with its numerals as literals. -/
def hundredthLiterals (maker : Maker) (numeral : List Char) : List Token :=
  [.operator "(", .literal maker (String.ofList numeral), .operator "/", .literal .whole "100", .operator ")"]

theorem resolve_hundredth (h : Denotes numeral maker q) (v : Vocabulary) :
    resolve v (hundredthTokens numeral ++ closingTokens) = some (hundredthLiterals maker numeral ++ closingTokens) := by
  have hnames : ∀ word, Token.name word ∈ hundredthTokens numeral ++ closingTokens → v.hasValue word := by
    simp [hundredthTokens, closingTokens]
  have hbracket : Token.operator "[" ∉ hundredthTokens numeral ++ closingTokens := by
    simp [hundredthTokens, closingTokens]
  have hhundred : numeralLiteral "100" = [.literal .whole "100"] := denotes_hundred.numeralLiteral_eq
  rw [resolve, rewriteAnonymous_eq (by simp [hundredthTokens]), Option.map_some, resolveNames_eq hnames,
    expandRepetends_eq hbracket]
  simp [hundredthTokens, hundredthLiterals, closingTokens, resolveNumerals, h.numeralLiteral_eq, hhundred]

/-- The trees of the group. -/
def hundredthTrees (maker : Maker) (numeral : List Char) : List Tree :=
  .group [.leaf (.literal maker (String.ofList numeral)), .leaf (.operator "/"), .leaf (.literal .whole "100")] ::
    closingTrees

/-- The tokens of the group with nothing left out. -/
def hundredthCompleted (maker : Maker) (numeral : List Char) : List Token :=
  [.operator "(", .name maker.exactWord, .operator "(", argumentToken maker (String.ofList numeral), .operator ")",
    .operator "/", .name "Integer", .operator "(", .numeral "100", .operator ")", .operator ")"]

theorem complete_hundredth (h : Denotes numeral maker q) {v : Vocabulary} (hwhole : v.isFunction Maker.whole.word)
    (hdecimal : v.isFunction Maker.decimal.word) :
    complete v true (hundredthLiterals maker numeral ++ closingTokens) =
      .ok (hundredthCompleted maker numeral ++ closingTokens) := by
  have hattached : factorialsAttached none 0 (hundredthLiterals maker numeral ++ closingTokens) = true :=
    factorialsAttached_eq (by simp [hundredthLiterals, closingTokens]) none
  have htrees :
      Tree.ofTokens (hundredthLiterals maker numeral ++ closingTokens) = .ok (hundredthTrees maker numeral) := by
    simp [hundredthLiterals, hundredthTrees, closingTokens, closingTrees, Tree.ofTokens, groupFrom]
  have hfactorials : factorialsFrom [] 0 (hundredthTrees maker numeral) = hundredthTrees maker numeral := by
    simp [hundredthTrees, factorialsFrom, Tree.factorials, applyFactorials, closingTrees, closingTokens]
  have hproducts : withProducts v (hundredthTrees maker numeral) = hundredthTrees maker numeral := by
    have hmaker : v.isFunction maker.word = true := by cases h <;> assumption
    simp [hundredthTrees, withProducts, productsIn, Tree.products, expandLiteral, hmaker, hwhole, joinArguments,
      insertProducts, endsFactor, beginsFactor, closingTrees, closingTokens]
  have hcalls : insertCalls v {} (itemsIn v (hundredthTrees maker numeral)) =
      [.operator "(", .name maker.word, .operator "(", argumentToken maker (String.ofList numeral), .operator ")",
        .operator "/", .name "Integer", .operator "(", .numeral "100", .operator ")", .operator ")"] ++
        closingTokens := by
    simp [hundredthTrees, itemsIn, Tree.items, insertCalls, Item.isOperator, Item.isArgument, Item.tokens,
      argumentToken, Maker.word, closingTrees, closingTokens]
  rw [complete, hattached]
  simp only [Bool.not_true, Bool.false_eq_true, if_false, htrees, bind, Except.bind, hfactorials, hproducts, hcalls,
    if_true, pure, Except.pure]
  cases h <;> simp [unifyPowers, exactDecimals, hundredthCompleted, Maker.exactWord, Maker.word, argumentToken,
    closingTokens]

/-- A product or a quotient of two operands that are read in front of whatever is looser than they are. -/
theorem takes_scaled (op : ArithmeticOperator) (hop : op = .mul ∨ op = .div) {bound : Nat} {s more rest : List Token}
    {f g : Formula} (hs : Takes readPrimary bound s f (.operator op.completedSign :: more)) (hsunary : unaryOperator? s = none)
    (hmore : Takes readPrimary bound more g rest) (hmoreunary : unaryOperator? more = none) (hrest : Stops 0 rest) :
    Takes (readBinary · 3) (bound + 6) s (.binary op.binary f g) rest := by
  have hstrength : op.strength < 3 := by rcases hop with rfl | rfl <;> decide
  have hoperator : binaryOperator? 4 op.completedSign = some op.binary := by
    rcases hop with rfl | rfl <;> rfl
  have hleft := ((hs.power (stops_operator hstrength more).ne_power).signed hsunary).tightest
  have hright := ((hmore.power (Stops.ne_power (hrest.mono (by decide)))).signed hmoreunary).tightest
  have hproduct : Takes (readBinary · 4) (bound + 5) s (.binary op.binary f g) rest := by
    intro n hn
    obtain ⟨m, rfl⟩ : ∃ m, n = m + 3 := ⟨n - 3, by omega⟩
    have hfirst : readBinary (m + 2) 5 s = some (f, .operator op.completedSign :: more) := hleft (m + 2) (by omega)
    have hsecond : readBinary (m + 1) 5 more = some (g, rest) := hright (m + 1) (by omega)
    have hdone : readBinaryRest (m + 1) 4 (.binary op.binary f g) rest = some (.binary op.binary f g, rest) :=
      readBinaryRest_of_stops (hrest.mono (by decide)) (.inr rfl) m _
    change readBinary (m + 3) 4 s = _
    rw [readBinary, if_neg (by decide), hfirst]
    simp only [Option.bind_eq_bind, Option.bind_some]
    rw [readBinaryRest]
    simp [hoperator, hsecond, hdone]
  exact hproduct.binary (by decide) fun n => readBinaryRest_of_stops hrest (.inr rfl) n _

/-- The complete tokens of the group are read as a quotient. -/
theorem read?_hundredth (h : Denotes numeral maker q) :
    Program.read? (hundredthCompleted maker numeral ++ closingTokens) =
      some (.expression (hundredthFormula maker numeral)) := by
  have hargument : IsComplete (argumentToken maker (String.ofList numeral)) := by
    cases h with
    | whole h => exact .numeral _ (by simpa using h.ne_nil)
    | pointed => exact .quotation _
  have hcomplete : ∀ t ∈ hundredthCompleted maker numeral, IsComplete t := by
    intro t ht
    simp only [hundredthCompleted, List.mem_cons, List.not_mem_nil, or_false] at ht
    rcases ht with rfl | rfl | rfl | rfl | rfl | rfl | rfl | rfl | rfl | rfl | rfl
    all_goals first | exact hargument | exact .name _ | exact .operator _ (by decide) | exact .numeral _ (by decide)
  have hchain : (hundredthCompleted maker numeral).IsChain Token.Parts := by
    cases h <;> simp [hundredthCompleted, argumentToken, Token.Parts, StopsAt, Token.goesOn]
  have hjoined : joinOperators [] false (hundredthCompleted maker numeral ++ closingTokens) =
      some (hundredthCompleted maker numeral) :=
    joinOperators_pending [] (by simp) hcomplete hchain
  have hdepth : bracketDepth 0 0 (hundredthCompleted maker numeral) = 2 := by
    cases h <;> simp [hundredthCompleted, argumentToken, bracketDepth]
  have hnumeral := h.takes (@stops_operator 4 .div (by decide)
    (.name "Integer" :: .operator "(" :: .numeral "100" :: .operator ")" :: .operator ")" :: []))
  have hhundred := denotes_hundred.takes (stops_closing 0 [])
  have hquotient := takes_scaled .div (.inr rfl) hnumeral rfl hhundred rfl (stops_closing 0 [])
  have hword : maker.exactWord ≠ "not" := by cases h <;> decide
  have hinside := (hquotient.conditional_of_sum (stops_closing 0 []) (by simp [hword])).list (stops_closing 0 [])
  have hgroup := takes_primary (takes_bracket hinside (by simp) (by simp)) (stops_nil 0).endsPrimary
  have hproduct := ((hgroup.power (stops_nil 3).ne_power).signed rfl).tightest.binary (by decide)
    fun n => readBinaryRest_of_stops (stops_nil 1) (.inr rfl) n _
  have hsum := hproduct.binary (by decide) fun n => readBinaryRest_of_stops (stops_nil 0) (.inr rfl) n _
  have hlist := (hsum.conditional_of_sum (stops_nil 0) (by simp)).list (stops_nil 0)
  refine read?_of_readList hjoined (by rw [hdepth]; decide) (hlist _ ?_) (by simp [hundredthCompleted]) ?_ ?_
  · simp [readingFuel, hundredthCompleted]
  · simp [hundredthCompleted]
  · simp [hundredthCompleted]

end Quotients

/-! ### The value of the group -/

/-- The number two, as the size of the power in a hundredth comes out. -/
def rawTwo : Binary := ⟨4503599627370496, -51⟩

theorem compare_rawTwo {n : Int} (h : 2 ≤ n) : rawTwo.compare (.ofInt n) ≠ .gt := by
  have hsign : rawTwo.sign = (Binary.ofInt n).sign := by
    rw [Binary.sign, Binary.sign, Binary.ofInt, Int.sign_eq_one_of_pos (show 0 < n by omega)]
    rfl
  have horder : rawTwo.order = 2 := by decide +kernel
  have hlength : (2 : Int) ≤ (Binary.ofInt n).order := by
    have hlarge := lt_two_pow_bitLength n.natAbs
    have hlength : ¬ bitLength n.natAbs ≤ 1 := by
      intro hle
      have hpower : 2 ^ bitLength n.natAbs ≤ 2 ^ 1 := Nat.pow_le_pow_right (by decide) hle
      omega
    simp only [Binary.order, Binary.ofInt]
    omega
  have hpositive : ¬ rawTwo.sign < 0 := by decide
  rw [Binary.compare, if_neg (by simp [hsign]), if_neg (by decide)]
  by_cases heq : rawTwo.order = (Binary.ofInt n).order
  · rw [if_neg (by simp [heq])]
    have hmin : min rawTwo.exponent (Binary.ofInt n).exponent = -51 := by simp [rawTwo, Binary.ofInt]
    simp only [hmin]
    intro hgt
    rw [Int.compare_eq_gt] at hgt
    simp [Binary.mantissaAt, rawTwo, Binary.ofInt] at hgt
    omega
  · rw [if_pos heq, if_neg hpositive, horder]
    intro hgt
    rw [Int.compare_eq_gt] at hgt
    omega

/-- The power in a hundredth is small if two digits are. -/
theorem extentOf_hundred {settings : Settings} (hexponent : 2 ≤ settings.maxDecimalExponent)
    (hdigits : 2 ≤ settings.maxExactDigits) : extentOf settings false (.rational 100) .minusOne = .small := by
  have hsize : powerSize? (.rational 100) .minusOne = some (rawTwo, rawTwo) := by decide +kernel
  simp [extentOf, hsize, compare_rawTwo hexponent, compare_rawTwo hdigits]

section Evaluation

variable {settings : Settings} {scope : Scope} {numeral : List Char} {maker : Maker} {q : Rat}

theorem evaluate_hundredth (h : Denotes numeral maker q) (hscope : scope.LeavesReserved) (bits : Nat) :
    (hundredthFormula maker numeral).evaluate bits scope = .ok (.number (.rational (q / 100))) := by
  have hhundred : (100 : Rat) ≠ 0 := by decide
  simp only [hundredthFormula, Formula.evaluate, h.makesExactly.evaluate_formula hscope, denotes_hundred.makesExactly.evaluate_formula hscope,
    operate, operateNumbers, div_rational hhundred]

theorem sketch_hundredth (h : Denotes numeral maker q) (hscope : scope.LeavesReserved) :
    (hundredthFormula maker numeral).sketch settings scope =
      .ok (.product [.value (.number (.rational q)), .power (.value (.number (.rational 100)))
        (.value (.number .minusOne))]) := by
  simp [hundredthFormula, Formula.sketch, Formula.draft, h.makesExactly.draft_formula hscope, denotes_hundred.makesExactly.draft_formula hscope,
    Draft.join, Draft.sketchOf, Draft.factors, Draft.close, Sketch.isOperand, Sketch.reciprocal, Sketch.joinOperands,
    bind, Except.bind, pure, Except.pure, Except.map]

/-- A hundredth asks for no rounding. -/
theorem needsRounding_hundredth (q : Rat) (hexponent : 2 ≤ settings.maxDecimalExponent)
    (hdigits : 2 ≤ settings.maxExactDigits) :
    Sketch.needsRounding settings (.product [.value (.number (.rational q)), .power (.value (.number (.rational 100)))
      (.value (.number .minusOne))]) = .ok false := by
  have hpowers : Sketch.powers settings (.product [.value (.number (.rational q)),
      .power (.value (.number (.rational 100))) (.value (.number .minusOne))]) = [(.rational 100, .minusOne)] := by
    simp [Sketch.powers, Sketch.powersOf, Term.powers, Term.minusOne, Sketch.number?, Sketch.settle]
  rw [Sketch.needsRounding, hpowers]
  simp [Sketch.isMathematical, anyLarge, extentOf_hundred hexponent hdigits]

theorem mem_hundredth (h : Denotes numeral maker q) {c : Char} (hc : c ∈ hundredth numeral) :
    isAsciiDigit c ∨ c ∈ ['.', '(', '/', ')'] := by
  simp only [hundredth, List.cons_append, List.mem_cons, List.mem_append, List.not_mem_nil, or_false] at hc ⊢
  rcases hc with rfl | hc | rfl | rfl | rfl | rfl | rfl
  · decide
  · exact (h.mem hc).imp_right .inl
  all_goals decide

theorem readsExactly_hundredth (h : Denotes numeral maker q) (hexponent : 0 ≤ settings.maxDecimalExponent)
    (hdigits : 0 ≤ settings.maxExactDigits) : readsExactly settings (hundredth numeral) = .ok true := by
  have hletters : ∀ c ∈ hundredth numeral, c ≠ 'e' ∧ c ≠ 'E' := by
    intro c hc
    constructor <;>
    · rintro rfl
      exact absurd (mem_hundredth h hc) (by decide)
  have hlimit : ¬ settings.maxDecimalExponent < 0 := by omega
  simp [readsExactly, literalExponents_eq_nil hletters, hlimit, hdigits]

theorem trim_hundredth (numeral : List Char) : trim (hundredth numeral) = hundredth numeral := by
  have hstart : StopsAt isBlank (hundredth numeral) := by
    rw [hundredth, List.cons_append, stopsAt_cons]
    decide
  have hend : ∀ c ∈ (hundredth numeral).getLast?, isBlank c = false := by
    intro c hc
    have hlast : (hundredth numeral).getLast? = some ')' := by
      rw [hundredth, List.getLast?_append_of_ne_nil _ (by simp)]
      rfl
    obtain rfl : ')' = c := Option.some.inj (hlast.symm.trans hc)
    decide
  have htrim := trimRight_append (t := []) hend
  rw [List.append_nil] at htrim
  rw [trim, dropWhile_of_stopsAt hstart]
  simpa [trimRight] using htrim

theorem operationWord?_hundredth (h : Denotes numeral maker q) : operationWord? (hundredth numeral) = none := by
  have hnone : ∀ c ∈ hundredth numeral, beginsIdentifier c = false := by
    intro c hc
    rcases mem_hundredth h hc with hdigit | hc
    · have hdigit' : isDigit c = true := by
        rw [isDigit_of_isAscii (isAscii_of_isAsciiWord (isAsciiWord_of_isAsciiDigit hdigit))]
        exact hdigit
      simp [beginsIdentifier, hdigit']
    · simp only [List.mem_cons, List.not_mem_nil, or_false] at hc
      rcases hc with rfl | rfl | rfl | rfl <;> decide
  have hidentifiers : identifiers (hundredth numeral) = [] := by
    have happend := identifiers_append_of_not_begins hnone []
    rw [List.append_nil] at happend
    rw [happend, identifiers, pieces, List.filterMap_nil]
  simp [operationWord?, hidentifiers]

theorem isPlainText_hundredth (h : Denotes numeral maker q) : IsPlainText (hundredth numeral) where
  nonempty := by simp [hundredth]
  trimmed := trim_hundredth numeral
  assignsNothing := splitAssignment?_eq_none fun hmem => absurd (mem_hundredth h hmem) (by decide)
  namesNothing := operationWord?_hundredth h

/-- A numeral without exponent, divided by a hundred in brackets, evaluates to a hundredth of its value. -/
theorem evaluateExpression_hundredth (h : Denotes numeral maker q) (hscope : scope.LeavesReserved)
    (hexponent : 2 ≤ settings.maxDecimalExponent) (hdigits : 2 ≤ settings.maxExactDigits) :
    evaluateExpression settings scope (hundredth numeral) = ⟨.ok (.numeric (.rational (q / 100))), scope, none⟩ := by
  have hprogram : readProgram scope true (hundredth numeral) = .ok (.expression (hundredthFormula maker numeral)) := by
    have hcomplete := complete_hundredth h (v := Vocabulary.ofScope scope)
      (isFunctionName_of_reserved hscope rfl rfl) (isFunctionName_of_reserved hscope rfl rfl)
    simp only [readProgram, scan_hundredth h, Option.bind_some, resolve_hundredth h, hcomplete, read?_hundredth h]
  have hnesting : (hundredthFormula maker numeral).nesting ≤ Formula.nestingLimit := by
    have hsix : (hundredthFormula maker numeral).nesting = 6 := by cases h <;> rfl
    rw [hsix]
    decide
  apply evaluateExpression_of_program (isPlainText_hundredth h) (readsExactly_hundredth h (by omega) (by omega)) hprogram
  exact evaluateFormula_exact hnesting (sketch_hundredth h hscope) (needsRounding_hundredth q hexponent hdigits)
    (evaluate_hundredth h hscope _)

end Evaluation

/-! ### Fixed notation -/

/-- The value of a numeral in fixed notation: its digits as one whole number, moved behind the point. -/
def fixedValue (numeral : List Char) : Rat :=
  Nat.ofDigitChars 10 (numeral.filter (· ≠ '.')) 0 / 10 ^ ((numeral.dropWhile (· ≠ '.')).length - 1)

theorem fixedValue_whole {digits : List Char} (h : ∀ c ∈ digits, isAsciiDigit c) :
    fixedValue digits = Nat.ofDigitChars 10 digits 0 := by
  have hpoint : ∀ c ∈ digits, decide (c ≠ '.') = true := by
    intro c hc
    have hne : c ≠ '.' := by
      rintro rfl
      exact absurd (h _ hc) (by decide)
    simpa using hne
  rw [fixedValue, List.filter_eq_self.mpr hpoint, List.dropWhile_eq_nil_iff.mpr hpoint]
  simp

theorem fixedValue_pointed {front fraction : List Char} (hfront : ∀ c ∈ front, isAsciiDigit c)
    (hfraction : ∀ c ∈ fraction, isAsciiDigit c) :
    fixedValue (front ++ '.' :: fraction) =
      Nat.ofDigitChars 10 (front ++ fraction) 0 / 10 ^ fraction.length := by
  have hpoint {digits : List Char} (h : ∀ c ∈ digits, isAsciiDigit c) : ∀ c ∈ digits, decide (c ≠ '.') = true := by
    intro c hc
    have hne : c ≠ '.' := by
      rintro rfl
      exact absurd (h _ hc) (by decide)
    simpa using hne
  have hfilter : (front ++ '.' :: fraction).filter (· ≠ '.') = front ++ fraction := by
    rw [List.filter_append, List.filter_cons_of_neg (by simp), List.filter_eq_self.mpr (hpoint hfront),
      List.filter_eq_self.mpr (hpoint hfraction)]
  have hdrop : (front ++ '.' :: fraction).dropWhile (· ≠ '.') = '.' :: fraction := by
    rw [List.dropWhile_append_of_pos (hpoint hfront), List.dropWhile_cons_of_neg (by simp)]
  rw [fixedValue, hfilter, hdrop, List.length_cons, Nat.add_sub_cancel]

/-- A numeral in fixed notation that is read as one numeral, and not too long on a side of its point, has its value. -/
theorem denotes_of_isFixed {numeral s : List Char} (h : IsFixed numeral) (hs : StopsAt continuesNumeral s)
    (hlength : numeralLength (numeral ++ s) = numeral.length)
    (hsides : ∀ side ∈ numeral.splitOn '.', side.length ≤ maxDigits) :
    ∃ maker, Denotes numeral maker (fixedValue numeral) := by
  cases h with
  | whole hfront =>
    have hone : numeral.splitOn '.' = [numeral] := List.splitOn_eq_singleton (not_mem_digits hfront.2 (by decide))
    refine ⟨.whole, ?_⟩
    rw [fixedValue_whole hfront.2]
    exact .whole (isWhole_of_numeralLength hfront.1 hfront.2 hs hlength) (hsides numeral (by simp [hone]))
  | @pointed front fraction hfront hfraction =>
    have htwo : (front ++ '.' :: fraction).splitOn '.' = [front, fraction] := by
      rw [List.splitOn_append_cons_self_of_not_mem (not_mem_digits hfront.2 (by decide)),
        List.splitOn_eq_singleton (not_mem_digits hfraction.2 (by decide))]
    refine ⟨.decimal, ?_⟩
    rw [fixedValue_pointed hfront.2 hfraction.2]
    exact .pointed hfront.2 hfraction.2 (.inl hfront.1) (hsides front (by simp [htwo]))
      (hsides fraction (by simp [htwo]))

end Reckoner.Expression
