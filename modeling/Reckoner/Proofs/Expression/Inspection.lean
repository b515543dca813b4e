import Reckoner.Proofs.Expression.Assignment
import Reckoner.Proofs.Expression.Exactness

/-!
# Words alone

A text that is nothing but the name of a variable reads the variable, in every scope that binds it.  Two things stand in
the way: the words for operations cannot be typed, and where decimals are read exactly, their maker is looked up under
another word.  The value that is found is sized like every other value, so a large power in it is rounded after all.
-/

namespace Reckoner.Expression

open Reckoner.Algebra Reckoner.Text

/-- The word under which a name that stands alone is looked up. -/
def lookupWord (settings : Settings) (word : String) : String :=
  if 0 ≤ settings.maxExactDigits ∧ word = "Float" then "Rational" else word

/-- The number that is read from a variable: it is rounded if a power in it is large. -/
def recalled (settings : Settings) (t : Term) : Except Failure Term :=
  (anyLarge settings false (Term.powers t)).map fun large =>
    if large && t.unknowns.isEmpty then Term.toFloat settings.workingBits t else t

theorem lookupWord_eq {settings : Settings} {word : String} (h : settings.maxExactDigits < 0 ∨ word ≠ "Float") :
    lookupWord settings word = word := by
  apply if_neg
  rintro ⟨hexact, hfloat⟩
  rcases h with h | h
  · omega
  · exact h hfloat

theorem recalled_eq {settings : Settings} {t : Term}
    (h : ∀ power ∈ Term.powers t, extentOf settings false power.1 power.2 = .small) : recalled settings t = .ok t := by
  have hsmall : anyLarge settings false (Term.powers t) = .ok false := by
    generalize Term.powers t = powers at h
    induction powers with
    | nil => rfl
    | cons power rest ih =>
      obtain ⟨base, exponent⟩ := power
      rw [anyLarge, h _ List.mem_cons_self]
      exact ih fun other hother => h other (List.mem_cons_of_mem _ hother)
  simp [recalled, hsmall, Except.map]

/-! ### Reading a word -/

section Words

variable {settings : Settings} {scope : Scope} {word : String}

theorem laidOut_name (word : String) : LaidOut (Writing.name word).tokens word.toList := by
  have hlaidOut : LaidOut [Token.name word] ([] ++ (Token.name word).typed ++ []) :=
    .token (by simp) (.name word) (.blanks (by simp))
  simpa [Token.typed, Writing.tokens, Writing.spell] using hlaidOut

theorem isReadable_name (hname : IsVariableName word) (hkeyword : isKeyword word = false)
    (hoperation : word ∉ operationWords) : (Writing.name word).tree.IsReadable where
  literals l hl := by cases hl
  names other hother := by
    obtain rfl : other = word := by simpa [Writing.tree, Arithmetic.names] using hother
    exact ⟨hname, hkeyword, hoperation⟩

/-- Nothing is left out in a word, whatever it means. -/
theorem complete_name (v : Vocabulary) (exact : Bool) (word : String) :
    complete v exact (.name word :: closingTokens) =
      .ok (.name (if exact = true ∧ word = "Float" then "Rational" else word) :: closingTokens) := by
  have hattached : factorialsAttached none 0 (.name word :: closingTokens) = true :=
    factorialsAttached_eq (by simp [closingTokens]) none
  have htrees : Tree.ofTokens (.name word :: closingTokens) = .ok (.leaf (.name word) :: closingTrees) := by
    simp [closingTokens, closingTrees, Tree.ofTokens, groupFrom]
  have hfactorials : factorialsFrom [] 0 (.leaf (.name word) :: closingTrees) = .leaf (.name word) :: closingTrees := by
    simp [factorialsFrom, Tree.factorials, applyFactorials, closingTrees, closingTokens]
  have hproducts : withProducts v (.leaf (.name word) :: closingTrees) = .leaf (.name word) :: closingTrees := by
    simp [withProducts, productsIn, Tree.products, expandLiteral, joinArguments, insertProducts, endsFactor,
      beginsFactor, closingTrees, closingTokens]
  have hcalls : insertCalls v {} (itemsIn v (.leaf (.name word) :: closingTrees)) = .name word :: closingTokens := by
    simp [itemsIn, Tree.items, insertCalls, Item.isOperator, Item.isArgument, Item.tokens, closingTrees, closingTokens]
  rw [complete, hattached]
  simp only [Bool.not_true, Bool.false_eq_true, if_false, htrees, bind, Except.bind, hfactorials, hproducts, hcalls,
    pure, Except.pure]
  by_cases hexact : exact
  · by_cases hfloat : word = "Float"
    · simp [hexact, hfloat, unifyPowers, exactDecimals, closingTokens]
    · simp [hexact, hfloat, unifyPowers, exactDecimals, closingTokens]
  · simp [hexact, unifyPowers, closingTokens]

/-- What is looked up is a name that can be read, like the word itself. -/
theorem isReadable_lookupWord (settings : Settings) (hname : IsVariableName word) (hkeyword : isKeyword word = false)
    (hoperation : word ∉ operationWords) : (Writing.name (lookupWord settings word)).tree.IsReadable := by
  unfold lookupWord
  split
  · exact isReadable_name ⟨'R', "ational".toList, by decide, by decide, by decide⟩ (by decide) (by decide)
  · exact isReadable_name hname hkeyword hoperation

theorem readProgram_name (hname : IsVariableName word) (hkeyword : isKeyword word = false)
    (hoperation : word ∉ operationWords) (hbinds : scope.binds word) :
    readProgram scope (decide (0 ≤ settings.maxExactDigits)) (trim word.toList) =
      .ok (.expression (.name (lookupWord settings word))) := by
  have hreadable := isReadable_name hname hkeyword hoperation
  have hnames : ∀ other ∈ (Writing.name word).tree.names, (Vocabulary.ofScope scope).hasValue other := by
    intro other hother
    obtain rfl : other = word := by simpa [Writing.tree, Arithmetic.names] using hother
    simp [Vocabulary.ofScope, hbinds]
  have hresolve := resolve_tokens hreadable hnames
  have hresolved : (Writing.name word).resolved = [.name word] := rfl
  have hread := Writing.read?_completed (w := .name (lookupWord settings word)) trivial
    (isReadable_lookupWord settings hname hkeyword hoperation) (Nat.zero_le _)
  rw [hresolved, List.singleton_append] at hresolve
  rw [readProgram, scan_trim hreadable (laidOut_name word), Option.bind_some, hresolve]
  simp only [complete_name, decide_eq_true_eq]
  simp only [lookupWord, Writing.completed, Writing.spell, List.singleton_append] at hread
  simp only [hread]
  rfl

/-- The value of a word is the value of the name that it is looked up as. -/
theorem evaluateText_name (hname : IsVariableName word) (hkeyword : isKeyword word = false)
    (hoperation : word ∉ operationWords) (hbinds : scope.binds word) (hlimit : 0 ≤ settings.maxDecimalExponent) :
    evaluateText settings scope word.toList = evaluateFormula settings scope (.name (lookupWord settings word)) := by
  have hreadable := isReadable_name hname hkeyword hoperation
  have hlaidOut := laidOut_name word
  have hempty : (trim word.toList).isEmpty = false := by simp [(laidOut_trim hreadable hlaidOut).2]
  have hexponent : ¬ settings.maxDecimalExponent < 0 := by omega
  rw [evaluateText, readsExactly_laidOut hreadable hlaidOut]
  simp only [hexponent, bind, Except.bind, hempty, Bool.false_eq_true, if_false,
    operationWord?_trim hreadable hlaidOut, readProgram_name hname hkeyword hoperation hbinds]

/-- A word for an operation is refused, whatever it is bound to. -/
theorem answer_of_operationWord (h : word ∈ operationWords) (answer : Answer) :
    (evaluateExpression settings scope word.toList).answer ≠ .ok answer := by
  have hall : ∀ word ∈ operationWords, splitAssignment? word.toList = none ∧
      (trim word.toList).isEmpty = false ∧ operationWord? (trim word.toList) = some word := by
    decide +kernel
  obtain ⟨hplain, hempty, hfound⟩ := hall word h
  rw [ne_eq, answer_eq_ok_iff hplain]
  rintro ⟨v, isRounded, hvalue, _⟩
  rw [evaluateText] at hvalue
  simp only [hempty, hfound, bind, Except.bind] at hvalue
  cases hexact : readsExactly settings word.toList with
  | error f => simp [hexact] at hvalue
  | ok exact => simp [hexact] at hvalue

theorem evaluateFormula_name {v : Value} (h : nameValue? scope word = some v) :
    evaluateFormula settings scope (.name word) =
      match (Sketch.value v).needsRounding settings with
      | .error f => .error f
      | .ok true => ((Sketch.value v).rounded settings).map (·, true)
      | .ok false => .ok (v, false) := by
  have hname : nameOutcome scope word = .ok v := by simp [nameOutcome, h]
  have hsketch : (Formula.name word).sketch settings scope = .ok (.value v) := by
    simp [Formula.sketch, Formula.draft, hname, Draft.sketchOf, Draft.close, Except.map, Except.bind]
  have hnesting : ¬ Formula.nestingLimit < (Formula.name word).nesting := by
    rw [Formula.nesting]
    decide
  rw [evaluateFormula]
  simp only [hnesting, if_false, hsketch, Formula.evaluate, hname, bind, Except.bind, pure, Except.pure]
  cases (Sketch.value v).needsRounding settings with
  | error f => rfl
  | ok large =>
    cases large with
    | true =>
      cases (Sketch.value v).rounded settings <;> rfl
    | false => rfl

theorem needsRounding_number (settings : Settings) (t : Term) :
    (Sketch.value (.number t)).needsRounding settings = anyLarge settings false (Term.powers t) := rfl

theorem rounded_number (settings : Settings) (t : Term) :
    (Sketch.value (.number t)).rounded settings =
      .ok (.number (if t.unknowns.isEmpty then Term.toFloat settings.workingBits t else t)) := rfl

/-- A value that is no number has no powers. -/
theorem needsRounding_of_not_number {v : Value} (h : ∀ t, v ≠ .number t) :
    (Sketch.value v).needsRounding settings = .ok false := by
  cases v with
  | number t => exact absurd rfl (h t)
  | _ => simp [Sketch.needsRounding, Sketch.isMathematical, Sketch.powers, anyLarge]

/-- A name evaluates to a number just if it has a number for its value, and that number can be recalled. -/
theorem evaluateFormula_name_iff {v : Value} (h : nameValue? scope word = some v) {t' : Term} :
    (∃ isRounded, evaluateFormula settings scope (.name word) = .ok (.number t', isRounded)) ↔
      ∃ t, v = .number t ∧ recalled settings t = .ok t' := by
  rw [evaluateFormula_name h]
  by_cases hnumber : ∃ t, v = .number t
  · obtain ⟨t, rfl⟩ := hnumber
    simp only [needsRounding_number, rounded_number, recalled, Value.number.injEq, exists_eq_left']
    cases anyLarge settings false (Term.powers t) with
    | error f => simp [Except.map]
    | ok large => cases large <;> simp [Except.map]
  · have hother : ∀ t, v ≠ .number t := fun t ht => hnumber ⟨t, ht⟩
    rw [needsRounding_of_not_number hother]
    simp [hother]

/-- A bound word is looked up as a word with a value; if that value is a number, it is the value of a variable. -/
theorem exists_value_of_binds (settings : Settings) (hbinds : scope.binds word) :
    ∃ v, nameValue? scope (lookupWord settings word) = some v ∧
      ∀ t, v = .number t ↔ scope.find? (lookupWord settings word) = some (.number t) := by
  cases hfind : scope.find? (lookupWord settings word) with
  | some v => exact ⟨v, by simp [nameValue?, hfind], by simp⟩
  | none =>
    have hrational : lookupWord settings word = "Rational" := by
      unfold lookupWord at hfind ⊢
      split
      · rfl
      · rename_i hplain
        rw [if_neg hplain] at hfind
        simp [Scope.binds, hfind] at hbinds
    rw [hrational] at hfind ⊢
    exact ⟨.function .rational, by simp [nameValue?, hfind, namespaceValue?, reservedValue?], by simp⟩

/-- The number that a bound word is answered with is recalled from the variable that the word is looked up as. -/
theorem answer_name_iff (hname : IsVariableName word) (hkeyword : isKeyword word = false)
    (hoperation : word ∉ operationWords) (hbinds : scope.binds word) (hlimit : 0 ≤ settings.maxDecimalExponent)
    (t' : Term) :
    (evaluateExpression settings scope word.toList).answer = .ok (.numeric t') ↔
      ∃ t, scope.find? (lookupWord settings word) = some (.number t) ∧ recalled settings t = .ok t' ∧
        Answer.ofValue (.number t') = .ok (.numeric t') := by
  have hplain : splitAssignment? word.toList = none :=
    splitAssignment?_laidOut (isReadable_name hname hkeyword hoperation) (laidOut_name word)
  obtain ⟨v, hv, hfind⟩ := exists_value_of_binds settings hbinds
  rw [answer_eq_ok_iff hplain, evaluateText_name hname hkeyword hoperation hbinds hlimit]
  constructor
  · rintro ⟨w, isRounded, hvalue, hanswer⟩
    obtain rfl := eq_number_of_answer hanswer
    obtain ⟨t, ht, hrecalled⟩ := (evaluateFormula_name_iff hv).mp ⟨isRounded, hvalue⟩
    exact ⟨t, (hfind t).mp ht, hrecalled, hanswer⟩
  · rintro ⟨t, ht, hrecalled, hanswer⟩
    obtain ⟨isRounded, hvalue⟩ := (evaluateFormula_name_iff hv).mpr ⟨t, (hfind t).mpr ht, hrecalled⟩
    exact ⟨_, isRounded, hvalue, hanswer⟩

end Words

end Reckoner.Expression
