import Reckoner.Proofs.Expression.Layout
import Reckoner.Proofs.Expression.Sketches

/-!
# Exact arithmetic

An expression of school arithmetic that is laid out in any way, with any brackets that its operators allow, evaluates
to its exact value.  Only the size of its powers, the depth of its brackets and the nesting of its formula are limited.
-/

namespace Reckoner.Expression

open Reckoner.Algebra Reckoner.Text

/-! ### Nesting -/

theorem nesting_formula (e : Arithmetic) : e.formula.nesting = e.nesting := by
  induction e with
  | literal l => cases l <;> rfl
  | name word => rfl
  | negation operand ih => rw [Arithmetic.formula, Formula.nesting, ih, Arithmetic.nesting]
  | operation op left right ihl ihr => rw [Arithmetic.formula, Formula.nesting, ihl, ihr, Arithmetic.nesting]

/-! ### Texts of writings -/

section Texts

variable {settings : Settings} {scope : Scope} {w : Writing} {text : List Char}

/-- What the reader makes of the text of a writing is decided by its complete tokens. -/
theorem readProgram_writing (hreadable : w.tree.IsReadable) (hlaidOut : LaidOut w.tokens text)
    (hscope : scope.Supplies w.tree) : readProgram scope true (trim text) =
      match Program.read? (w.completed ++ closingTokens) with
      | none => .error .malformed
      | some program => .ok program := by
  have hnames : ∀ word ∈ w.tree.names, (Vocabulary.ofScope scope).hasValue word := by
    intro word hword
    simp [Vocabulary.ofScope, (hscope.names word hword).1]
  rw [readProgram, scan_trim hreadable hlaidOut, Option.bind_some, resolve_tokens hreadable hnames]
  cases hread : Program.read? (w.completed ++ closingTokens) <;> simp only [complete_resolved hscope, hread]

/-- The text of a writing is no assignment, so its value is the value of the whole text. -/
theorem evaluateExpression_writing (hreadable : w.tree.IsReadable) (hlaidOut : LaidOut w.tokens text) :
    evaluateExpression settings scope text =
      match evaluateText settings scope text with
      | .error f => ⟨.error f, scope, none⟩
      | .ok (v, isRounded) =>
        match Answer.ofValue v with
        | .error f => ⟨.error f, scope, if isRounded then some (String.ofList text) else none⟩
        | .ok answer => ⟨.ok answer, scope, if isRounded then some (String.ofList text) else none⟩ := by
  rw [evaluateExpression, splitAssignment?_laidOut hreadable hlaidOut]
  simp only [Option.any_none, Bool.false_eq_true, if_false]
  cases evaluateText settings scope text with
  | error f => rfl
  | ok result =>
    obtain ⟨v, isRounded⟩ := result
    dsimp only
    cases Answer.ofValue v <;> rfl

/-- The value of the text of a writing is the value of its formula, if the limits let the formula be read. -/
theorem evaluateText_writing (hgrouped : w.IsGrouped) (hreadable : w.tree.IsReadable)
    (hlaidOut : LaidOut w.tokens text) (hscope : scope.Supplies w.tree) (hdigits : 0 ≤ settings.maxExactDigits) :
    evaluateText settings scope text =
      if settings.maxDecimalExponent < 0 then .error .literalTooLarge
      else if bracketLimit < w.brackets then .error .malformed
      else evaluateFormula settings scope w.tree.formula := by
  have hempty : (trim text).isEmpty = false := by simp [(laidOut_trim hreadable hlaidOut).2]
  have hprogram := readProgram_writing hreadable hlaidOut hscope
  rw [evaluateText, readsExactly_laidOut hreadable hlaidOut]
  by_cases hexponent : settings.maxDecimalExponent < 0
  · simp only [hexponent, if_true]
    rfl
  simp only [hexponent, hdigits, decide_true, bind, Except.bind, hempty, Bool.false_eq_true, if_false,
    operationWord?_trim hreadable hlaidOut, pure, Except.pure]
  by_cases hbrackets : bracketLimit < w.brackets
  · rw [Writing.read?_of_brackets hbrackets] at hprogram
    simp only [hprogram, hbrackets, if_true]
  · rw [Writing.read?_completed hgrouped hreadable (by omega)] at hprogram
    simp only [hprogram, hbrackets, if_false]

/-- The formula of an expression has its exact value if it is not nested too deeply and none of its powers asks for
    rounding. -/
theorem evaluateFormula_formula (hscope : scope.LeavesReserved) {e : Arithmetic} (he : ∀ l ∈ e.literals, l.IsReadable)
    {q : Rat} (hvalue : e.value? scope = some q)
    (hpowers : ∀ s, e.formula.sketch settings scope = .ok s → s.needsRounding settings = .ok false) :
    evaluateFormula settings scope e.formula =
      if Formula.nestingLimit < e.nesting then .error .evaluation else .ok (.number (.rational q), false) := by
  rw [evaluateFormula, nesting_formula]
  by_cases hnesting : Formula.nestingLimit < e.nesting
  · simp only [hnesting, if_true]
    rfl
  have hnames : ∀ word ∈ e.names, ∃ p, scope.rational? word = some p := by
    intro word hword
    exact rational?_of_value? hvalue hword
  obtain ⟨s, hsketch, _⟩ := sketch_formula settings hscope he hnames
  simp only [hnesting, if_false, bind, Except.bind, hsketch, hpowers s hsketch, Bool.false_eq_true,
    evaluate_formula hscope he hvalue]
  rfl

end Texts

/-! ### Texts of one formula -/

/-- A text that reaches the reader as it is: it has no blanks at its ends, assigns nothing and names no operation. -/
structure IsPlainText (text : List Char) : Prop where
  nonempty : text ≠ []
  trimmed : trim text = text
  assignsNothing : splitAssignment? text = none
  namesNothing : operationWord? text = none

/-- A formula that asks for no rounding evaluates to its exact value. -/
theorem evaluateFormula_exact {settings : Settings} {scope : Scope} {f : Formula} {s : Sketch} {v : Value}
    (hnesting : f.nesting ≤ Formula.nestingLimit) (hsketch : f.sketch settings scope = .ok s)
    (hpowers : s.needsRounding settings = .ok false) (hvalue : f.evaluate settings.workingBits scope = .ok v) :
    evaluateFormula settings scope f = .ok (v, false) := by
  simp only [evaluateFormula, not_lt.mpr hnesting, if_false, bind, Except.bind, hsketch, hpowers, Bool.false_eq_true, hvalue]
  rfl

/-- A plain text that is read as a formula evaluates to the exact value of the formula. -/
theorem evaluateExpression_of_program {settings : Settings} {scope : Scope} {text : List Char} {f : Formula} {q : Rat}
    (hplain : IsPlainText text) (hexact : readsExactly settings text = .ok true)
    (hprogram : readProgram scope true text = .ok (.expression f))
    (hformula : evaluateFormula settings scope f = .ok (.number (.rational q), false)) :
    evaluateExpression settings scope text = ⟨.ok (.numeric (.rational q)), scope, none⟩ := by
  have hempty : text.isEmpty = false := by simpa using hplain.nonempty
  have htext : evaluateText settings scope text = .ok (.number (.rational q), false) := by
    rw [evaluateText, hexact]
    simp only [bind, Except.bind, hplain.trimmed, hempty, Bool.false_eq_true, if_false, hplain.namesNothing, hprogram,
      hformula]
  simp only [evaluateExpression, hplain.assignsNothing, htext, Option.any_none, Bool.false_eq_true, if_false]
  rfl

/-! ### The exact value -/

/-- A text lays out a grouped writing of an expression with an exact value, and no power of the expression asks for
    rounding. -/
structure HasExactValue (settings : Settings) (scope : Scope) (w : Writing) (text : List Char) (q : Rat) : Prop where
  grouped : w.IsGrouped
  readable : w.tree.IsReadable
  laidOut : LaidOut w.tokens text
  leavesReserved : scope.LeavesReserved
  value : w.tree.value? scope = some q
  powers : ∀ s, w.tree.formula.sketch settings scope = .ok s → s.needsRounding settings = .ok false

section Exact

variable {settings : Settings} {scope : Scope} {w : Writing} {text : List Char} {q : Rat}

/-- What becomes of such a text: one of three limits refuses it, or else its value is exact. -/
theorem evaluateExpression_of_hasExactValue (h : HasExactValue settings scope w text q)
    (hdigits : 0 ≤ settings.maxExactDigits) :
    evaluateExpression settings scope text =
      ⟨if settings.maxDecimalExponent < 0 then .error .literalTooLarge
        else if bracketLimit < w.brackets then .error .malformed
        else if Formula.nestingLimit < w.tree.nesting then .error .evaluation
        else .ok (.numeric (.rational q)), scope, none⟩ := by
  have hsupplies : scope.Supplies w.tree := Scope.supplies_of_value? h.leavesReserved h.value
  rw [evaluateExpression_writing h.readable h.laidOut,
    evaluateText_writing h.grouped h.readable h.laidOut hsupplies hdigits,
    evaluateFormula_formula h.leavesReserved h.readable.literals h.value h.powers]
  by_cases hexponent : settings.maxDecimalExponent < 0
  · simp only [hexponent, if_true]
  by_cases hbrackets : bracketLimit < w.brackets
  · simp only [hexponent, hbrackets, if_true, if_false]
  by_cases hnesting : Formula.nestingLimit < w.tree.nesting
  · simp only [hexponent, hbrackets, hnesting, if_true, if_false]
  · simp only [hexponent, hbrackets, hnesting, if_false]
    rfl

/-- The text of an expression, in any layout and with any brackets that its operators allow, evaluates to the exact
    value of the expression and leaves the scope as it is. -/
theorem arithmetic_is_exact (h : HasExactValue settings scope w text q) (hexponent : 0 ≤ settings.maxDecimalExponent)
    (hdigits : 0 ≤ settings.maxExactDigits) (hbrackets : w.brackets ≤ bracketLimit)
    (hnesting : w.tree.nesting ≤ Formula.nestingLimit) :
    evaluateExpression settings scope text = ⟨.ok (.numeric (.rational q)), scope, none⟩ := by
  rw [evaluateExpression_of_hasExactValue h hdigits, if_neg (by omega), if_neg (by omega), if_neg (by omega)]

end Exact

def rateWriting : Writing :=
  .operation .add (.negation (.operation .power (.literal (.whole 2)) (.literal (.whole 2))))
    (.operation .mul (.bracket (.operation .div (.name "rate") (.literal (.whole 4)))) (.literal (.decimal none [5])))

/-- With a rate of three, its value is `-29 / 8`. -/
theorem rate_has_exact_value :
    HasExactValue .standard [("rate", .number (.rational 3))] rateWriting " -2^2 + (rate/4) * .5".toList (-29 / 8) ∧
      evaluateExpression .standard [("rate", .number (.rational 3))] " -2^2 + (rate/4) * .5".toList =
        ⟨.ok (.numeric (.rational (-29 / 8))), [("rate", .number (.rational 3))], none⟩ := by
  have hvalue : HasExactValue .standard [("rate", .number (.rational 3))] rateWriting " -2^2 + (rate/4) * .5".toList
      (-29 / 8) := by
    refine ⟨by decide, ⟨by decide, ?_⟩, ?_, ?_, by decide +kernel, ?_⟩
    · intro word hword
      obtain rfl : word = "rate" := by simpa [rateWriting, Writing.tree, Arithmetic.names] using hword
      exact ⟨⟨'r', ['a', 't', 'e'], rfl, by decide, by decide⟩, by decide, by decide⟩
    · exact laidOut_of_gaps [([' '], .operator "-"), ([], .numeral "2"), ([], .operator "^"), ([], .numeral "2"),
        ([' '], .operator "+"), ([' '], .operator "("), ([], .name "rate"), ([], .operator "/"), ([], .numeral "4"),
        ([], .operator ")"), ([' '], .operator "*"), ([' '], .numeral ".5")] [] (by decide) (by decide)
    · intro word hword
      by_cases hrate : word = "rate"
      · rw [hrate]
        rfl
      · simp [Scope.binds, Scope.find?, List.lookup_cons, beq_false_of_ne hrate] at hword
    · intro s hs
      have hcheck : (rateWriting.tree.formula.sketch .standard [("rate", .number (.rational 3))]).bind
          (·.needsRounding .standard) = .ok false := by
        decide +kernel
      rw [hs] at hcheck
      exact hcheck
  exact ⟨hvalue, arithmetic_is_exact hvalue (by decide) (by decide) (by decide) (by decide)⟩

end Reckoner.Expression
