import Reckoner.Proofs.Expression.Exactness

/-!
# Where exact values are refused

The limits of exact arithmetic are reached by simple expressions: long sums are nested too deeply, and a literal stands
in one more bracket than is typed.  A negative limit of exponents refuses every literal, and a negative limit of digits
makes a float of every decimal.  Where the name of the maker of literals is bound, literals are no longer exact either.
-/

namespace Reckoner.Expression

open Reckoner.Algebra Reckoner.Text

/-- A writing without variables, quotients and powers has its value in the empty scope. -/
theorem hasExactValue_of_isPowerFree (settings : Settings) {w : Writing} {q : Rat} (hgrouped : w.IsGrouped)
    (hliterals : ∀ l ∈ w.tree.literals, l.IsReadable) (hnames : w.tree.names = []) (hfree : w.tree.IsPowerFree)
    (hvalue : w.tree.value? [] = some q) : HasExactValue settings [] w (w.tokens.flatMap Token.typed) q := by
  refine ⟨hgrouped, ⟨hliterals, by simp [hnames]⟩, laidOut_flatMap w.tokens, leavesReserved_nil, hvalue, ?_⟩
  intro s hs
  obtain ⟨t, ht, htRounding⟩ := sketch_formula settings leavesReserved_nil hliterals (by simp [hnames])
  obtain rfl : t = s := by simpa [ht] using hs
  exact htRounding hfree

/-! ### Long sums -/

def sumOfOnes : Nat → Writing
  | 0 => .literal (.whole 1)
  | n + 1 => .operation .add (sumOfOnes n) (.literal (.whole 1))

theorem nesting_sumOfOnes (n : Nat) : (sumOfOnes n).tree.nesting = 2 * n + 4 := by
  induction n with
  | zero => rfl
  | succ n ih =>
    simp only [sumOfOnes, Writing.tree, Arithmetic.nesting, ih]
    omega

theorem brackets_sumOfOnes (n : Nat) : (sumOfOnes n).brackets = 1 := by
  induction n with
  | zero => rfl
  | succ n ih => simp [sumOfOnes, Writing.brackets, ih]

theorem isGrouped_sumOfOnes (n : Nat) : (sumOfOnes n).IsGrouped := by
  induction n with
  | zero => trivial
  | succ n ih => exact ⟨Nat.zero_le _, by decide, ih, trivial⟩

theorem literals_sumOfOnes (n : Nat) : ∀ l ∈ (sumOfOnes n).tree.literals, l = .whole 1 := by
  induction n with
  | zero => simp [sumOfOnes, Writing.tree, Arithmetic.literals]
  | succ n ih =>
    intro l hl
    rcases List.mem_append.mp hl with hl | hl
    · exact ih l hl
    · simpa [Writing.tree, Arithmetic.literals] using hl

theorem names_sumOfOnes (n : Nat) : (sumOfOnes n).tree.names = [] := by
  induction n with
  | zero => rfl
  | succ n ih => simpa [sumOfOnes, Writing.tree, Arithmetic.names] using ih

theorem isPowerFree_sumOfOnes (n : Nat) : (sumOfOnes n).tree.IsPowerFree := by
  induction n with
  | zero => trivial
  | succ n ih => exact ⟨by decide, ih, trivial⟩

theorem value?_sumOfOnes (n : Nat) : (sumOfOnes n).tree.value? [] = some ((n : Rat) + 1) := by
  induction n with
  | zero => simp [sumOfOnes, Writing.tree, Arithmetic.value?, Literal.value]
  | succ n ih => simp [sumOfOnes, Writing.tree, Arithmetic.value?, Literal.value, ih, ArithmeticOperator.result?]

/-- A sum of 480 ones or more has an exact value and is refused. -/
theorem sumOfOnes_is_refused {n : Nat} (hn : 478 < n) {q : Rat} (hq : q = n + 1) :
    HasExactValue .standard [] (sumOfOnes n) ((sumOfOnes n).tokens.flatMap Token.typed) q ∧
      (sumOfOnes n).brackets ≤ bracketLimit ∧
      evaluateExpression .standard [] ((sumOfOnes n).tokens.flatMap Token.typed) = ⟨.error .evaluation, [], none⟩ := by
  have hliterals : ∀ l ∈ (sumOfOnes n).tree.literals, l.IsReadable := by
    intro l hl
    rw [literals_sumOfOnes n l hl]
    decide
  have hvalue : HasExactValue .standard [] (sumOfOnes n) ((sumOfOnes n).tokens.flatMap Token.typed) q := by
    refine hasExactValue_of_isPowerFree .standard (isGrouped_sumOfOnes n) hliterals (names_sumOfOnes n)
      (isPowerFree_sumOfOnes n) ?_
    rw [hq]
    exact value?_sumOfOnes n
  have hnesting : Formula.nestingLimit < (sumOfOnes n).tree.nesting := by
    rw [nesting_sumOfOnes, Formula.nestingLimit]
    omega
  have hbrackets : ¬ bracketLimit < (sumOfOnes n).brackets := by
    rw [brackets_sumOfOnes]
    decide
  refine ⟨hvalue, by omega, ?_⟩
  rw [evaluateExpression_of_hasExactValue hvalue (by decide), if_neg (by decide), if_neg hbrackets, if_pos hnesting]

/-! ### Literals in brackets -/

def inBrackets (l : Literal) : Nat → Writing
  | 0 => .literal l
  | n + 1 => .bracket (inBrackets l n)

theorem tree_inBrackets (l : Literal) (n : Nat) : (inBrackets l n).tree = .literal l := by
  induction n with
  | zero => rfl
  | succ n ih => exact ih

theorem isGrouped_inBrackets (l : Literal) (n : Nat) : (inBrackets l n).IsGrouped := by
  induction n with
  | zero => trivial
  | succ n ih => exact ih

theorem brackets_inBrackets (l : Literal) (n : Nat) : (inBrackets l n).brackets = n + 1 := by
  induction n with
  | zero => rfl
  | succ n ih => simp [inBrackets, Writing.brackets, ih]

theorem hasExactValue_inBrackets (settings : Settings) {l : Literal} (hl : l.IsReadable) (n : Nat) :
    HasExactValue settings [] (inBrackets l n) ((inBrackets l n).tokens.flatMap Token.typed) l.value := by
  refine hasExactValue_of_isPowerFree settings (isGrouped_inBrackets l n) ?_ ?_ ?_ ?_
  · rw [tree_inBrackets]
    intro other hother
    obtain rfl : other = l := by simpa [Arithmetic.literals] using hother
    exact hl
  · rw [tree_inBrackets]
    rfl
  · rw [tree_inBrackets]
    trivial
  · rw [tree_inBrackets]
    rfl

/-- A literal in as many brackets as the limit allows is refused. -/
theorem inBrackets_is_refused {l : Literal} (hl : l.IsReadable) {n : Nat} (hn : bracketLimit ≤ n) :
    evaluateExpression .standard [] ((inBrackets l n).tokens.flatMap Token.typed) = ⟨.error .malformed, [], none⟩ := by
  have hbrackets : bracketLimit < (inBrackets l n).brackets := by
    rw [brackets_inBrackets]
    omega
  rw [evaluateExpression_of_hasExactValue (hasExactValue_inBrackets .standard hl n) (by decide), if_neg (by decide),
    if_pos hbrackets]

/-! ### Negative limits -/

/-- A negative limit of exponents refuses every expression with an exact value. -/
theorem refused_of_negative_limit {settings : Settings} {scope : Scope} {w : Writing} {text : List Char} {q : Rat}
    (h : HasExactValue settings scope w text q) (hdigits : 0 ≤ settings.maxExactDigits)
    (hexponent : settings.maxDecimalExponent < 0) :
    evaluateExpression settings scope text = ⟨.error .literalTooLarge, scope, none⟩ := by
  rw [evaluateExpression_of_hasExactValue h hdigits, if_pos hexponent]

/-! ### Unusual circumstances -/

def Answer.isFloat : Answer → Bool
  | .numeric (.float _ _) => true
  | _ => false

def Answer.isRational (q : Rat) : Answer → Bool
  | .numeric (.rational p) => p = q
  | _ => false

theorem exists_answer_of_any {result : Except Failure Answer} {p : Answer → Bool} (h : result.toOption.any p) :
    ∃ answer, result = .ok answer ∧ p answer := by
  cases result with
  | error f => cases h
  | ok answer => exact ⟨answer, rfl, h⟩

theorem half_is_float : ∃ value bits,
    (evaluateExpression { Settings.standard with maxExactDigits := -1 } [] ['.', '5']).answer =
      .ok (.numeric (.float value bits)) := by
  have hfloat : (evaluateExpression { Settings.standard with maxExactDigits := -1 } [] ['.', '5']).answer.toOption.any
      Answer.isFloat := by
    decide +kernel
  obtain ⟨answer, hanswer, hfloat⟩ := exists_answer_of_any hfloat
  unfold Answer.isFloat at hfloat
  split at hfloat
  · exact ⟨_, _, hanswer⟩
  · cases hfloat

theorem one_is_five : (evaluateExpression .standard [("Integer", .number (.rational 5))] ['1']).answer =
    .ok (.numeric (.rational 5)) := by
  have hfive : (evaluateExpression .standard [("Integer", .number (.rational 5))] ['1']).answer.toOption.any
      (Answer.isRational 5) := by
    decide +kernel
  obtain ⟨answer, hanswer, hfive⟩ := exists_answer_of_any hfive
  unfold Answer.isRational at hfive
  split at hfive
  · rw [hanswer, of_decide_eq_true hfive]
  · cases hfive

/-- An exact value alone is not enough: a sum of 2001 ones is refused, a five in two hundred brackets is refused, and
    so is a one where the limit of exponents is negative.  A half is a float where the limit of digits is negative, and
    a one is a five where `Integer` is bound to five. -/
theorem exact_value_can_be_refused :
    (HasExactValue .standard [] (sumOfOnes 2000) ((sumOfOnes 2000).tokens.flatMap Token.typed) 2001 ∧
      (sumOfOnes 2000).brackets ≤ bracketLimit ∧
      evaluateExpression .standard [] ((sumOfOnes 2000).tokens.flatMap Token.typed) = ⟨.error .evaluation, [], none⟩) ∧
    (HasExactValue .standard [] (inBrackets (.whole 5) 200) ((inBrackets (.whole 5) 200).tokens.flatMap Token.typed) 5 ∧
      bracketDepth 0 0 (inBrackets (.whole 5) 200).tokens = bracketLimit ∧
      evaluateExpression .standard [] ((inBrackets (.whole 5) 200).tokens.flatMap Token.typed) =
        ⟨.error .malformed, [], none⟩) ∧
    (HasExactValue { Settings.standard with maxDecimalExponent := -1 } [] (.literal (.whole 1)) ['1'] 1 ∧
      evaluateExpression { Settings.standard with maxDecimalExponent := -1 } [] ['1'] =
        ⟨.error .literalTooLarge, [], none⟩) ∧
    (HasExactValue { Settings.standard with maxExactDigits := -1 } [] (.literal (.decimal none [5])) ['.', '5']
        (1 / 2) ∧
      ∃ value bits, (evaluateExpression { Settings.standard with maxExactDigits := -1 } [] ['.', '5']).answer =
        .ok (.numeric (.float value bits))) ∧
    (evaluateExpression .standard [("Integer", .number (.rational 5))] ['1']).answer =
      .ok (.numeric (.rational 5)) := by
  have hfive := hasExactValue_inBrackets .standard (l := .whole 5) (by decide) 200
  have hone := hasExactValue_inBrackets { Settings.standard with maxDecimalExponent := -1 } (l := .whole 1)
    (by decide) 0
  have hhalf := hasExactValue_inBrackets { Settings.standard with maxExactDigits := -1 } (l := .decimal none [5])
    (by decide) 0
  refine ⟨sumOfOnes_is_refused (by decide) (by norm_num), ⟨?_, by decide +kernel, ?_⟩, ?_, ⟨?_, half_is_float⟩,
    one_is_five⟩
  · simpa [Literal.value] using hfive
  · exact inBrackets_is_refused (by decide) (by decide)
  · have htext : (inBrackets (.whole 1) 0).tokens.flatMap Token.typed = ['1'] := by decide +kernel
    rw [htext] at hone
    have hvalue : HasExactValue { Settings.standard with maxDecimalExponent := -1 } [] (.literal (.whole 1)) ['1']
        1 := by
      simpa [Literal.value, inBrackets] using hone
    exact ⟨hvalue, refused_of_negative_limit hvalue (by decide) (by decide)⟩
  · have htext : (inBrackets (.decimal none [5]) 0).tokens.flatMap Token.typed = ['.', '5'] := by decide +kernel
    have hvalue : (Literal.decimal none [5]).value = 1 / 2 := by decide +kernel
    rw [htext, hvalue] at hhalf
    exact hhalf

end Reckoner.Expression
