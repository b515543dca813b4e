import Reckoner.Proofs.Expression.Grouping

/-!
# Values of formulas

The formula of an expression evaluates to the exact value of the expression: rationals stay rationals under all
operations of arithmetic, and literals are made of the text that stands in the formula.
-/

namespace Reckoner.Expression

open Reckoner.Algebra Reckoner.Number Reckoner.Text

/-! ### Rational arithmetic -/

theorem integerPower_eq_zpow (q : Rat) (n : Int) : Term.integerPower q n = q ^ n := by
  rw [Term.integerPower]
  split
  · rename_i hn
    rw [ratPow_eq, ← zpow_natCast, Int.toNat_of_nonneg hn]
  · rename_i hn
    have hneg : (n.natAbs : Int) = -n := by omega
    rw [ratPow_eq, ← zpow_natCast, hneg, zpow_neg, inv_inv]

theorem div_rational {p q : Rat} (hq : q ≠ 0) : Term.div (.rational p) (.rational q) = .rational (p / q) := by
  have hinv : Term.inv (.rational q) = .rational q⁻¹ := by
    have hone : ¬ (q = 0 ∧ (-1 : Rat) < 0) := fun h => hq h.1
    rw [Term.inv, Term.minusOne, Term.pow_rational_of_isInt rfl hone, integerPower_eq_zpow]
    have hnum : (-1 : Rat).num = -1 := rfl
    rw [hnum, zpow_neg_one]
  rw [Term.div]
  · rw [hinv, Term.mul_rational, div_eq_mul_inv]
  all_goals
    intros
    contradiction

/-- Operations on rationals are exact. -/
theorem operate_rational {op : ArithmeticOperator} {p q r : Rat} (h : op.result? p q = some r) :
    operate op.binary (.number (.rational p)) (.number (.rational q)) = .ok (.number (.rational r)) := by
  cases op with
  | add =>
    obtain rfl : p + q = r := by simpa [ArithmeticOperator.result?] using h
    rfl
  | sub =>
    obtain rfl : p - q = r := by simpa [ArithmeticOperator.result?] using h
    have hneg : Term.neg (.rational q) = .rational (-q) := by
      rw [Term.neg, Term.minusOne, Term.mul_rational, neg_one_mul]
    simp [operate, operateNumbers, ArithmeticOperator.binary, Term.sub, hneg, sub_eq_add_neg]
  | mul =>
    obtain rfl : p * q = r := by simpa [ArithmeticOperator.result?] using h
    rfl
  | div =>
    rw [ArithmeticOperator.result?] at h
    split at h
    · cases h
    · rename_i hq
      obtain rfl : p / q = r := by simpa using h
      simp [operate, operateNumbers, ArithmeticOperator.binary, div_rational hq]
  | power =>
    rw [ArithmeticOperator.result?] at h
    split at h
    · rename_i hq
      obtain rfl : p ^ q.num = r := by simpa using h
      simp [operate, operateNumbers, ArithmeticOperator.binary, Term.pow_rational_of_isInt hq.1 hq.2,
        integerPower_eq_zpow]
    · cases h

/-! ### Values of formulas -/

/-- The function that makes the exact value of a literal. -/
def Literal.function : Literal → Builtin
  | whole _ => .whole
  | decimal _ _ => .rational

def Literal.given : Literal → Value
  | whole n => .number (.rational n)
  | decimal front fraction => .text (String.ofList (decimal front fraction).text)

section Values

variable {scope : Scope}

theorem nameOutcome_exactWord (hscope : scope.LeavesReserved) (l : Literal) :
    nameOutcome scope l.exactWord = .ok (.function l.function) := by
  have hfind : scope.find? l.exactWord = none := by
    by_contra hsome
    have hnone := hscope l.exactWord (Option.isSome_iff_ne_none.mpr hsome)
    cases l <;> cases hnone
  cases l <;> simp_all [nameOutcome, nameValue?, Literal.exactWord, Literal.function, namespaceValue?, reservedValue?]

theorem nameOutcome_of_rational? {word : String} {q : Rat} (h : scope.rational? word = some q) :
    nameOutcome scope word = .ok (.number (.rational q)) := by
  unfold Scope.rational? at h
  split at h
  · rename_i p hfind
    obtain rfl : p = q := by simpa using h
    simp [nameOutcome, nameValue?, hfind]
  · cases h

theorem applyBuiltin_given {l : Literal} (hl : l.IsReadable) (bits : Nat) :
    applyBuiltin bits l.function [l.given] = .ok (.number (.rational l.value)) := by
  cases l with
  | whole n => simp [applyBuiltin, makeWhole, cutToWhole?, Term.ofInt, Literal.function, Literal.given, Literal.value]
  | decimal front fraction =>
    simp [applyBuiltin, makeRational, rationalOfText?_text hl, Literal.function, Literal.given]

theorem callValue_single (bits : Nat) (f : Builtin) (v : Value) :
    callValue bits (.function f) [""] [v] = applyBuiltin bits f [v] := by
  simp [callValue]

theorem evaluate_argument (l : Literal) (bits : Nat) : l.argument.evaluate bits scope = .ok l.given := by
  cases l <;> simp [Literal.argument, Literal.given, Formula.evaluate]

/-- The formula of an expression evaluates to the exact value of the expression. -/
theorem evaluate_formula (hscope : scope.LeavesReserved) {e : Arithmetic} (he : ∀ l ∈ e.literals, l.IsReadable)
    {q : Rat} (h : e.value? scope = some q) (bits : Nat) : e.formula.evaluate bits scope = .ok (.number (.rational q)) := by
  induction e generalizing q with
  | literal l =>
    obtain rfl : l.value = q := by simpa [Arithmetic.value?] using h
    have hl : l.IsReadable := he l (by simp [Arithmetic.literals])
    simp only [Arithmetic.formula, Formula.evaluate, Formula.evaluateAll, nameOutcome_exactWord hscope, evaluate_argument,
      Except.map, callValue_single, applyBuiltin_given hl]
  | name word =>
    rw [Arithmetic.formula, Formula.evaluate]
    exact nameOutcome_of_rational? h
  | negation operand ih =>
    obtain ⟨p, hp, rfl⟩ := Option.map_eq_some_iff.mp h
    rw [Arithmetic.formula, Formula.evaluate, ih he hp]
    simp [operateUnary, Term.neg, Term.minusOne]
  | operation op left right ihl ihr =>
    obtain ⟨p, hp, hright⟩ := Option.bind_eq_some_iff.mp h
    obtain ⟨p', hp', happly⟩ := Option.bind_eq_some_iff.mp hright
    simp only [Arithmetic.literals, List.mem_append] at he
    have hleftValue := ihl (fun l hl => he l (.inl hl)) hp
    have hrightValue := ihr (fun l hl => he l (.inr hl)) hp'
    rw [Arithmetic.formula, Formula.evaluate, hleftValue, hrightValue]
    exact operate_rational happly

end Values

end Reckoner.Expression
