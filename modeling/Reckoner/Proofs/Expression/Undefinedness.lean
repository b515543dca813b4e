import Reckoner.Proofs.Expression.Exactness

/-!
# Division by zero

An expression of school arithmetic without an exact value still has an extended value: a number, the unsigned infinity
of a division by zero, or nothing at all.  What the text of the expression evaluates to is decided by this value.  A
division by zero is reported when the extended value of the whole expression is no number; it is forgotten where a
number is divided by the infinity, or where a value that is no number gets an exponent that is zero or negative.
-/

namespace Reckoner.Expression

open Reckoner.Algebra

/-! ### Extended values -/

/-- Rationals, the value of a division by zero, and the value of an operation that has none. -/
inductive Extended
  | number (q : Rat)
  | pole
  | undefined
  deriving DecidableEq

namespace Extended

def term : Extended → Term
  | number q => .rational q
  | pole => .complexInfinity
  | undefined => .undefined

def neg : Extended → Extended
  | number q => number (-q)
  | pole => pole
  | undefined => undefined

def add : Extended → Extended → Extended
  | number p, number q => number (p + q)
  | number _, pole => pole
  | pole, number _ => pole
  | _, _ => undefined

def mul : Extended → Extended → Extended
  | number p, number q => number (p * q)
  | number p, pole => if p = 0 then undefined else pole
  | pole, number q => if q = 0 then undefined else pole
  | pole, pole => pole
  | _, _ => undefined

def inverse : Extended → Extended
  | number q => if q = 0 then pole else number q⁻¹
  | pole => number 0
  | undefined => undefined

def integerPower (n : Int) : Extended → Extended
  | number q => if q = 0 ∧ n < 0 then pole else number (q ^ n)
  | pole => if n = 0 then number 1 else if n < 0 then number 0 else pole
  | undefined => if n = 0 then number 1 else undefined

end Extended

/-- The extended result of an operation: nothing for a fractional exponent. -/
def ArithmeticOperator.extended? (op : ArithmeticOperator) (x y : Extended) : Option Extended :=
  match op, y with
  | .add, _ => some (x.add y)
  | .sub, _ => some (x.add y.neg)
  | .mul, _ => some (x.mul y)
  | .div, _ => some (x.mul y.inverse)
  | .power, .number r => if r.den = 1 then some (x.integerPower r.num) else none
  | .power, _ => some .undefined

/-- Whether an operation makes a number of operands that are not both numbers. -/
def ArithmeticOperator.forgets (op : ArithmeticOperator) (x y : Extended) : Bool :=
  match op, x, y with
  | .div, .number _, .pole => true
  | .power, .pole, .number r => decide (r ≤ 0)
  | .power, .undefined, .number r => decide (r = 0)
  | _, _, _ => false

namespace Arithmetic

/-- The value of an expression in which divisions by zero may occur. -/
def extended? (scope : Scope) : Arithmetic → Option Extended
  | literal l => some (.number l.value)
  | name word => (scope.rational? word).map .number
  | negation operand => (extended? scope operand).map Extended.neg
  | operation op left right =>
    (extended? scope left).bind fun x => (extended? scope right).bind fun y => op.extended? x y

/-- An expression and all expressions in it. -/
def parts : Arithmetic → List Arithmetic
  | literal l => [literal l]
  | name word => [name word]
  | negation operand => negation operand :: parts operand
  | operation op left right => operation op left right :: (parts left ++ parts right)

/-- Whether the outermost operation forgets that an operand is no number. -/
def isForgetful (scope : Scope) : Arithmetic → Bool
  | operation op left right =>
    match left.extended? scope, right.extended? scope with
    | some x, some y => op.forgets x y
    | _, _ => false
  | _ => false

end Arithmetic

/-! ### Operations on terms -/

namespace Extended

theorem neg_term (x : Extended) : Term.neg x.term = x.neg.term := by
  cases x with
  | number q => simp [term, neg, Term.neg, Term.minusOne]
  | pole => rfl
  | undefined => rfl

theorem add_term (x y : Extended) : Term.add x.term y.term = (x.add y).term := by
  cases x <;> cases y <;> rfl

theorem mul_pole_left (q : Rat) :
    Term.mul .complexInfinity (.rational q) = (if q = 0 then .undefined else .complexInfinity : Term) := by
  simp [Term.mul, Term.factors, Term.isZero]

theorem mul_pole_right (p : Rat) :
    Term.mul (.rational p) .complexInfinity = (if p = 0 then .undefined else .complexInfinity : Term) := by
  simp [Term.mul, Term.factors, Term.isZero]

theorem mul_term (x y : Extended) : Term.mul x.term y.term = (x.mul y).term := by
  cases x with
  | number p =>
    cases y with
    | number q => rfl
    | pole =>
      rw [term, term, mul_pole_right, mul]
      split <;> rfl
    | undefined => simp [term, mul, Term.mul, Term.factors]
  | pole =>
    cases y with
    | number q =>
      rw [term, term, mul_pole_left, mul]
      split <;> rfl
    | pole => simp [term, mul, Term.mul, Term.factors, Term.isZero]
    | undefined => simp [term, mul, Term.mul, Term.factors]
  | undefined => simp [term, mul, Term.mul, Term.factors]

theorem pow_term (x : Extended) {r : Rat} (hr : r.den = 1) :
    Term.pow x.term (.rational r) = (x.integerPower r.num).term := by
  have hzero : r = 0 ↔ r.num = 0 := Rat.num_eq_zero.symm
  have hneg : r < 0 ↔ r.num < 0 := Rat.num_neg.symm
  cases x with
  | number q =>
    simp only [term, integerPower, Term.pow, hr, if_true, hneg, integerPower_eq_zpow]
    split_ifs <;> rfl
  | pole =>
    simp only [term, integerPower, Term.pow, hzero, hneg]
    split_ifs <;> rfl
  | undefined =>
    simp only [term, integerPower, Term.pow, hzero]
    split_ifs <;> rfl

theorem inv_term (x : Extended) : Term.inv x.term = x.inverse.term := by
  have hden : (-1 : Rat).den = 1 := rfl
  have hnum : (-1 : Rat).num = -1 := rfl
  rw [Term.inv, Term.minusOne, pow_term x hden, hnum]
  cases x with
  | number q => by_cases hq : q = 0 <;> simp [integerPower, inverse, hq]
  | pole => rfl
  | undefined => rfl

theorem div_term (x y : Extended) : Term.div x.term y.term = (x.mul y.inverse).term := by
  rw [← mul_term, ← inv_term]
  cases x <;> rfl

end Extended

/-- Operations on terms give the extended results. -/
theorem operate_extended {op : ArithmeticOperator} {x y z : Extended} (h : op.extended? x y = some z) :
    operate op.binary (.number x.term) (.number y.term) = .ok (.number z.term) := by
  cases op with
  | add =>
    obtain rfl : x.add y = z := by simpa [ArithmeticOperator.extended?] using h
    simp [operate, operateNumbers, ArithmeticOperator.binary, Extended.add_term]
  | sub =>
    obtain rfl : x.add y.neg = z := by simpa [ArithmeticOperator.extended?] using h
    simp [operate, operateNumbers, ArithmeticOperator.binary, Term.sub, Extended.neg_term, Extended.add_term]
  | mul =>
    obtain rfl : x.mul y = z := by simpa [ArithmeticOperator.extended?] using h
    simp [operate, operateNumbers, ArithmeticOperator.binary, Extended.mul_term]
  | div =>
    obtain rfl : x.mul y.inverse = z := by simpa [ArithmeticOperator.extended?] using h
    simp [operate, operateNumbers, ArithmeticOperator.binary, Extended.div_term]
  | power =>
    cases y with
    | number r =>
      by_cases hr : r.den = 1
      · obtain rfl : x.integerPower r.num = z := by simpa [ArithmeticOperator.extended?, hr] using h
        rw [← Extended.pow_term x hr]
        rfl
      · simp [ArithmeticOperator.extended?, hr] at h
    | pole =>
      obtain rfl : Extended.undefined = z := by simpa [ArithmeticOperator.extended?] using h
      cases x <;> rfl
    | undefined =>
      obtain rfl : Extended.undefined = z := by simpa [ArithmeticOperator.extended?] using h
      cases x <;> rfl

/-! ### Extended values of expressions -/

section Values

variable {scope : Scope} {e : Arithmetic}

theorem rational?_of_extended? {x : Extended} (h : e.extended? scope = some x) {word : String}
    (hword : word ∈ e.names) : ∃ p, scope.rational? word = some p := by
  induction e generalizing x with
  | literal l => cases hword
  | name other =>
    obtain rfl : word = other := by simpa [Arithmetic.names] using hword
    obtain ⟨p, hp, _⟩ := Option.map_eq_some_iff.mp h
    exact ⟨p, hp⟩
  | negation operand ih =>
    obtain ⟨y, hy, _⟩ := Option.map_eq_some_iff.mp h
    exact ih hy hword
  | operation op left right ihl ihr =>
    obtain ⟨y, hy, hright⟩ := Option.bind_eq_some_iff.mp h
    obtain ⟨z, hz, _⟩ := Option.bind_eq_some_iff.mp hright
    rcases List.mem_append.mp hword with hword | hword
    · exact ihl hy hword
    · exact ihr hz hword

theorem Scope.supplies_of_extended? (hscope : scope.LeavesReserved) {x : Extended} (h : e.extended? scope = some x) :
    scope.Supplies e where
  leavesReserved := hscope
  names word hword := by
    obtain ⟨p, hp⟩ := rational?_of_extended? h hword
    exact plain_of_rational? hscope hp

/-- The formula of an expression evaluates to its extended value. -/
theorem evaluate_formula_extended (hscope : scope.LeavesReserved) (he : ∀ l ∈ e.literals, l.IsReadable) {x : Extended}
    (h : e.extended? scope = some x) (bits : Nat) : e.formula.evaluate bits scope = .ok (.number x.term) := by
  induction e generalizing x with
  | literal l =>
    have hvalue : (Arithmetic.literal l).value? scope = some l.value := rfl
    obtain rfl : Extended.number l.value = x := by simpa [Arithmetic.extended?] using h
    exact evaluate_formula hscope he hvalue bits
  | name word =>
    obtain ⟨p, hp, rfl⟩ := Option.map_eq_some_iff.mp h
    rw [Arithmetic.formula, Formula.evaluate]
    exact nameOutcome_of_rational? hp
  | negation operand ih =>
    obtain ⟨y, hy, rfl⟩ := Option.map_eq_some_iff.mp h
    rw [Arithmetic.formula, Formula.evaluate, ih he hy]
    simp [operateUnary, Extended.neg_term]
  | operation op left right ihl ihr =>
    obtain ⟨y, hy, hright⟩ := Option.bind_eq_some_iff.mp h
    obtain ⟨z, hz, happly⟩ := Option.bind_eq_some_iff.mp hright
    simp only [Arithmetic.literals, List.mem_append] at he
    have hleftValue := ihl (fun l hl => he l (.inl hl)) hy
    have hrightValue := ihr (fun l hl => he l (.inr hl)) hz
    rw [Arithmetic.formula, Formula.evaluate, hleftValue, hrightValue]
    exact operate_extended happly

/-- Numbers give a number only if the operation has an exact result on them. -/
theorem result?_of_extended? {op : ArithmeticOperator} {p q r : Rat}
    (h : op.extended? (.number p) (.number q) = some (.number r)) : op.result? p q = some r := by
  cases op with
  | add => simpa [ArithmeticOperator.extended?, Extended.add, ArithmeticOperator.result?] using h
  | sub => simpa [ArithmeticOperator.extended?, Extended.add, Extended.neg, ArithmeticOperator.result?,
      sub_eq_add_neg] using h
  | mul => simpa [ArithmeticOperator.extended?, Extended.mul, ArithmeticOperator.result?] using h
  | div =>
    by_cases hq : q = 0
    · by_cases hp : p = 0 <;> simp [ArithmeticOperator.extended?, Extended.mul, Extended.inverse, hp, hq] at h
    · simpa [ArithmeticOperator.extended?, Extended.mul, Extended.inverse, ArithmeticOperator.result?, hq,
        div_eq_mul_inv] using h
  | power =>
    by_cases hden : q.den = 1
    · by_cases hzero : p = 0 ∧ q < 0
      · simp [ArithmeticOperator.extended?, Extended.integerPower, hden, hzero] at h
      · simpa [ArithmeticOperator.extended?, Extended.integerPower, ArithmeticOperator.result?, hden, hzero] using h
    · simp [ArithmeticOperator.extended?, hden] at h

/-- An operation gives a number only if its operands are numbers, or if it forgets that one of them is none. -/
theorem forgets_of_extended? {op : ArithmeticOperator} {x y : Extended} {q : Rat}
    (h : op.extended? x y = some (.number q)) : (∃ p r, x = .number p ∧ y = .number r) ∨ op.forgets x y := by
  cases op with
  | add => cases x <;> cases y <;> simp [ArithmeticOperator.extended?, Extended.add] at h ⊢
  | sub => cases x <;> cases y <;> simp [ArithmeticOperator.extended?, Extended.add, Extended.neg] at h ⊢
  | mul =>
    cases x with
    | number p =>
      cases y with
      | number r => exact .inl ⟨p, r, rfl, rfl⟩
      | pole => by_cases hp : p = 0 <;> simp [ArithmeticOperator.extended?, Extended.mul, hp] at h
      | undefined => cases h
    | pole =>
      cases y with
      | number r => by_cases hr : r = 0 <;> simp [ArithmeticOperator.extended?, Extended.mul, hr] at h
      | pole => cases h
      | undefined => cases h
    | undefined => cases h
  | div =>
    cases x with
    | number p =>
      cases y with
      | number r => exact .inl ⟨p, r, rfl, rfl⟩
      | pole => exact .inr rfl
      | undefined => cases h
    | pole =>
      cases y with
      | number r =>
        by_cases hr : r = 0 <;> simp [ArithmeticOperator.extended?, Extended.mul, Extended.inverse, hr] at h
      | pole => simp [ArithmeticOperator.extended?, Extended.mul, Extended.inverse] at h
      | undefined => cases h
    | undefined => cases h
  | power =>
    cases y with
    | number r =>
      by_cases hden : r.den = 1
      swap
      · simp [ArithmeticOperator.extended?, hden] at h
      simp only [ArithmeticOperator.extended?, hden, if_true, Option.some.injEq] at h
      cases x with
      | number p => exact .inl ⟨p, r, rfl, rfl⟩
      | pole =>
        refine .inr (decide_eq_true (Rat.num_nonpos.mp ?_))
        by_contra hpositive
        simp [Extended.integerPower, show r.num ≠ 0 by omega, show ¬ r.num < 0 by omega] at h
      | undefined =>
        refine .inr (decide_eq_true (Rat.num_eq_zero.mp ?_))
        by_contra hne
        simp [Extended.integerPower, hne] at h
    | pole => cases h
    | undefined => cases h

/-- An extended value that is a number is the exact value, unless a part of the expression is forgetful. -/
theorem value?_or_forgetful {q : Rat} (h : e.extended? scope = some (.number q)) :
    e.value? scope = some q ∨ ∃ part ∈ e.parts, part.isForgetful scope := by
  induction e generalizing q with
  | literal l =>
    obtain rfl : l.value = q := by simpa [Arithmetic.extended?] using h
    exact .inl rfl
  | name word =>
    obtain ⟨p, hp, hpq⟩ := Option.map_eq_some_iff.mp h
    obtain rfl : p = q := by simpa using hpq
    exact .inl hp
  | negation operand ih =>
    obtain ⟨y, hy, hneg⟩ := Option.map_eq_some_iff.mp h
    obtain ⟨p, rfl, rfl⟩ : ∃ p, y = .number p ∧ -p = q := by
      cases y <;> simp_all [Extended.neg]
    rcases ih hy with hvalue | ⟨part, hpart, hforgets⟩
    · exact .inl (by simp [Arithmetic.value?, hvalue])
    · exact .inr ⟨part, List.mem_cons_of_mem _ hpart, hforgets⟩
  | operation op left right ihl ihr =>
    obtain ⟨y, hy, hright⟩ := Option.bind_eq_some_iff.mp h
    obtain ⟨z, hz, happly⟩ := Option.bind_eq_some_iff.mp hright
    rcases forgets_of_extended? happly with ⟨p, r, rfl, rfl⟩ | hforgets
    swap
    · exact .inr ⟨_, List.mem_cons_self, by simpa only [Arithmetic.isForgetful, hy, hz] using hforgets⟩
    rcases ihl hy with hleft | ⟨part, hpart, hforgets⟩
    swap
    · exact .inr ⟨part, List.mem_cons_of_mem _ (List.mem_append_left _ hpart), hforgets⟩
    rcases ihr hz with hright | ⟨part, hpart, hforgets⟩
    swap
    · exact .inr ⟨part, List.mem_cons_of_mem _ (List.mem_append_right _ hpart), hforgets⟩
    exact .inl (by simp [Arithmetic.value?, hleft, hright, result?_of_extended? happly])

end Values

/-! ### Texts -/

/-- A text lays out a grouped writing of an expression with an extended value, and no power of the expression asks for
    rounding. -/
structure HasExtendedValue (settings : Settings) (scope : Scope) (w : Writing) (text : List Char) (x : Extended) :
    Prop where
  grouped : w.IsGrouped
  readable : w.tree.IsReadable
  laidOut : LaidOut w.tokens text
  leavesReserved : scope.LeavesReserved
  value : w.tree.extended? scope = some x
  powers : ∀ s, w.tree.formula.sketch settings scope = .ok s → s.needsRounding settings = .ok false

/-- The limits that no expression may exceed, and that may not be negative. -/
structure Writing.IsWithinLimits (settings : Settings) (w : Writing) : Prop where
  exponents : 0 ≤ settings.maxDecimalExponent
  digits : 0 ≤ settings.maxExactDigits
  brackets : w.brackets ≤ bracketLimit
  nesting : w.tree.nesting ≤ Formula.nestingLimit

def Extended.answer : Extended → Except Failure Answer
  | number q => .ok (.numeric (.rational q))
  | pole => .error .undefinedResult
  | undefined => .error .undefinedResult

section Texts

variable {settings : Settings} {scope : Scope} {w : Writing} {text : List Char} {x : Extended}

theorem evaluateFormula_extended (h : HasExtendedValue settings scope w text x)
    (hnesting : w.tree.nesting ≤ Formula.nestingLimit) :
    evaluateFormula settings scope w.tree.formula = .ok (.number x.term, false) := by
  have hnames : ∀ word ∈ w.tree.names, ∃ p, scope.rational? word = some p := by
    intro word hword
    exact rational?_of_extended? h.value hword
  obtain ⟨s, hsketch, _⟩ := sketch_formula settings h.leavesReserved h.readable.literals hnames
  have hdepth : ¬ Formula.nestingLimit < w.tree.nesting := by omega
  simp only [evaluateFormula, nesting_formula, hdepth, if_false, bind, Except.bind, hsketch, h.powers s hsketch,
    Bool.false_eq_true, evaluate_formula_extended h.leavesReserved h.readable.literals h.value]
  rfl

/-- What such a text evaluates to is decided by the extended value. -/
theorem evaluateExpression_extended (h : HasExtendedValue settings scope w text x) (hlimits : w.IsWithinLimits settings) :
    evaluateExpression settings scope text = ⟨x.answer, scope, none⟩ := by
  have hsupplies : scope.Supplies w.tree := Scope.supplies_of_extended? h.leavesReserved h.value
  have hexponent : ¬ settings.maxDecimalExponent < 0 := by have := hlimits.exponents; omega
  have hbrackets : ¬ bracketLimit < w.brackets := by have := hlimits.brackets; omega
  rw [evaluateExpression_writing h.readable h.laidOut,
    evaluateText_writing h.grouped h.readable h.laidOut hsupplies hlimits.digits, if_neg hexponent, if_neg hbrackets,
    evaluateFormula_extended h hlimits.nesting]
  cases x <;> rfl

/-- A division by zero anywhere in an expression makes its result undefined exactly when the extended value of the
    expression is no number.  Where the value is a number, the text evaluates to it, and some part of the expression is
    forgetful. -/
theorem division_by_zero_is_reported_iff (h : HasExtendedValue settings scope w text x)
    (hlimits : w.IsWithinLimits settings) (hnone : w.tree.value? scope = none) :
    (evaluateExpression settings scope text = ⟨.error .undefinedResult, scope, none⟩ ↔ ∀ q, x ≠ .number q) ∧
    (∀ q, x = .number q → evaluateExpression settings scope text = ⟨.ok (.numeric (.rational q)), scope, none⟩) ∧
    ((∀ part ∈ w.tree.parts, part.isForgetful scope = false) →
      evaluateExpression settings scope text = ⟨.error .undefinedResult, scope, none⟩) := by
  have hanswer := evaluateExpression_extended h hlimits
  have hreported : (∀ q, x ≠ .number q) → evaluateExpression settings scope text = ⟨.error .undefinedResult, scope, none⟩ := by
    intro hx
    cases x with
    | number q => exact absurd rfl (hx q)
    | pole => exact hanswer
    | undefined => exact hanswer
  refine ⟨⟨?_, hreported⟩, ?_, ?_⟩
  · rintro hfailure q rfl
    rw [hanswer] at hfailure
    cases hfailure
  · rintro q rfl
    exact hanswer
  · intro hforgets
    refine hreported ?_
    rintro q rfl
    rcases value?_or_forgetful h.value with hvalue | ⟨part, hpart, hforgetful⟩
    · simp [hnone] at hvalue
    · simp [hforgets part hpart] at hforgetful

/-- Expressions of literals in the empty scope, typed without blanks. -/
theorem hasExtendedValue_of_literals (hgrouped : w.IsGrouped) (hliterals : ∀ l ∈ w.tree.literals, l.IsReadable)
    (hnames : w.tree.names = []) (hvalue : w.tree.extended? [] = some x)
    (hpowers : (w.tree.formula.sketch settings []).bind (·.needsRounding settings) = .ok false) :
    HasExtendedValue settings [] w (w.tokens.flatMap Token.typed) x := by
  refine ⟨hgrouped, ⟨hliterals, by simp [hnames]⟩, laidOut_flatMap w.tokens, ?_, hvalue, ?_⟩
  · intro word hword
    cases hword
  · intro s hs
    rw [hs] at hpowers
    exact hpowers

end Texts

def deepQuotient : Writing :=
  .operation .add
    (.operation .mul (.literal (.whole 2))
      (.bracket (.operation .sub (.literal (.whole 1))
        (.operation .div (.literal (.whole 3))
          (.bracket (.operation .sub (.literal (.whole 4))
            (.operation .power (.literal (.whole 2)) (.literal (.whole 2)))))))))
    (.literal (.decimal (some 5) []))

/-- A division by zero is reported from below a product, a difference and a sum. -/
theorem deep_division_by_zero_is_reported :
    HasExtendedValue .standard [] deepQuotient "2*(1-3/(4-2^2))+5.".toList .pole ∧
      deepQuotient.IsWithinLimits .standard ∧ deepQuotient.tree.value? [] = none ∧
      (∀ part ∈ deepQuotient.tree.parts, part.isForgetful [] = false) ∧
      evaluateExpression .standard [] "2*(1-3/(4-2^2))+5.".toList = ⟨.error .undefinedResult, [], none⟩ := by
  have hvalue : HasExtendedValue .standard [] deepQuotient "2*(1-3/(4-2^2))+5.".toList .pole :=
    hasExtendedValue_of_literals (by decide) (by decide) (by decide) (by decide +kernel) (by decide +kernel)
  have hlimits : deepQuotient.IsWithinLimits .standard := ⟨by decide, by decide, by decide, by decide⟩
  have hnone : deepQuotient.tree.value? [] = none := by decide +kernel
  have hforgets : ∀ part ∈ deepQuotient.tree.parts, part.isForgetful [] = false := by decide +kernel
  exact ⟨hvalue, hlimits, hnone, hforgets, (division_by_zero_is_reported_iff hvalue hlimits hnone).2.2 hforgets⟩

def invertedPole : Writing :=
  .operation .div (.literal (.whole 1))
    (.bracket (.operation .div (.literal (.whole 1)) (.literal (.whole 0))))

def poleToZero : Writing :=
  .operation .power (.bracket (.operation .div (.literal (.whole 1)) (.literal (.whole 0)))) (.literal (.whole 0))

/-- Divisions by zero that are not reported: the text of an expression without an exact value evaluates to a number. -/
theorem division_by_zero_is_forgotten :
    invertedPole.tree.value? [] = none ∧ poleToZero.tree.value? [] = none ∧
      evaluateExpression .standard [] "1/(1/0)".toList = ⟨.ok (.numeric (.rational 0)), [], none⟩ ∧
      evaluateExpression .standard [] "(1/0)^0".toList = ⟨.ok (.numeric (.rational 1)), [], none⟩ := by
  have hinverted : HasExtendedValue .standard [] invertedPole "1/(1/0)".toList (.number 0) :=
    hasExtendedValue_of_literals (by decide) (by decide) (by decide) (by decide +kernel) (by decide +kernel)
  have hpower : HasExtendedValue .standard [] poleToZero "(1/0)^0".toList (.number 1) :=
    hasExtendedValue_of_literals (by decide) (by decide) (by decide) (by decide +kernel) (by decide +kernel)
  refine ⟨by decide +kernel, by decide +kernel, ?_, ?_⟩
  · exact evaluateExpression_extended hinverted ⟨by decide, by decide, by decide, by decide⟩
  · exact evaluateExpression_extended hpower ⟨by decide, by decide, by decide, by decide⟩

end Reckoner.Expression
