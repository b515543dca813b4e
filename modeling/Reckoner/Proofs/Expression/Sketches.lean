import Reckoner.Expression.Sketch
import Reckoner.Proofs.Expression.Values

/-!
# Sketches of arithmetic

The formula of an expression always has a sketch, because all operands in it are numbers or operations that are held
back.  Only quotients and powers bring powers into it, so that nothing else can ask for rounded numbers.
-/

namespace Reckoner.Expression

open Reckoner.Algebra

/-! ### Sketches of formulas -/

/-- Sketches of arithmetic: rationals, and operations that are held back. -/
inductive Sketch.IsArithmetic : Sketch → Prop
  | rational (q : Rat) : IsArithmetic (.value (.number (.rational q)))
  | sum (items : List Sketch) : IsArithmetic (.sum items)
  | product (items : List Sketch) : IsArithmetic (.product items)
  | power (base exponent : Sketch) : IsArithmetic (.power base exponent)

/-- Drafts of arithmetic, which can be closed. -/
inductive Draft.IsArithmetic : Draft → Prop
  | finished {s : Sketch} (h : s.IsArithmetic) : IsArithmetic (.finished s)
  | sum (items : List Sketch) (h : ∀ s ∈ items, s.isOperand) : IsArithmetic (.sum items)
  | product (items : List Sketch) (h : ∀ s ∈ items, s.isOperand) : IsArithmetic (.product items)

def Draft.powers (settings : Settings) : Draft → List (Term × Term)
  | .finished s => s.powers settings
  | .sum items => Sketch.powersOf settings items
  | .product items => Sketch.powersOf settings items

variable (settings : Settings)

theorem Sketch.powersOf_append (xs ys : List Sketch) :
    Sketch.powersOf settings (xs ++ ys) = Sketch.powersOf settings xs ++ Sketch.powersOf settings ys := by
  induction xs with
  | nil => rfl
  | cons s rest ih => simp [Sketch.powersOf, ih]

theorem Sketch.powersOf_singleton (s : Sketch) : Sketch.powersOf settings [s] = s.powers settings := by
  simp [Sketch.powersOf]

theorem Sketch.powers_opposite (s : Sketch) :
    Sketch.powers settings (.product [.value (.number .minusOne), s]) = s.powers settings := by
  simp [Sketch.powers, Sketch.powersOf, Term.powers, Term.minusOne]

theorem Sketch.IsArithmetic.isOperand {s : Sketch} (h : s.IsArithmetic) : s.isOperand := by
  cases h <;> rfl

theorem Sketch.IsArithmetic.minus {s : Sketch} (h : s.IsArithmetic) :
    ∃ t : Sketch, s.unary .minus = .ok t ∧ t.IsArithmetic ∧ t.powers settings = s.powers settings := by
  cases h with
  | rational q =>
    refine ⟨.value (.number (.rational (-q))), ?_, .rational _, by simp [Sketch.powers, Term.powers]⟩
    simp [Sketch.unary, operateUnary, Term.neg, Term.minusOne, Except.map]
  | sum items => exact ⟨_, rfl, .product _, Sketch.powers_opposite settings _⟩
  | product items => exact ⟨_, rfl, .product _, Sketch.powers_opposite settings _⟩
  | power base exponent => exact ⟨_, rfl, .product _, Sketch.powers_opposite settings _⟩

namespace Draft.IsArithmetic

variable {d e : Draft}

theorem joinOperands {join : List Sketch → Sketch} {items : List Sketch} (h : ∀ s ∈ items, s.isOperand) :
    Sketch.joinOperands join items = .ok (join items) := by
  rw [Sketch.joinOperands, if_pos (List.all_eq_true.mpr h)]

theorem close (h : d.IsArithmetic) :
    ∃ s, d.close = .ok s ∧ s.IsArithmetic ∧ s.powers settings = d.powers settings := by
  cases h with
  | finished h => exact ⟨_, rfl, h, rfl⟩
  | sum items h => exact ⟨_, joinOperands h, .sum items, by rw [Sketch.powers]; rfl⟩
  | product items h => exact ⟨_, joinOperands h, .product items, by rw [Sketch.powers]; rfl⟩

theorem summands (h : d.IsArithmetic) : ∃ items, d.summands = .ok items ∧ (∀ s ∈ items, s.isOperand) ∧
    Sketch.powersOf settings items = d.powers settings := by
  cases h with
  | finished h => exact ⟨_, rfl, by simpa using h.isOperand, Sketch.powersOf_singleton settings _⟩
  | sum items h => exact ⟨items, rfl, h, rfl⟩
  | product items h =>
    refine ⟨[.product items], ?_, by simp [Sketch.isOperand], by simp [Sketch.powersOf, Sketch.powers, Draft.powers]⟩
    simp only [Draft.summands, Draft.close, joinOperands h, Except.map]

theorem factors (h : d.IsArithmetic) : ∃ items, d.factors = .ok items ∧ (∀ s ∈ items, s.isOperand) ∧
    Sketch.powersOf settings items = d.powers settings := by
  cases h with
  | finished h => exact ⟨_, rfl, by simpa using h.isOperand, Sketch.powersOf_singleton settings _⟩
  | sum items h =>
    refine ⟨[.sum items], ?_, by simp [Sketch.isOperand], by simp [Sketch.powersOf, Sketch.powers, Draft.powers]⟩
    simp only [Draft.factors, Draft.close, joinOperands h, Except.map]
  | product items h => exact ⟨items, rfl, h, rfl⟩

theorem opposite {t : Sketch} (ht : t.isOperand) :
    Sketch.joinOperands .product [.value (.number .minusOne), t] = .ok (.product [.value (.number .minusOne), t]) := by
  apply joinOperands
  intro s hs
  rcases List.mem_pair.mp hs with rfl | rfl
  · rfl
  · exact ht

/-- Arithmetic joined by an operator is arithmetic, and sums, differences and products add no powers. -/
theorem join (hd : d.IsArithmetic) (he : e.IsArithmetic) (op : ArithmeticOperator) :
    ∃ joined, Draft.join op.binary (.ok d) (.ok e) = .ok joined ∧ joined.IsArithmetic ∧
      (op ∈ [.add, .sub, .mul] → joined.powers settings = d.powers settings ++ e.powers settings) := by
  obtain ⟨s, hs, hsArithmetic, _⟩ := hd.close settings
  obtain ⟨t, ht, htArithmetic, htPowers⟩ := he.close settings
  cases op with
  | add =>
    obtain ⟨xs, hxs, hxsOperands, hxsPowers⟩ := hd.summands settings
    obtain ⟨ys, hys, hysOperands, hysPowers⟩ := he.summands settings
    refine ⟨.sum (xs ++ ys), ?_, .sum _ (List.forall_mem_append.mpr ⟨hxsOperands, hysOperands⟩), ?_⟩
    · simp [ArithmeticOperator.binary, Draft.join, bind, Except.bind, hxs, hys, pure, Except.pure]
    · intro _
      rw [Draft.powers, Sketch.powersOf_append, hxsPowers, hysPowers]
  | sub =>
    obtain ⟨xs, hxs, hxsOperands, hxsPowers⟩ := hd.summands settings
    have hnegated := opposite htArithmetic.isOperand
    have hlast : ∀ s ∈ [Sketch.product [.value (.number .minusOne), t]], s.isOperand := by simp [Sketch.isOperand]
    refine ⟨.sum (xs ++ [.product [.value (.number .minusOne), t]]), ?_,
      .sum _ (List.forall_mem_append.mpr ⟨hxsOperands, hlast⟩), ?_⟩
    · simp [ArithmeticOperator.binary, Draft.join, Draft.sketchOf, bind, Except.bind, hxs, ht, hnegated, pure,
        Except.pure]
    · intro _
      rw [Draft.powers, Sketch.powersOf_append, hxsPowers, Sketch.powersOf_singleton, Sketch.powers_opposite, htPowers]
  | mul =>
    obtain ⟨xs, hxs, hxsOperands, hxsPowers⟩ := hd.factors settings
    obtain ⟨ys, hys, hysOperands, hysPowers⟩ := he.factors settings
    refine ⟨.product (xs ++ ys), ?_, .product _ (List.forall_mem_append.mpr ⟨hxsOperands, hysOperands⟩), ?_⟩
    · simp [ArithmeticOperator.binary, Draft.join, bind, Except.bind, hxs, hys, pure, Except.pure]
    · intro _
      rw [Draft.powers, Sketch.powersOf_append, hxsPowers, hysPowers]
  | div =>
    obtain ⟨xs, hxs, hxsOperands, _⟩ := hd.factors settings
    have hlast : ∀ s ∈ [t.reciprocal], s.isOperand := by simp [Sketch.reciprocal, Sketch.isOperand]
    refine ⟨.product (xs ++ [t.reciprocal]), ?_, .product _ (List.forall_mem_append.mpr ⟨hxsOperands, hlast⟩), ?_⟩
    · simp [ArithmeticOperator.binary, Draft.join, Draft.sketchOf, bind, Except.bind, hxs, ht,
        htArithmetic.isOperand, pure, Except.pure]
    · intro hop
      exact absurd hop (by decide)
  | power =>
    refine ⟨.finished (.power s t), ?_, .finished (.power s t), ?_⟩
    · simp [ArithmeticOperator.binary, Draft.join, Draft.sketchOf, bind, Except.bind, hs, ht, hsArithmetic.isOperand,
        htArithmetic.isOperand, pure, Except.pure]
    · intro hop
      exact absurd hop (by decide)

end Draft.IsArithmetic

/-- Expressions without quotients and powers. -/
def Arithmetic.IsPowerFree : Arithmetic → Prop
  | literal _ => True
  | name _ => True
  | negation operand => IsPowerFree operand
  | operation op left right => op ∈ [.add, .sub, .mul] ∧ IsPowerFree left ∧ IsPowerFree right

section Sketches

variable {scope : Scope}

theorem draft_argument (l : Literal) :
    Formula.draftAll settings scope [l.argument] = .ok [.value l.given] := by
  cases l <;> rfl

theorem call_given {l : Literal} (hl : l.IsReadable) :
    Sketch.call settings l.exactWord (.function l.function) [""] [.value l.given] =
      .ok (.value (.number (.rational l.value))) := by
  have hheld : Sketch.heldNames.contains l.exactWord = false := by cases l <;> rfl
  have hvalues : Sketch.values? [.value l.given] = some [l.given] := rfl
  have hcarried : Sketch.carryOut settings l.function [.value l.given] =
      .ok (.value (.number (.rational l.value))) := by
    unfold Sketch.carryOut
    simp only [hvalues, applyBuiltin_given hl, Except.map]
  unfold Sketch.call
  simp only [List.all_cons, List.all_nil, decide_true, Bool.and_self, if_true, hheld, Bool.false_eq_true, if_false,
    hcarried]

/-- The formula of an expression can be sketched; only quotients and powers bring powers into the sketch. -/
theorem draft_formula (hscope : scope.LeavesReserved) {e : Arithmetic} (he : ∀ l ∈ e.literals, l.IsReadable)
    (hnames : ∀ word ∈ e.names, ∃ p, scope.rational? word = some p) :
    ∃ d, e.formula.draft settings scope = .ok d ∧ d.IsArithmetic ∧ (e.IsPowerFree → d.powers settings = []) := by
  induction e with
  | literal l =>
    refine ⟨.finished (.value (.number (.rational l.value))), ?_, .finished (.rational _), fun _ => ?_⟩
    · have hl : l.IsReadable := he l (by simp [Arithmetic.literals])
      simp [Arithmetic.formula, Formula.draft, nameOutcome_exactWord hscope, Draft.sketchOf, Draft.close, bind,
        Except.bind, Except.map, draft_argument, call_given settings hl, pure, Except.pure]
    · simp [Draft.powers, Sketch.powers, Term.powers]
  | name word =>
    obtain ⟨p, hp⟩ := hnames word (by simp [Arithmetic.names])
    refine ⟨.finished (.value (.number (.rational p))), ?_, .finished (.rational p), fun _ => ?_⟩
    · simp [Arithmetic.formula, Formula.draft, nameOutcome_of_rational? hp, Except.map]
    · simp [Draft.powers, Sketch.powers, Term.powers]
  | negation operand ih =>
    obtain ⟨d, hd, hdArithmetic, hdPowers⟩ := ih he hnames
    obtain ⟨s, hs, hsArithmetic, hsPowers⟩ := hdArithmetic.close settings
    obtain ⟨t, ht, htArithmetic, htPowers⟩ := hsArithmetic.minus settings
    refine ⟨.finished t, ?_, .finished htArithmetic, fun hfree => ?_⟩
    · simp [Arithmetic.formula, Formula.draft, hd, Draft.sketchOf, bind, Except.bind, hs, ht, pure, Except.pure]
    · rw [Draft.powers, htPowers, hsPowers, hdPowers hfree]
  | operation op left right ihl ihr =>
    simp only [Arithmetic.literals, Arithmetic.names, List.mem_append] at he hnames
    obtain ⟨d, hd, hdArithmetic, hdPowers⟩ :=
      ihl (fun l hl => he l (.inl hl)) (fun word hword => hnames word (.inl hword))
    obtain ⟨d', hd', hdArithmetic', hdPowers'⟩ :=
      ihr (fun l hl => he l (.inr hl)) (fun word hword => hnames word (.inr hword))
    obtain ⟨joined, hjoined, hArithmetic, hPowers⟩ := hdArithmetic.join settings hdArithmetic' op
    refine ⟨joined, ?_, hArithmetic, fun hfree => ?_⟩
    · rw [Arithmetic.formula, ← hjoined, ← hd, ← hd']
      cases op <;> rfl
    · rw [hPowers hfree.1, hdPowers hfree.2.1, hdPowers' hfree.2.2]
      rfl

/-- The formula of an expression has a sketch, which asks for no rounding if it has neither quotients nor powers. -/
theorem sketch_formula (hscope : scope.LeavesReserved) {e : Arithmetic} (he : ∀ l ∈ e.literals, l.IsReadable)
    (hnames : ∀ word ∈ e.names, ∃ p, scope.rational? word = some p) :
    ∃ s, e.formula.sketch settings scope = .ok s ∧ (e.IsPowerFree → s.needsRounding settings = .ok false) := by
  obtain ⟨d, hd, hdArithmetic, hdPowers⟩ := draft_formula settings hscope he hnames
  obtain ⟨s, hs, _, hsPowers⟩ := hdArithmetic.close settings
  refine ⟨s, ?_, fun hfree => ?_⟩
  · rw [Formula.sketch, hd]
    exact hs
  · rw [Sketch.needsRounding, hsPowers, hdPowers hfree]
    split <;> rfl

end Sketches

end Reckoner.Expression
