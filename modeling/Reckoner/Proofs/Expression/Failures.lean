import Mathlib.Tactic.Common
import Reckoner.Expression.Engine
import Reckoner.Proofs.Expression.Steps

/-!
# Failures with a code

Every operation on values fails with a code.  Formulas can fail without one only by an index, and sketches only where
something that is no number has to be rounded.
-/

namespace Reckoner.Expression

open Reckoner.Algebra

/-- An outcome is reported if it is a value or a failure with a code. -/
def Reported {α : Type} (o : Except Failure α) : Prop := ∀ f, o = .error f → f.code?.isSome

section Outcomes

variable {α β : Type} {o : Except Failure α}

@[simp] theorem reported_ok (a : α) : Reported (.ok a : Except Failure α) := fun _ h => nomatch h

@[simp] theorem reported_error {f : Failure} : Reported (.error f : Except Failure α) ↔ f.code?.isSome := by
  constructor
  · exact fun h => h f rfl
  · rintro h _ ⟨⟩
    exact h

theorem reported_evaluation : Reported (.error .evaluation : Except Failure α) := reported_error.mpr rfl

theorem Reported.bind {k : α → Except Failure β} (h : Reported o) (hk : ∀ a, o = .ok a → Reported (k a)) :
    Reported (o >>= k) := by
  cases o with
  | error f => exact reported_error.mpr (h f rfl)
  | ok a => exact hk a rfl

theorem Reported.map {g : α → β} (h : Reported o) : Reported (o.map g) := by
  cases o with
  | error f => exact reported_error.mpr (h f rfl)
  | ok a => exact reported_ok _

theorem Reported.forIn {items : List β} {step : β → α → Except Failure (ForInStep α)}
    (h : ∀ item a, Reported (step item a)) (first : α) : Reported (forIn items first step) := by
  induction items generalizing first with
  | nil => exact reported_ok _
  | cons item rest ih =>
    rw [List.forIn_cons]
    refine (h item first).bind fun next _ => ?_
    cases next with
    | done a => exact reported_ok _
    | yield a => exact ih a

end Outcomes

/-! ### Operations on values -/

theorem reported_nameOutcome (scope : Scope) (word : String) : Reported (nameOutcome scope word) := by
  fun_cases nameOutcome scope word <;> simp [Failure.code?]

@[simp] theorem reported_orFailure (t : Option Term) : Reported (orFailure t) := by
  fun_cases orFailure t <;> simp [Failure.code?]

@[simp] theorem reported_operateNumbers (op : BinaryOperator) (a b : Term) : Reported (operateNumbers op a b) := by
  fun_cases operateNumbers op a b <;> simp [Failure.code?]

theorem reported_operate (op : BinaryOperator) (v w : Value) : Reported (operate op v w) := by
  fun_cases operate op v w <;> simp [Failure.code?, *]

theorem reported_operateUnary (op : UnaryOperator) (v : Value) : Reported (operateUnary op v) := by
  fun_cases operateUnary op v <;> simp [Failure.code?]

theorem reported_compareNumbers (sign : Comparator) (a b : Term) : Reported (compareNumbers sign a b) := by
  fun_cases compareNumbers sign a b <;> simp [Failure.code?]

theorem reported_compareValues (sign : Comparator) (v w : Value) : Reported (compareValues sign v w) := by
  fun_cases compareValues sign v w <;> simp [Failure.code?, reported_compareNumbers]

theorem reported_decideTruth (v : Value) : Reported (decideTruth v) := by
  fun_cases decideTruth v <;> simp [Failure.code?]

theorem reported_makeRational (arguments : List Value) : Reported (makeRational arguments) := by
  fun_cases makeRational arguments <;> simp [Failure.code?, *]

theorem reported_makeWhole (arguments : List Value) : Reported (makeWhole arguments) := by
  fun_cases makeWhole arguments <;> simp [Failure.code?]

theorem reported_makeRounded (bits : Nat) (arguments : List Value) : Reported (makeRounded bits arguments) := by
  fun_cases makeRounded bits arguments <;> simp [Failure.code?]

theorem reported_applyToNumber (f : Builtin) (t : Term) : Reported (applyToNumber f t) := by
  fun_cases applyToNumber f t <;> simp [Failure.code?]

theorem reported_applyBuiltin (bits : Nat) (f : Builtin) (arguments : List Value) :
    Reported (applyBuiltin bits f arguments) := by
  fun_cases applyBuiltin bits f arguments <;>
    simp [Failure.code?, reported_makeRational, reported_makeWhole, reported_makeRounded, reported_applyToNumber, *]

theorem reported_callValue (bits : Nat) (f : Value) (labels : List String) (arguments : List Value) :
    Reported (callValue bits f labels arguments) := by
  unfold callValue
  split
  · refine (Reported.forIn (fun entry _ => ?_) _).bind fun sorted _ => ?_
    · obtain ⟨label, v⟩ := entry
      dsimp only
      split_ifs
      · exact reported_ok _
      · split
        · exact reported_ok _
        · exact reported_ok _
        · exact reported_evaluation
      · exact reported_ok _
    · dsimp only
      split
      · exact reported_applyBuiltin _ _ _
      · split
        · exact reported_applyBuiltin _ _ _
        · exact reported_evaluation
      · exact reported_evaluation
  · exact reported_evaluation

/-! ### Values of formulas -/

mutual

/-- Whether no item is taken by its index in a formula. -/
def Formula.isIndexFree : Formula → Bool
  | .name _ => true
  | .numeral _ => true
  | .quotation _ => true
  | .constant _ => true
  | .unary _ operand => operand.isIndexFree
  | .binary _ left right => left.isIndexFree && right.isIndexFree
  | .comparison first _ others => first.isIndexFree && Formula.areIndexFree others
  | .junction _ operands => Formula.areIndexFree operands
  | .negation operand => operand.isIndexFree
  | .conditional test yes no => test.isIndexFree && yes.isIndexFree && no.isIndexFree
  | .call f _ arguments => f.isIndexFree && Formula.areIndexFree arguments
  | .subscript _ _ => false
  | .member object _ => object.isIndexFree
  | .binding _ value => value.isIndexFree
  | .tuple items => Formula.areIndexFree items
  | .list items => Formula.areIndexFree items
  | .set items => Formula.areIndexFree items
  | .dictionary keys values => Formula.areIndexFree keys && Formula.areIndexFree values

def Formula.areIndexFree : List Formula → Bool
  | [] => true
  | f :: rest => f.isIndexFree && Formula.areIndexFree rest

end

section Formulas

open Formula

variable (bits : Nat) (scope : Scope)

mutual

theorem reported_evaluate : ∀ f : Formula, f.isIndexFree → Reported (f.evaluate bits scope)
  | .name word, _ => reported_nameOutcome scope word
  | .numeral _, _ => reported_ok _
  | .quotation _, _ => reported_ok _
  | .constant _, _ => reported_ok _
  | .unary op operand, h => by
    rw [evaluate_unary]
    exact (reported_evaluate operand h).bind fun v _ => reported_operateUnary op v
  | .binary op left right, h => by
    simp only [isIndexFree, Bool.and_eq_true] at h
    rw [evaluate_binary]
    refine (reported_evaluate left h.1).bind fun v _ => ?_
    exact (reported_evaluate right h.2).bind fun w _ => reported_operate op v w
  | .comparison first signs others, h => by
    simp only [isIndexFree, Bool.and_eq_true] at h
    rw [evaluate_comparison]
    exact (reported_evaluate first h.1).bind fun v _ => reported_evaluateChain others h.2 v signs
  | .junction isConjunction operands, h => reported_evaluateJunction isConjunction operands h
  | .negation operand, h => by
    rw [evaluate_negation]
    refine (reported_evaluate operand h).bind fun v _ => ?_
    exact (reported_decideTruth v).bind fun b _ => reported_ok _
  | .conditional test yes no, h => by
    simp only [isIndexFree, Bool.and_eq_true] at h
    rw [evaluate_conditional]
    refine (reported_evaluate test h.1.1).bind fun v _ => (reported_decideTruth v).bind fun b _ => ?_
    split
    · exact reported_evaluate yes h.1.2
    · exact reported_evaluate no h.2
  | .call f labels arguments, h => by
    simp only [isIndexFree, Bool.and_eq_true] at h
    rw [evaluate_call]
    refine (reported_evaluate f h.1).bind fun g _ => ?_
    exact (reported_evaluateAll arguments h.2).bind fun vs _ => reported_callValue bits g labels vs
  | .member object word, h => by
    rw [evaluate_member]
    exact (reported_evaluate object h).bind fun _ _ => reported_evaluation
  | .binding _ value, h => reported_evaluate value h
  | .tuple items, h => (reported_evaluateAll items h).map
  | .list items, h => (reported_evaluateAll items h).map
  | .set items, h => (reported_evaluateAll items h).map
  | .dictionary keys values, h => by
    simp only [isIndexFree, Bool.and_eq_true] at h
    rw [evaluate_dictionary]
    exact (reported_evaluateAll keys h.1).bind fun ks _ => (reported_evaluateAll values h.2).map

theorem reported_evaluateAll : ∀ items : List Formula, areIndexFree items → Reported (evaluateAll bits scope items)
  | [], _ => reported_ok _
  | f :: rest, h => by
    simp only [areIndexFree, Bool.and_eq_true] at h
    rw [evaluateAll_cons]
    exact (reported_evaluate f h.1).bind fun v _ => (reported_evaluateAll rest h.2).map

theorem reported_evaluateChain : ∀ others : List Formula, areIndexFree others →
    ∀ (v : Value) (signs : List Comparator), Reported (evaluateChain bits scope v signs others)
  | [], _, _, signs => by cases signs <;> exact reported_ok _
  | _ :: _, _, _, [] => reported_ok _
  | f :: rest, h, v, sign :: signs => by
    simp only [areIndexFree, Bool.and_eq_true] at h
    rw [evaluateChain_cons]
    refine (reported_evaluate f h.1).bind fun w _ => (reported_compareValues sign v w).bind fun verdict _ => ?_
    split_ifs
    · exact reported_ok _
    · refine (reported_decideTruth verdict).bind fun b _ => ?_
      split_ifs
      · exact reported_evaluateChain rest h.2 w signs
      · exact reported_ok _

theorem reported_evaluateJunction (isConjunction : Bool) : ∀ operands : List Formula, areIndexFree operands →
    Reported (evaluateJunction bits scope isConjunction operands)
  | [], _ => reported_ok _
  | f :: rest, h => by
    simp only [areIndexFree, Bool.and_eq_true] at h
    rw [evaluateJunction_cons]
    refine (reported_evaluate f h.1).bind fun v _ => ?_
    split_ifs
    · exact reported_ok _
    · refine (reported_decideTruth v).bind fun b _ => ?_
      split_ifs
      · exact reported_evaluateJunction isConjunction rest h.2
      · exact reported_ok _

end

end Formulas

/-! ### Settled sketches -/

mutual

/-- Whether a sketch is made of numbers and of comparisons between them. -/
def Sketch.isNumeric : Sketch → Bool
  | .value (.number _) => true
  | .value (.relation _) => true
  | .value _ => false
  | .sum items => Sketch.areNumeric items
  | .product items => Sketch.areNumeric items
  | .power base exponent => base.isNumeric && exponent.isNumeric
  | .apply _ arguments => Sketch.areNumeric arguments
  | .comparison _ left right => left.isNumeric && right.isNumeric
  | .conjunction _ => false
  | .bundle _ => false
  | .set _ => false
  | .dictionary _ _ => false

def Sketch.areNumeric : List Sketch → Bool
  | [] => true
  | s :: rest => s.isNumeric && Sketch.areNumeric rest

end

section Sketches

variable (settings : Settings)

mutual

theorem reported_settle : ∀ s : Sketch, s.isNumeric → Reported (s.settle settings)
  | .value (.number _), _ => reported_ok _
  | .value (.relation _), _ => reported_ok _
  | .sum items, h => (reported_settleNumbers items h).map
  | .product items, h => (reported_settleNumbers items h).map
  | .power base exponent, h => by
    simp only [Sketch.isNumeric, Bool.and_eq_true] at h
    have hbase := reported_settle base h.1
    have hexponent := reported_settle exponent h.2
    rw [Sketch.settle]
    cases hv : base.settle settings with
    | error f => exact reported_error.mpr (hbase f hv)
    | ok v =>
      cases hw : exponent.settle settings with
      | error f => exact reported_error.mpr (hexponent f hw)
      | ok w =>
        dsimp only
        split
        · exact reported_ok _
        · exact reported_evaluation
  | .apply f arguments, h => by
    have harguments := reported_settleNumbers arguments h
    rw [Sketch.settle]
    cases hts : Sketch.settleNumbers settings arguments with
    | error f => exact reported_error.mpr (harguments f hts)
    | ok ts => exact reported_applyBuiltin _ _ _
  | .comparison sign left right, h => by
    simp only [Sketch.isNumeric, Bool.and_eq_true] at h
    have hleft := reported_settle left h.1
    have hright := reported_settle right h.2
    rw [Sketch.settle]
    cases hv : left.settle settings with
    | error f => exact reported_error.mpr (hleft f hv)
    | ok v =>
      cases hw : right.settle settings with
      | error f => exact reported_error.mpr (hright f hw)
      | ok w => exact (reported_compareValues sign v w).map

theorem reported_settleNumbers : ∀ items : List Sketch, Sketch.areNumeric items →
    Reported (Sketch.settleNumbers settings items)
  | [], _ => reported_ok _
  | s :: rest, h => by
    simp only [Sketch.areNumeric, Bool.and_eq_true] at h
    have hs := reported_settle s h.1
    rw [Sketch.settleNumbers]
    cases hv : s.settle settings with
    | error f => exact reported_error.mpr (hs f hv)
    | ok v =>
      cases v with
      | number t => exact (reported_settleNumbers rest h.2).map
      | _ => exact reported_evaluation

end

theorem reported_joinOperands (join : List Sketch → Sketch) (items : List Sketch) :
    Reported (Sketch.joinOperands join items) := by
  fun_cases Sketch.joinOperands join items <;> simp [Failure.code?]

theorem reported_unary (op : UnaryOperator) (s : Sketch) : Reported (s.unary op) := by
  fun_cases Sketch.unary op s <;> simp [Failure.code?, Reported.map, reported_operateUnary]

theorem reported_conjoin (items : List Sketch) : Reported (Sketch.conjoin items) := by
  fun_cases Sketch.conjoin items <;> simp [Failure.code?, *]

theorem reported_sketch_decideTruth (s : Sketch) : Reported s.decideTruth := by
  fun_cases Sketch.decideTruth s <;> simp [Failure.code?, reported_decideTruth]

theorem reported_settled (f : Builtin) (arguments : List Sketch) :
    Reported (Sketch.carryOut.settled settings f arguments) := by
  fun_cases Sketch.carryOut.settled settings f arguments <;>
    simp [Failure.code?, Reported.map, reported_applyBuiltin, *]

theorem reported_carryOut (f : Builtin) (arguments : List Sketch) : Reported (Sketch.carryOut settings f arguments) := by
  fun_cases Sketch.carryOut settings f arguments <;>
    simp [Failure.code?, Reported.map, reported_applyBuiltin, reported_settled, *]

theorem reported_call (word : String) (f : Value) (labels : List String) (arguments : List Sketch) :
    Reported (Sketch.call settings word f labels arguments) := by
  unfold Sketch.call
  cases f with
  | function f =>
    simp only
    split_ifs
    · exact reported_evaluation
    · exact reported_evaluation
    · split <;> exact reported_ok _
    · exact reported_carryOut _ f arguments
    · split
      · exact (reported_callValue _ _ _ _).map
      · split
        · exact reported_carryOut _ _ _
        · exact reported_evaluation
  | _ => exact reported_evaluation

theorem reported_close (d : Draft) : Reported d.close := by
  cases d with
  | finished s => exact reported_ok _
  | sum items => exact reported_joinOperands _ _
  | product items => exact reported_joinOperands _ _

theorem reported_summands (d : Draft) : Reported d.summands := by
  unfold Draft.summands
  split
  · exact reported_ok _
  · exact (reported_close d).map

theorem reported_factors (d : Draft) : Reported d.factors := by
  unfold Draft.factors
  split
  · exact reported_ok _
  · exact (reported_close d).map

variable {settings}

theorem reported_sketchOf {d : Except Failure Draft} (h : Reported d) : Reported (Draft.sketchOf d) :=
  h.bind fun d _ => reported_close d

theorem reported_join (op : BinaryOperator) {d e : Except Failure Draft} (hd : Reported d) (he : Reported e) :
    Reported (Draft.join op d e) := by
  have hsummands {d : Except Failure Draft} (h : Reported d) : Reported (d.bind Draft.summands) :=
    h.bind fun d _ => reported_summands d
  have hfactors {d : Except Failure Draft} (h : Reported d) : Reported (d.bind Draft.factors) :=
    h.bind fun d _ => reported_factors d
  cases op with
  | add => exact (hsummands hd).bind fun xs _ => (hsummands he).bind fun ys _ => reported_ok _
  | sub =>
    refine (hsummands hd).bind fun xs _ => (reported_sketchOf he).bind fun s _ => ?_
    exact (reported_joinOperands _ _).bind fun negated _ => reported_ok _
  | mul => exact (hfactors hd).bind fun xs _ => (hfactors he).bind fun ys _ => reported_ok _
  | div =>
    refine (hfactors hd).bind fun xs _ => (reported_sketchOf he).bind fun s _ => ?_
    split_ifs
    · exact reported_ok _
    · exact reported_evaluation
  | power =>
    refine (reported_sketchOf hd).bind fun s _ => (reported_sketchOf he).bind fun t _ => ?_
    split_ifs
    · exact reported_ok _
    · exact reported_evaluation
  | meet =>
    refine (reported_sketchOf hd).bind fun s _ => (reported_sketchOf he).bind fun t _ => ?_
    exact (reported_conjoin _).bind fun u _ => reported_ok _
  | _ => exact reported_evaluation

section Drafts

open Formula

variable (settings) (scope : Scope)

theorem reported_carryOut_formula (op : BinaryOperator) {left right : Formula} (hleft : left.isIndexFree)
    (hright : right.isIndexFree) : Reported (Formula.carryOut settings scope op left right) := by
  refine (reported_evaluate _ scope left hleft).bind fun v _ => ?_
  refine (reported_evaluate _ scope right hright).bind fun w _ => ?_
  exact (reported_operate op v w).bind fun u _ => reported_ok _

mutual

theorem reported_draft : ∀ f : Formula, f.isIndexFree → Reported (f.draft settings scope)
  | .name word, _ => (reported_nameOutcome scope word).map
  | .numeral _, _ => reported_ok _
  | .quotation _, _ => reported_ok _
  | .constant _, _ => reported_ok _
  | .unary op operand, h => by
    rw [draft]
    refine (reported_sketchOf (reported_draft operand h)).bind fun s _ => ?_
    exact (reported_unary op s).bind fun _ _ => reported_ok _
  | .binary op left right, h => by
    simp only [isIndexFree, Bool.and_eq_true] at h
    have hleft := reported_draft left h.1
    have hright := reported_draft right h.2
    have hcarried := reported_carryOut_formula settings scope op h.1 h.2
    cases op with
    | join =>
      rw [draft]
      split_ifs
      · refine (reported_sketchOf hleft).bind fun _ _ => (reported_sketchOf hright).bind fun _ _ => ?_
        exact reported_evaluation
      · exact reported_evaluation
    | remainder | quotient | shiftLeft | shiftRight | matrix => exact hcarried.map
    | add => exact reported_join .add hleft hright
    | sub => exact reported_join .sub hleft hright
    | mul => exact reported_join .mul hleft hright
    | div => exact reported_join .div hleft hright
    | power => exact reported_join .power hleft hright
    | meet => exact reported_join .meet hleft hright
  | .comparison first signs others, h => by
    simp only [isIndexFree, Bool.and_eq_true] at h
    rw [draft]
    split_ifs
    · exact reported_evaluation
    · refine (reported_sketchOf (reported_draft first h.1)).bind fun s _ => ?_
      refine (reported_draftChain others h.2 s signs).bind fun cs _ => ?_
      split
      · exact reported_ok _
      · exact (reported_conjoin _).bind fun _ _ => reported_ok _
  | .junction isConjunction operands, h => (reported_draftJunction isConjunction operands h).map
  | .negation operand, h => by
    rw [draft]
    refine (reported_sketchOf (reported_draft operand h)).bind fun s _ => ?_
    exact (reported_sketch_decideTruth s).bind fun _ _ => reported_ok _
  | .conditional test yes no, h => by
    simp only [isIndexFree, Bool.and_eq_true] at h
    rw [draft]
    refine (reported_sketchOf (reported_draft test h.1.1)).bind fun s _ => ?_
    refine (reported_sketch_decideTruth s).bind fun b _ => ?_
    dsimp only
    split_ifs
    · exact (reported_sketchOf (reported_draft yes h.1.2)).bind fun _ _ => reported_ok _
    · exact (reported_sketchOf (reported_draft no h.2)).bind fun _ _ => reported_ok _
  | .call f labels arguments, h => by
    simp only [isIndexFree, Bool.and_eq_true] at h
    rw [draft]
    refine (reported_sketchOf (reported_draft f h.1)).bind fun g _ => ?_
    refine (reported_draftAll arguments h.2).bind fun items _ => ?_
    split
    · exact (reported_call settings _ _ _ _).bind fun _ _ => reported_ok _
    · exact (reported_call settings _ _ _ _).bind fun _ _ => reported_ok _
    · exact reported_evaluation
  | .member object word, h => by
    rw [draft]
    exact (reported_sketchOf (reported_draft object h)).bind fun _ _ => reported_evaluation
  | .binding _ value, h => (reported_sketchOf (reported_draft value h)).map
  | .tuple items, h => (reported_draftAll items h).map
  | .list items, h => (reported_draftAll items h).map
  | .set items, h => (reported_draftAll items h).map
  | .dictionary keys values, h => by
    simp only [isIndexFree, Bool.and_eq_true] at h
    rw [draft]
    refine (reported_draftAll keys h.1).bind fun ks _ => ?_
    exact (reported_draftAll values h.2).bind fun vs _ => reported_ok _

theorem reported_draftAll : ∀ items : List Formula, areIndexFree items → Reported (draftAll settings scope items)
  | [], _ => reported_ok _
  | f :: rest, h => by
    simp only [areIndexFree, Bool.and_eq_true] at h
    rw [draftAll]
    refine (reported_sketchOf (reported_draft f h.1)).bind fun s _ => ?_
    exact (reported_draftAll rest h.2).bind fun _ _ => reported_ok _

theorem reported_draftChain : ∀ others : List Formula, areIndexFree others →
    ∀ (s : Sketch) (signs : List Comparator), Reported (draftChain settings scope s signs others)
  | [], _, _, signs => by cases signs <;> exact reported_ok _
  | _ :: _, _, _, [] => reported_ok _
  | f :: rest, h, s, sign :: signs => by
    simp only [areIndexFree, Bool.and_eq_true] at h
    rw [draftChain]
    refine (reported_sketchOf (reported_draft f h.1)).bind fun t _ => ?_
    exact (reported_draftChain rest h.2 t signs).bind fun _ _ => reported_ok _

theorem reported_draftJunction (isConjunction : Bool) : ∀ operands : List Formula, areIndexFree operands →
    Reported (draftJunction settings scope isConjunction operands)
  | [], _ => reported_ok _
  | f :: rest, h => by
    simp only [areIndexFree, Bool.and_eq_true] at h
    rw [draftJunction]
    refine (reported_sketchOf (reported_draft f h.1)).bind fun s _ => ?_
    cases rest with
    | nil => exact reported_ok _
    | cons next rest =>
      refine (reported_sketch_decideTruth s).bind fun b _ => ?_
      split_ifs
      · exact reported_draftJunction isConjunction (next :: rest) h.2
      · exact reported_ok _

end

end Drafts

end Sketches

end Reckoner.Expression
