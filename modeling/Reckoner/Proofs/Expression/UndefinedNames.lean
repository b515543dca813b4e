import Reckoner.Proofs.Expression.Assignment
import Reckoner.Proofs.Expression.FailureCodes
import Reckoner.Proofs.Expression.VainCalls
import Reckoner.Proofs.Expression.Words

/-!
# Undefined names

A call in vain fails, because no operation of arithmetic gives a function.  So a formula of arithmetic with such a call
fails as soon as the call is reached.  The sketch of a formula reaches every part of it, except that the operands of
some operators are evaluated instead, and there a chain of comparisons stops at the first one that does not hold.
-/

namespace Reckoner.Expression

open Reckoner.Algebra Reckoner.Text

/-! ### Outcomes -/

def Fails {α : Type} (o : Except Failure α) : Prop := ∃ f, o = .error f

/-- Whatever an outcome gives has a property. -/
def Gives {α : Type} (Q : α → Prop) (o : Except Failure α) : Prop := ∀ a, o = .ok a → Q a

section Outcomes

variable {α β : Type} {Q : α → Prop} {R : β → Prop} {o : Except Failure α} {k : α → Except Failure β}

@[simp] theorem fails_error (f : Failure) : Fails (.error f : Except Failure α) := ⟨f, rfl⟩

theorem Fails.bind (h : Fails o) (k : α → Except Failure β) : Fails (o >>= k) := by
  obtain ⟨f, rfl⟩ := h
  exact ⟨f, rfl⟩

theorem Fails.map (h : Fails o) (g : α → β) : Fails (o.map g) := by
  obtain ⟨f, rfl⟩ := h
  exact ⟨f, rfl⟩

theorem fails_bind (h : ∀ a, o = .ok a → Fails (k a)) : Fails (o >>= k) := by
  cases o with
  | error f => exact ⟨f, rfl⟩
  | ok a => exact h a rfl

@[simp] theorem gives_error (f : Failure) : Gives Q (.error f) := fun _ h => nomatch h

@[simp] theorem gives_ok {a : α} : Gives Q (.ok a) ↔ Q a := by simp [Gives]

theorem gives_bind (h : ∀ a, o = .ok a → Gives R (k a)) : Gives R (o >>= k) := by
  cases o with
  | error f => exact gives_error f
  | ok a => exact h a rfl

theorem Gives.bind (h : Gives Q o) (hk : ∀ a, Q a → Gives R (k a)) : Gives R (o >>= k) :=
  gives_bind fun a ha => hk a (h a ha)

theorem Gives.map {g : α → β} (h : Gives Q o) (hg : ∀ a, Q a → R (g a)) : Gives R (o.map g) := by
  cases o with
  | error f => exact gives_error f
  | ok a => exact gives_ok.mpr (hg a (h a rfl))

end Outcomes

/-! ### Values that are no functions -/

/-- A value that is no function. -/
def Value.IsPlain (v : Value) : Prop := v.isFunction = false

section Values

open Value

@[simp] theorem isPlain_number (t : Term) : (number t).IsPlain := rfl

@[simp] theorem isPlain_truth (b : Bool) : (truth b).IsPlain := rfl

@[simp] theorem isPlain_flag (b : Bool) : (flag b).IsPlain := rfl

@[simp] theorem isPlain_tuple (items : List Value) : (tuple items).IsPlain := rfl

@[simp] theorem isPlain_relation (names : List String) : (relation names).IsPlain := rfl

@[simp] theorem gives_orFailure (t : Option Term) : Gives IsPlain (orFailure t) := by
  fun_cases orFailure t <;> simp

@[simp] theorem gives_operateNumbers (op : BinaryOperator) (a b : Term) : Gives IsPlain (operateNumbers op a b) := by
  fun_cases operateNumbers op a b <;> simp

theorem gives_operate (op : BinaryOperator) (v w : Value) : Gives IsPlain (operate op v w) := by
  fun_cases operate op v w <;> simp [*]

theorem gives_operateUnary (op : UnaryOperator) (v : Value) : Gives IsPlain (operateUnary op v) := by
  fun_cases operateUnary op v <;> simp

theorem gives_compareNumbers (sign : Comparator) (a b : Term) : Gives IsPlain (compareNumbers sign a b) := by
  fun_cases compareNumbers sign a b <;> simp

theorem gives_compareValues (sign : Comparator) (v w : Value) : Gives IsPlain (compareValues sign v w) := by
  fun_cases compareValues sign v w <;> simp [gives_compareNumbers]

theorem gives_makeRational (arguments : List Value) : Gives IsPlain (makeRational arguments) := by
  fun_cases makeRational arguments <;> simp [*]

theorem gives_makeWhole (arguments : List Value) : Gives IsPlain (makeWhole arguments) := by
  fun_cases makeWhole arguments <;> simp

theorem gives_makeRounded (bits : Nat) (arguments : List Value) : Gives IsPlain (makeRounded bits arguments) := by
  fun_cases makeRounded bits arguments <;> simp

theorem gives_applyToNumber (f : Builtin) (t : Term) : Gives IsPlain (applyToNumber f t) := by
  fun_cases applyToNumber f t <;> simp

theorem gives_applyBuiltin (bits : Nat) (f : Builtin) (arguments : List Value) :
    Gives IsPlain (applyBuiltin bits f arguments) := by
  fun_cases applyBuiltin bits f arguments <;>
    simp [gives_makeRational, gives_makeWhole, gives_makeRounded, gives_applyToNumber, *]

theorem gives_callValue (bits : Nat) (f : Value) (labels : List String) (arguments : List Value) :
    Gives IsPlain (callValue bits f labels arguments) := by
  unfold callValue
  split
  · refine gives_bind fun sorted _ => ?_
    dsimp only
    split
    · exact gives_applyBuiltin _ _ _
    · split
      · exact gives_applyBuiltin _ _ _
      · exact gives_error _
    · exact gives_error _
  · exact gives_error _

/-! ### Calls that fail -/

theorem callValue_plain (bits : Nat) {v : Value} (h : v.IsPlain) (labels : List String) (arguments : List Value) :
    Fails (callValue bits v labels arguments) := by
  cases v with
  | function f => cases h
  | _ => exact fails_error _

theorem applyBuiltin_symbol (bits : Nat) (arguments : List Value) : Fails (applyBuiltin bits .symbol arguments) := by
  unfold applyBuiltin
  split <;> simp_all

theorem callValue_symbol (bits : Nat) (labels : List String) (arguments : List Value) :
    Fails (callValue bits (.function .symbol) labels arguments) := by
  unfold callValue
  refine fails_bind fun sorted _ => ?_
  dsimp only
  split
  · exact applyBuiltin_symbol bits _
  · exact fails_error _
  · exact fails_error _

end Values

/-! ### Sketches that are no functions -/

def Sketch.IsPlain : Sketch → Prop
  | .value v => v.IsPlain
  | _ => True

def Draft.IsPlain : Draft → Prop
  | .finished s => s.IsPlain
  | _ => True

section Sketches

open Sketch

variable (settings : Settings)

theorem gives_value {o : Outcome} (h : Gives Value.IsPlain o) : Gives Sketch.IsPlain (o.map .value) := h.map fun _ => id

theorem gives_unary (op : UnaryOperator) (s : Sketch) : Gives IsPlain (s.unary op) := by
  fun_cases Sketch.unary op s <;> simp [IsPlain, gives_value, gives_operateUnary]

theorem gives_joinOperands {join : List Sketch → Sketch} (hjoin : ∀ items, (join items).IsPlain) (items : List Sketch) :
    Gives IsPlain (joinOperands join items) := by
  unfold joinOperands
  split_ifs
  · exact gives_ok.mpr (hjoin items)
  · exact gives_error _

theorem gives_close {d : Draft} (h : d.IsPlain) : Gives IsPlain d.close := by
  cases d with
  | finished s => exact gives_ok.mpr h
  | sum items => exact @gives_joinOperands .sum (fun _ => trivial) items
  | product items => exact @gives_joinOperands .product (fun _ => trivial) items

theorem gives_sketchOf {d : Except Failure Draft} (h : Gives Draft.IsPlain d) : Gives IsPlain (Draft.sketchOf d) :=
  h.bind fun _ => gives_close

theorem isPlain_asCondition? (s : Sketch) : ∀ t ∈ asCondition? s, t.IsPlain := by
  unfold asCondition?
  split
  case h_4 =>
    split_ifs
    · exact forall_mem_some rfl
    · exact forall_mem_some rfl
    · exact forall_mem_none
  case h_7 => exact forall_mem_none
  all_goals exact forall_mem_some (by trivial)

theorem isPlain_conditions (items : List Sketch) :
    ∀ conditions ∈ items.mapM asCondition?, ∀ t ∈ conditions, t.IsPlain := by
  induction items with
  | nil => exact forall_mem_some (List.forall_mem_nil _)
  | cons s rest ih =>
    rw [List.mapM_cons]
    refine forall_mem_bind (isPlain_asCondition? s) fun t ht => forall_mem_bind ih fun conditions hconditions => ?_
    exact forall_mem_some (List.forall_mem_cons.mpr ⟨ht, hconditions⟩)

theorem gives_conjoin (items : List Sketch) : Gives IsPlain (conjoin items) := by
  unfold conjoin
  split
  · exact gives_error _
  · rename_i conditions hconditions
    split_ifs
    · exact gives_ok.mpr rfl
    · split
      · exact gives_ok.mpr rfl
      · rename_i s hs
        have hmem := List.mem_of_mem_filter (hs ▸ List.mem_singleton_self s)
        exact gives_ok.mpr (isPlain_conditions items conditions hconditions s hmem)
      · exact gives_ok.mpr trivial

theorem gives_join (op : BinaryOperator) (d e : Except Failure Draft) : Gives Draft.IsPlain (Draft.join op d e) := by
  cases op with
  | add => exact gives_bind fun xs _ => gives_bind fun ys _ => gives_ok.mpr trivial
  | sub => exact gives_bind fun xs _ => gives_bind fun s _ => gives_bind fun negated _ => gives_ok.mpr trivial
  | mul => exact gives_bind fun xs _ => gives_bind fun ys _ => gives_ok.mpr trivial
  | div =>
    refine gives_bind fun xs _ => gives_bind fun s _ => ?_
    split_ifs
    · exact gives_ok.mpr trivial
    · exact gives_error _
  | power =>
    refine gives_bind fun s _ => gives_bind fun t _ => ?_
    split_ifs
    · exact gives_ok.mpr trivial
    · exact gives_error _
  | meet => exact gives_bind fun s _ => gives_bind fun t _ => (gives_conjoin _).bind fun u hu => gives_ok.mpr hu
  | _ => exact gives_error _

theorem gives_settled (f : Builtin) (arguments : List Sketch) :
    Gives IsPlain (carryOut.settled settings f arguments) := by
  fun_cases Sketch.carryOut.settled settings f arguments <;> simp [IsPlain, gives_value, gives_applyBuiltin]

theorem isPlain_powerRemainder? (arguments : List Sketch) : ∀ v ∈ powerRemainder? arguments, v.IsPlain := by
  unfold powerRemainder?
  split
  · split_ifs
    · exact forall_mem_some rfl
    · exact forall_mem_none
  · exact forall_mem_none

theorem gives_carryOut (f : Builtin) (arguments : List Sketch) : Gives IsPlain (carryOut settings f arguments) := by
  fun_cases Sketch.carryOut settings f arguments <;>
    simp [gives_value, gives_applyBuiltin, gives_settled]
  exact isPlain_powerRemainder? _ _ ‹_›

theorem gives_call (word : String) (f : Value) (labels : List String) (arguments : List Sketch) :
    Gives IsPlain (call settings word f labels arguments) := by
  unfold call
  cases f with
  | function f =>
    simp only
    split_ifs
    · exact gives_error _
    · exact gives_error _
    · split <;> exact gives_ok.mpr trivial
    · exact gives_carryOut settings f arguments
    · split
      · exact gives_value (gives_callValue _ _ _ _)
      · split
        · exact gives_carryOut settings _ _
        · exact gives_error _
  | _ => exact gives_error _

/-! ### Held calls that fail -/

theorem call_plain (word : String) {v : Value} (h : v.IsPlain) (labels : List String) (arguments : List Sketch) :
    Fails (call settings word v labels arguments) := by
  unfold call
  cases v with
  | function f => cases h
  | _ => exact fails_error _

theorem call_symbol {word : String} (hword : word ∈ nameMakers) (labels : List String) (arguments : List Sketch) :
    Fails (call settings word (.function .symbol) labels arguments) := by
  have hheld : heldNames.contains word = false := by
    revert word
    decide
  have hcarried : Fails (carryOut settings .symbol arguments) := by
    unfold carryOut
    split
    · exact (applyBuiltin_symbol _ _).map _
    · exact fails_error _
  unfold call
  simp only [hheld, Bool.false_eq_true, if_false]
  split_ifs
  · exact hcarried
  · split
    · exact (callValue_symbol _ _ _).map _
    · exact fails_error _

end Sketches

/-! ### Formulas with calls in vain -/

/-- Whether the operands of an operator are evaluated although operations are held back. -/
def BinaryOperator.isCarriedOut : BinaryOperator → Bool
  | .remainder => true
  | .quotient => true
  | .shiftLeft => true
  | .shiftRight => true
  | .matrix => true
  | _ => false

mutual

/-- Whether every call in vain is reached: in an operand that is evaluated (`carried`), none may stand behind the second
    operand of a chain of comparisons, which can stop before it. -/
def Formula.exposes (carried : Bool) : Formula → Bool
  | .unary _ operand => operand.exposes carried
  | .binary op left right =>
    left.exposes (carried || op.isCarriedOut) && right.exposes (carried || op.isCarriedOut)
  | .comparison first _ others =>
    first.exposes carried && Formula.exposeAll carried others && !(carried && Formula.anyCallsInVain others.tail)
  | .call f _ arguments => f.exposes carried && Formula.exposeAll carried arguments
  | .tuple items => Formula.exposeAll carried items
  | _ => true

def Formula.exposeAll (carried : Bool) : List Formula → Bool
  | [] => true
  | f :: rest => f.exposes carried && Formula.exposeAll carried rest

end

/-- The words for names without values mean what they mean without variables. -/
def Scope.LeavesMakers (scope : Scope) : Prop := ∀ word ∈ nameMakers, scope.binds word = false

section Formulas

open Formula

variable {scope : Scope}

theorem nameOutcome_maker (hscope : scope.LeavesMakers) {word : String} (hword : word ∈ nameMakers) :
    nameOutcome scope word = .ok (.function .symbol) := by
  have hfind : scope.find? word = none := by simpa [Scope.binds] using hscope word hword
  rw [nameOutcome, nameValue?, hfind]
  rcases List.mem_pair.mp hword with rfl | rfl <;> rfl

section Evaluation

variable (bits : Nat)

theorem gives_evaluateChain : ∀ (others : List Formula) (v : Value) (signs : List Comparator),
    signs.length = others.length → signs ≠ [] → Gives Value.IsPlain (evaluateChain bits scope v signs others)
  | _, _, [], _, hsigns => absurd rfl hsigns
  | f :: rest, v, sign :: signs, hlength, _ => by
    rw [evaluateChain_cons]
    refine gives_bind fun w _ => (gives_compareValues sign v w).bind fun verdict hverdict => ?_
    split_ifs with hrest
    · exact gives_ok.mpr hverdict
    · refine gives_bind fun b _ => ?_
      split_ifs
      · have hlength : signs.length = rest.length := by simpa using hlength
        refine gives_evaluateChain rest w signs hlength ?_
        rintro rfl
        exact hrest (by simpa using hlength.symm)
      · exact gives_ok.mpr hverdict

/-- A call of what cannot be called fails. -/
theorem fails_vainCall (hscope : scope.LeavesMakers) {f : Formula} (hf : f.isVain) (labels : List String)
    (arguments : List Formula) : Fails ((call f labels arguments).evaluate bits scope) := by
  rw [evaluate_call]
  have hplain (h : Gives Value.IsPlain (f.evaluate bits scope)) : Fails
      (f.evaluate bits scope >>= fun g => evaluateAll bits scope arguments >>= callValue bits g labels) :=
    fails_bind fun g hg => fails_bind fun vs _ => callValue_plain bits (h g hg) labels vs
  cases f with
  | name word =>
    rw [evaluate, nameOutcome_maker hscope (isVain_name.mp hf)]
    exact fails_bind fun g hg => fails_bind fun vs _ => by
      cases hg
      exact callValue_symbol bits labels vs
  | unary op operand =>
    refine hplain ?_
    rw [evaluate_unary]
    exact gives_bind fun v _ => gives_operateUnary op v
  | binary op left right =>
    refine hplain ?_
    rw [evaluate_binary]
    exact gives_bind fun v _ => gives_bind fun w _ => gives_operate op v w
  | comparison first signs others =>
    obtain ⟨hlength, hsigns⟩ := isVain_comparison.mp hf
    refine hplain ?_
    rw [evaluate_comparison]
    exact gives_bind fun v _ => gives_evaluateChain bits others v signs hlength hsigns
  | call g labels' arguments' =>
    refine hplain ?_
    rw [evaluate_call]
    exact gives_bind fun g _ => gives_bind fun vs _ => gives_callValue bits g labels' vs
  | tuple items =>
    refine hplain ?_
    rw [evaluate]
    exact Gives.map (Q := fun _ => True) (fun _ _ => trivial) fun _ _ => rfl
  | _ => cases hf

mutual

theorem fails_evaluate (hscope : scope.LeavesMakers) :
    ∀ f : Formula, f.callsInVain → f.exposes true → Fails (f.evaluate bits scope)
  | .unary op operand, hcalls, hexposed => by
    rw [evaluate_unary]
    exact (fails_evaluate hscope operand hcalls hexposed).bind _
  | .binary op left right, hcalls, hexposed => by
    simp only [exposes, Bool.true_or, Bool.and_eq_true] at hexposed
    rw [evaluate_binary]
    rcases callsInVain_binary.mp hcalls with hleft | hright
    · exact (fails_evaluate hscope left hleft hexposed.1).bind _
    · exact fails_bind fun v _ => (fails_evaluate hscope right hright hexposed.2).bind _
  | .comparison first signs others, hcalls, hexposed => by
    obtain ⟨hlength, hcalls⟩ := callsInVain_comparison.mp hcalls
    simp only [exposes, Bool.and_eq_true, Bool.true_and, Bool.not_eq_true'] at hexposed
    rw [evaluate_comparison]
    rcases hcalls with hfirst | hothers
    · exact (fails_evaluate hscope first hfirst hexposed.1.1).bind _
    · exact fails_bind fun v _ => fails_evaluateChain hscope others hothers hexposed.1.2 hexposed.2 v signs hlength
  | .call f labels arguments, hcalls, hexposed => by
    simp only [exposes, Bool.and_eq_true] at hexposed
    rcases callsInVain_call.mp hcalls with hvain | hf | harguments
    · exact fails_vainCall bits hscope hvain labels arguments
    · rw [evaluate_call]
      exact (fails_evaluate hscope f hf hexposed.1).bind _
    · rw [evaluate_call]
      exact fails_bind fun g _ => (fails_evaluateAll hscope arguments harguments hexposed.2).bind _
  | .tuple items, hcalls, hexposed => by
    rw [evaluate]
    exact (fails_evaluateAll hscope items hcalls hexposed).map _

theorem fails_evaluateAll (hscope : scope.LeavesMakers) :
    ∀ items : List Formula, anyCallsInVain items → exposeAll true items → Fails (evaluateAll bits scope items)
  | f :: rest, hcalls, hexposed => by
    simp only [exposeAll, Bool.and_eq_true] at hexposed
    rw [evaluateAll_cons]
    rcases anyCallsInVain_cons.mp hcalls with hf | hrest
    · exact (fails_evaluate hscope f hf hexposed.1).bind _
    · exact fails_bind fun v _ => (fails_evaluateAll hscope rest hrest hexposed.2).map _

/-- The second operand of a chain of comparisons is always reached. -/
theorem fails_evaluateChain (hscope : scope.LeavesMakers) :
    ∀ others : List Formula, anyCallsInVain others → exposeAll true others → anyCallsInVain others.tail = false →
      ∀ (v : Value) (signs : List Comparator), signs.length = others.length →
        Fails (evaluateChain bits scope v signs others)
  | f :: rest, hcalls, hexposed, htail, v, sign :: signs, _ => by
    simp only [exposeAll, Bool.and_eq_true] at hexposed
    have hf := (anyCallsInVain_cons.mp hcalls).resolve_right (Bool.eq_false_iff.mp htail)
    rw [evaluateChain_cons]
    exact (fails_evaluate hscope f hf hexposed.1).bind _

end

end Evaluation

/-! ### Sketches of formulas with calls in vain -/

section Drafts

variable (settings : Settings)

theorem fails_sketchOf {d : Except Failure Draft} (h : Fails d) : Fails (Draft.sketchOf d) := h.bind _

theorem fails_join {d e : Except Failure Draft} (op : BinaryOperator) (h : Fails d ∨ Fails e) :
    Fails (Draft.join op d e) := by
  cases op with
  | add | sub | mul | div | power | meet =>
    rcases h with hd | he
    · exact (hd.bind _).bind _
    · exact fails_bind fun _ _ => (he.bind _).bind _
  | _ => exact fails_error _

theorem fails_carryOut (hscope : scope.LeavesMakers) (op : BinaryOperator) {left right : Formula}
    (hcalls : left.callsInVain ∨ right.callsInVain) (hleft : left.exposes true) (hright : right.exposes true) :
    Fails (Formula.carryOut settings scope op left right) := by
  rcases hcalls with hcalls | hcalls
  · exact (fails_evaluate _ hscope left hcalls hleft).bind _
  · exact fails_bind fun v _ => (fails_evaluate _ hscope right hcalls hright).bind _

theorem gives_draftChain : ∀ (others : List Formula) (s : Sketch) (signs : List Comparator),
    Gives (fun cs => ∀ c ∈ cs, Sketch.IsPlain c) (draftChain settings scope s signs others)
  | [], _, signs => by cases signs <;> exact gives_ok.mpr (List.forall_mem_nil _)
  | _ :: _, _, [] => gives_ok.mpr (List.forall_mem_nil _)
  | f :: rest, s, sign :: signs => by
    rw [draftChain]
    refine gives_bind fun t _ => (gives_draftChain rest t signs).bind fun cs hcs => gives_ok.mpr ?_
    exact List.forall_mem_cons.mpr ⟨trivial, hcs⟩

/-- What cannot be called has a sketch that is no function, unless it is one of the words for names without values. -/
theorem gives_draft {f : Formula} (hf : f.isVain) (hname : ∀ word, f ≠ .name word) :
    Gives Draft.IsPlain (f.draft settings scope) := by
  cases f with
  | name word => exact absurd rfl (hname word)
  | unary op operand =>
    rw [draft]
    exact gives_bind fun s _ => (gives_unary op s).bind fun t ht => gives_ok.mpr ht
  | binary op left right =>
    have hcarried : Gives Sketch.IsPlain (Formula.carryOut settings scope op left right) :=
      gives_bind fun v _ => gives_bind fun w _ => (gives_operate op v w).bind fun u hu => gives_ok.mpr hu
    have hheld := gives_join op (left.draft settings scope) (right.draft settings scope)
    cases op with
    | join =>
      rw [draft]
      split_ifs
      · exact gives_bind fun _ _ => gives_bind fun _ _ => gives_error _
      · exact gives_error _
    | remainder | quotient | shiftLeft | shiftRight | matrix => exact hcarried.map fun _ => id
    | add | sub | mul | div | power | meet => exact hheld
  | comparison first signs others =>
    rw [draft]
    split_ifs
    · exact gives_error _
    · refine gives_bind fun s _ => (gives_draftChain settings others s signs).bind fun cs hcs => ?_
      split
      · exact gives_ok.mpr (hcs _ (List.mem_singleton_self _))
      · exact (gives_conjoin _).bind fun t ht => gives_ok.mpr ht
  | call g labels arguments =>
    rw [draft]
    refine gives_bind fun g _ => gives_bind fun items _ => ?_
    split
    · exact (gives_call settings _ _ _ _).bind fun t ht => gives_ok.mpr ht
    · exact (gives_call settings _ _ _ _).bind fun t ht => gives_ok.mpr ht
    · exact gives_error _
  | tuple items =>
    rw [draft]
    exact Gives.map (Q := fun _ => True) (fun _ _ => trivial) fun _ _ => trivial
  | _ => cases hf

/-- A held call of what cannot be called fails. -/
theorem fails_vainDraft (hscope : scope.LeavesMakers) {f : Formula} (hf : f.isVain) (labels : List String)
    (arguments : List Formula) : Fails ((call f labels arguments).draft settings scope) := by
  rw [draft]
  refine fails_bind fun g hg => fails_bind fun items _ => ?_
  by_cases hname : ∃ word, f = .name word
  · obtain ⟨word, rfl⟩ := hname
    have hword := isVain_name.mp hf
    rw [draft, nameOutcome_maker hscope hword] at hg
    cases hg
    exact (call_symbol settings hword labels items).bind _
  · have hplain := gives_sketchOf (gives_draft settings hf fun word heq => hname ⟨word, heq⟩) g hg
    split
    · exact absurd ⟨_, rfl⟩ hname
    · exact (call_plain settings "" hplain labels items).bind _
    · exact fails_error _

mutual

theorem fails_draft (hscope : scope.LeavesMakers) :
    ∀ f : Formula, f.callsInVain → f.exposes false → Fails (f.draft settings scope)
  | .unary op operand, hcalls, hexposed => by
    rw [draft]
    exact (fails_sketchOf (fails_draft hscope operand hcalls hexposed)).bind _
  | .binary op left right, hcalls, hexposed => by
    have hcalls := callsInVain_binary.mp hcalls
    simp only [exposes, Bool.false_or, Bool.and_eq_true] at hexposed
    have hheld (hop : op.isCarriedOut = false) :
        Fails (Draft.join op (left.draft settings scope) (right.draft settings scope)) := by
      rw [hop] at hexposed
      exact fails_join op (hcalls.imp (fails_draft hscope left · hexposed.1) (fails_draft hscope right · hexposed.2))
    have hcarried (hop : op.isCarriedOut = true) : Fails (Formula.carryOut settings scope op left right) := by
      rw [hop] at hexposed
      exact fails_carryOut settings hscope op hcalls hexposed.1 hexposed.2
    cases op with
    | join =>
      rw [draft]
      split_ifs
      · exact fails_bind fun _ _ => fails_bind fun _ _ => fails_error _
      · exact fails_error _
    | remainder | quotient | shiftLeft | shiftRight | matrix => exact (hcarried rfl).map _
    | add | sub | mul | div | power | meet => exact hheld rfl
  | .comparison first signs others, hcalls, hexposed => by
    obtain ⟨hlength, hcalls⟩ := callsInVain_comparison.mp hcalls
    simp only [exposes, Bool.and_eq_true] at hexposed
    rw [draft]
    split_ifs
    · exact fails_error _
    · rcases hcalls with hfirst | hothers
      · exact (fails_sketchOf (fails_draft hscope first hfirst hexposed.1.1)).bind _
      · exact fails_bind fun s _ => (fails_draftChain hscope others hothers hexposed.1.2 s signs hlength).bind _
  | .call f labels arguments, hcalls, hexposed => by
    simp only [exposes, Bool.and_eq_true] at hexposed
    rcases callsInVain_call.mp hcalls with hvain | hf | harguments
    · exact fails_vainDraft settings hscope hvain labels arguments
    · rw [draft]
      exact (fails_sketchOf (fails_draft hscope f hf hexposed.1)).bind _
    · rw [draft]
      exact fails_bind fun g _ => (fails_draftAll hscope arguments harguments hexposed.2).bind _
  | .tuple items, hcalls, hexposed => by
    rw [draft]
    exact (fails_draftAll hscope items hcalls hexposed).map _

theorem fails_draftAll (hscope : scope.LeavesMakers) :
    ∀ items : List Formula, anyCallsInVain items → exposeAll false items → Fails (draftAll settings scope items)
  | f :: rest, hcalls, hexposed => by
    simp only [exposeAll, Bool.and_eq_true] at hexposed
    rw [draftAll]
    rcases anyCallsInVain_cons.mp hcalls with hf | hrest
    · exact (fails_sketchOf (fails_draft hscope f hf hexposed.1)).bind _
    · exact fails_bind fun s _ => (fails_draftAll hscope rest hrest hexposed.2).bind _

theorem fails_draftChain (hscope : scope.LeavesMakers) :
    ∀ others : List Formula, anyCallsInVain others → exposeAll false others →
      ∀ (s : Sketch) (signs : List Comparator), signs.length = others.length →
        Fails (draftChain settings scope s signs others)
  | f :: rest, hcalls, hexposed, s, sign :: signs, hlength => by
    simp only [exposeAll, Bool.and_eq_true] at hexposed
    have hlength : signs.length = rest.length := by simpa using hlength
    rw [draftChain]
    rcases anyCallsInVain_cons.mp hcalls with hf | hrest
    · exact (fails_sketchOf (fails_draft hscope f hf hexposed.1)).bind _
    · exact fails_bind fun t _ => (fails_draftChain hscope rest hrest hexposed.2 t signs hlength).bind _

end

end Drafts

end Formulas

/-! ### Texts -/

instance (scope : Scope) : Decidable scope.LeavesMakers :=
  inferInstanceAs (Decidable (∀ word ∈ nameMakers, scope.binds word = false))

/-- A text of names, numerals and the signs of arithmetic in which a name stands that has no value and no other
    meaning. -/
def MentionsUndefined (scope : Scope) (word : String) (text : List Char) : Prop :=
  ∃ tokens ∈ scan (trim text), (∀ t ∈ tokens, t.IsArithmetic) ∧ .name word ∈ tokens ∧ (nameValue? scope word).isNone

instance (scope : Scope) (word : String) (text : List Char) : Decidable (MentionsUndefined scope word text) :=
  inferInstanceAs (Decidable (∃ tokens ∈ scan (trim text), (∀ t ∈ tokens, t.IsArithmetic) ∧
    .name word ∈ tokens ∧ (nameValue? scope word).isNone))

section Texts

variable {settings : Settings} {scope : Scope} {word : String} {text : List Char}

theorem lacks_of_nameValue? (h : (nameValue? scope word).isNone) : (Vocabulary.ofScope scope).Lacks word := by
  unfold nameValue? at h
  split at h
  · cases h
  · rename_i hfind
    split at h
    · cases h
    · rename_i hnamespace
      exact ⟨by simp [Vocabulary.ofScope, Scope.binds, hfind, hnamespace], by simpa [Vocabulary.ofScope] using h⟩

theorem isFunction_maker_of_leavesMakers (hscope : scope.LeavesMakers) :
    ∀ word ∈ nameMakers, (Vocabulary.ofScope scope).isFunction word := by
  intro word hword
  have hfind : scope.find? word = none := by simpa [Scope.binds] using hscope word hword
  simp only [Vocabulary.ofScope, isFunctionName, hfind]
  rcases List.mem_pair.mp hword with rfl | rfl <;> rfl

/-- What is read from a text with an undefined name contains a call in vain. -/
theorem readProgram_callsInVain (hscope : scope.LeavesMakers) (hword : MentionsUndefined scope word text) {exact : Bool}
    {program : Program} (h : readProgram scope exact (trim text) = .ok program) :
    ∃ f, program.formula? = some f ∧ f.callsInVain := by
  obtain ⟨tokens, hscan, harithmetic, hmem, hundefined⟩ := hword
  unfold readProgram at h
  dsimp only at h
  rw [Option.mem_def.mp hscan, Option.bind_some] at h
  split at h
  · cases h
  rename_i resolved hresolved
  obtain ⟨hmild, hunknown⟩ := resolve_unknown (lacks_of_nameValue? hundefined) harithmetic hmem hresolved
  split at h
  · cases h
  · cases h
  rename_i completed hcompleted
  obtain ⟨hmild, hquotes⟩ := complete_quotes (isFunction_maker_of_leavesMakers hscope) hmild hunknown hcompleted
  split at h
  · cases h
  rename_i read hread
  obtain ⟨f, hcalls, hprogram⟩ := Program.read?_callsInVain hmild hquotes read hread
  cases h
  refine ⟨f, ?_, hcalls⟩
  rcases hprogram with rfl | rfl <;> rfl

theorem fails_evaluateText (hscope : scope.LeavesMakers) (hword : MentionsUndefined scope word text)
    (hexposed : ∀ f ∈ formulaOf? settings scope text, f.exposes false) : Fails (evaluateText settings scope text) := by
  unfold evaluateText
  refine fails_bind fun exact hexact => ?_
  dsimp only
  split_ifs
  · exact fails_error _
  split
  · exact fails_error _
  refine fails_bind fun program hprogram => ?_
  obtain ⟨f, hf, hcalls⟩ := readProgram_callsInVain hscope hword hprogram
  have hread : formulaOf? settings scope text = some f := by
    rw [formulaOf?, programOf?, hexact]
    simp [Except.toOption, hprogram, hf]
  have hdraft := fails_sketchOf (fails_draft settings hscope f hcalls (hexposed f hread))
  cases program with
  | empty => exact fails_error _
  | expression g =>
    cases hf
    unfold evaluateFormula
    dsimp only
    split_ifs
    · exact fails_error _
    · exact hdraft.bind _
  | statements value =>
    cases hf
    dsimp only
    split_ifs
    · exact fails_error _
    · exact hdraft.bind _

/-- A text of arithmetic that mentions an undefined name has no answer, and nothing is assigned. -/
theorem undefined_name_is_reported (hscope : scope.LeavesMakers) (hword : MentionsUndefined scope word (bodyOf text))
    (hexposed : ∀ f ∈ formulaOf? settings scope (bodyOf text), f.exposes false) :
    (∃ failure, (evaluateExpression settings scope text).answer = .error failure) ∧
      (evaluateExpression settings scope text).scope = scope := by
  have hfails : ∃ failure, (evaluateExpression settings scope text).answer = .error failure := by
    rcases answer_cases settings scope text with ⟨name, hanswer⟩ | hanswer
    · exact ⟨_, hanswer⟩
    · rw [hanswer]
      exact (fails_evaluateText hscope hword hexposed).bind _
  obtain ⟨failure, hanswer⟩ := hfails
  exact ⟨⟨failure, hanswer⟩, scope_of_answer_error hanswer⟩

/-- A difference in which the undefined name would cancel, on the right of an assignment. -/
theorem cancelled_name_is_reported :
    Scope.LeavesMakers [("k", .number (.rational 2))] ∧
      MentionsUndefined [("k", .number (.rational 2))] "y" (bodyOf "x = k*y - (1 == y) % 2 - k*y^0".toList) ∧
      (∃ failure, (evaluateExpression .standard [("k", .number (.rational 2))]
        "x = k*y - (1 == y) % 2 - k*y^0".toList).answer = .error failure) ∧
      (evaluateExpression .standard [("k", .number (.rational 2))]
        "x = k*y - (1 == y) % 2 - k*y^0".toList).scope = [("k", .number (.rational 2))] := by
  have hscope : Scope.LeavesMakers [("k", .number (.rational 2))] := by decide +kernel
  have hword : MentionsUndefined [("k", .number (.rational 2))] "y"
      (bodyOf "x = k*y - (1 == y) % 2 - k*y^0".toList) := by decide +kernel
  exact ⟨hscope, hword, undefined_name_is_reported hscope hword (by decide +kernel)⟩

/-- A chain of comparisons that stops before the undefined name, in an operand of a remainder. -/
theorem name_behind_chain_is_overlooked : Scope.LeavesMakers [] ∧
    MentionsUndefined [] "y" (bodyOf "(1==2==y) % 2".toList) ∧
      rationalAnswer [] "(1==2==y) % 2".toList = .ok (some 0) := by
  decide +kernel

end Texts

end Reckoner.Expression
