import Mathlib.Tactic.SplitIfs
import Reckoner.Expression.Engine

/-!
# Evaluation in steps

The value of a formula, and the answer of a text, as a sequence of steps, of which the first that fails is the outcome.
-/

namespace Reckoner.Expression

namespace Formula

variable (bits : Nat) (scope : Scope)

theorem evaluate_binary (op : BinaryOperator) (left right : Formula) :
    (binary op left right).evaluate bits scope =
      left.evaluate bits scope >>= fun v => right.evaluate bits scope >>= fun w => operate op v w := by
  rw [evaluate]
  cases left.evaluate bits scope with
  | error f => rfl
  | ok v => cases right.evaluate bits scope <;> rfl

theorem evaluate_comparison (first : Formula) (signs : List Comparator) (others : List Formula) :
    (comparison first signs others).evaluate bits scope =
      first.evaluate bits scope >>= fun v => evaluateChain bits scope v signs others := by
  rw [evaluate]
  cases first.evaluate bits scope <;> rfl

theorem evaluate_negation (operand : Formula) :
    (negation operand).evaluate bits scope =
      operand.evaluate bits scope >>= fun v => decideTruth v >>= fun b => .ok (.flag (!b)) := by
  rw [evaluate]
  cases operand.evaluate bits scope with
  | error f => rfl
  | ok v => cases decideTruth v <;> rfl

theorem evaluate_conditional (test yes no : Formula) :
    (conditional test yes no).evaluate bits scope =
      test.evaluate bits scope >>= fun v => decideTruth v >>= fun b =>
        if b then yes.evaluate bits scope else no.evaluate bits scope := by
  rw [evaluate]
  cases test.evaluate bits scope with
  | error f => rfl
  | ok v =>
    cases hb : decideTruth v with
    | error f => simp [hb, bind, Except.bind]
    | ok b => cases b <;> simp [hb, bind, Except.bind]

theorem evaluate_call (f : Formula) (labels : List String) (arguments : List Formula) :
    (call f labels arguments).evaluate bits scope =
      f.evaluate bits scope >>= fun g => evaluateAll bits scope arguments >>= callValue bits g labels := by
  rw [evaluate]
  cases f.evaluate bits scope with
  | error f => rfl
  | ok g => cases evaluateAll bits scope arguments <;> rfl

theorem evaluate_subscript (object index : Formula) :
    (subscript object index).evaluate bits scope =
      object.evaluate bits scope >>= fun v => index.evaluate bits scope >>= itemAt v := by
  rw [evaluate]
  cases object.evaluate bits scope with
  | error f => rfl
  | ok v => cases index.evaluate bits scope <;> rfl

theorem evaluate_member (object : Formula) (word : String) :
    (member object word).evaluate bits scope = object.evaluate bits scope >>= fun _ => .error .evaluation := by
  rw [evaluate]
  cases object.evaluate bits scope <;> rfl

theorem evaluate_dictionary (keys values : List Formula) :
    (dictionary keys values).evaluate bits scope =
      evaluateAll bits scope keys >>= fun ks => (evaluateAll bits scope values).map fun vs => .dictionary ks vs := by
  rw [evaluate]
  cases evaluateAll bits scope keys <;> rfl

theorem evaluateAll_cons (f : Formula) (rest : List Formula) :
    evaluateAll bits scope (f :: rest) =
      f.evaluate bits scope >>= fun v => (evaluateAll bits scope rest).map (v :: ·) := by
  rw [evaluateAll]
  cases f.evaluate bits scope <;> rfl

theorem evaluateChain_cons (v : Value) (sign : Comparator) (signs : List Comparator) (f : Formula)
    (rest : List Formula) :
    evaluateChain bits scope v (sign :: signs) (f :: rest) =
      f.evaluate bits scope >>= fun w => compareValues sign v w >>= fun verdict =>
        if rest.isEmpty then .ok verdict
        else decideTruth verdict >>= fun b => if b then evaluateChain bits scope w signs rest else .ok verdict := by
  rw [evaluateChain]
  cases f.evaluate bits scope with
  | error f => rfl
  | ok w =>
    cases hverdict : compareValues sign v w with
    | error f => simp [hverdict, bind, Except.bind]
    | ok verdict =>
      cases rest with
      | nil => simp [hverdict, bind, Except.bind]
      | cons next rest =>
        cases hb : decideTruth verdict with
        | error f => simp [hverdict, hb, bind, Except.bind]
        | ok b => cases b <;> simp [hverdict, hb, bind, Except.bind]

theorem evaluateJunction_cons (isConjunction : Bool) (f : Formula) (rest : List Formula) :
    evaluateJunction bits scope isConjunction (f :: rest) =
      f.evaluate bits scope >>= fun v =>
        if rest.isEmpty then .ok v
        else decideTruth v >>= fun b =>
          if b == isConjunction then evaluateJunction bits scope isConjunction rest else .ok v := by
  rw [evaluateJunction]
  cases f.evaluate bits scope with
  | error f => rfl
  | ok v =>
    cases rest with
    | nil => rfl
    | cons next rest => 
      cases hb : decideTruth v <;> simp [hb, bind, Except.bind]

end Formula

/-- The text that is evaluated, which stands behind the equals sign of an assignment. -/
def bodyOf (text : List Char) : List Char := ((splitAssignment? text).map Prod.snd).getD text

/-- A text is refused for the name that it assigns to, or its answer is that of its body. -/
theorem answer_cases (settings : Settings) (scope : Scope) (text : List Char) :
    (∃ name, (evaluateExpression settings scope text).answer = .error (.reservedName name)) ∨
      (evaluateExpression settings scope text).answer =
        evaluateText settings scope (bodyOf text) >>= fun result => Answer.ofValue result.1 := by
  unfold evaluateExpression bodyOf
  cases splitAssignment? text with
  | none =>
    right
    dsimp only [Option.any_none, Option.map_none, Option.getD_none]
    rw [if_neg Bool.false_ne_true]
    cases evaluateText settings scope text with
    | error f => rfl
    | ok result =>
      obtain ⟨v, isRounded⟩ := result
      dsimp only [bind, Except.bind]
      cases Answer.ofValue v <;> rfl
  | some target =>
    obtain ⟨name, body⟩ := target
    dsimp only [Option.any_some, Option.map_some, Option.getD_some]
    split_ifs
    · exact .inl ⟨name, rfl⟩
    · right
      cases evaluateText settings scope body with
      | error f => rfl
      | ok result =>
        obtain ⟨v, isRounded⟩ := result
        dsimp only [bind, Except.bind]
        cases Answer.ofValue v <;> rfl

end Reckoner.Expression
