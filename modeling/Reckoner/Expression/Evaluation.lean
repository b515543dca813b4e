import Reckoner.Expression.Operation

/-!
# Evaluation of formulas

The value of a formula in a scope.  Operands are evaluated from left to right and the first failure is the outcome.  A
chain of comparisons stops at the first one that does not hold.
-/

namespace Reckoner.Expression

open Reckoner.Algebra

/-- The value of a word that denotes a fixed value. -/
def Constant.value : Constant → Value
  | .yes => .flag true
  | .no => .flag false
  | .nothing => .nothing
  | .ellipsis => .ellipsis

/-- The value of a name, which fails for a name without one. -/
def nameOutcome (scope : Scope) (word : String) : Outcome :=
  match nameValue? scope word with
  | some v => .ok v
  | none => .error .evaluation

namespace Formula

mutual

/-- The value of a formula.  `bits` is the precision of rounded literals. -/
def evaluate (bits : Nat) (scope : Scope) : Formula → Outcome
  | .name word => nameOutcome scope word
  | .numeral n => .ok (.number (.rational n))
  | .quotation s => .ok (.text s)
  | .constant c => .ok c.value
  | .unary op operand =>
    match evaluate bits scope operand with
    | .ok v => operateUnary op v
    | .error f => .error f
  | .binary op left right =>
    match evaluate bits scope left with
    | .error f => .error f
    | .ok v =>
      match evaluate bits scope right with
      | .error f => .error f
      | .ok w => operate op v w
  | .comparison first signs others =>
    match evaluate bits scope first with
    | .error f => .error f
    | .ok v => evaluateChain bits scope v signs others
  | .junction isConjunction operands => evaluateJunction bits scope isConjunction operands
  | .negation operand =>
    match evaluate bits scope operand with
    | .error f => .error f
    | .ok v => (decideTruth v).map fun b => .flag (!b)
  | .conditional test yes no =>
    match evaluate bits scope test with
    | .error f => .error f
    | .ok v =>
      match decideTruth v with
      | .error f => .error f
      | .ok true => evaluate bits scope yes
      | .ok false => evaluate bits scope no
  | .call f labels arguments =>
    match evaluate bits scope f with
    | .error f => .error f
    | .ok g =>
      match evaluateAll bits scope arguments with
      | .error f => .error f
      | .ok vs => callValue bits g labels vs
  | .subscript object index =>
    match evaluate bits scope object with
    | .error f => .error f
    | .ok v =>
      match evaluate bits scope index with
      | .error f => .error f
      | .ok i => itemAt v i
  | .member object _ =>
    match evaluate bits scope object with
    | .error f => .error f
    | .ok _ => .error .evaluation
  | .binding _ value => evaluate bits scope value
  | .tuple items => (evaluateAll bits scope items).map .tuple
  | .list items => (evaluateAll bits scope items).map .list
  | .set items => (evaluateAll bits scope items).map .set
  | .dictionary keys values =>
    match evaluateAll bits scope keys with
    | .error f => .error f
    | .ok ks => (evaluateAll bits scope values).map fun vs => .dictionary ks vs

def evaluateAll (bits : Nat) (scope : Scope) : List Formula → Except Failure (List Value)
  | [] => .ok []
  | f :: rest =>
    match evaluate bits scope f with
    | .error f => .error f
    | .ok v => (evaluateAll bits scope rest).map (v :: ·)

/-- The outcome of a chain of comparisons that begins with a value. -/
def evaluateChain (bits : Nat) (scope : Scope) (v : Value) : List Comparator → List Formula → Outcome
  | sign :: signs, f :: rest =>
    match evaluate bits scope f with
    | .error f => .error f
    | .ok w =>
      match compareValues sign v w with
      | .error f => .error f
      | .ok verdict =>
        match rest with
        | [] => .ok verdict
        | _ :: _ =>
          match decideTruth verdict with
          | .error f => .error f
          | .ok true => evaluateChain bits scope w signs rest
          | .ok false => .ok verdict
  | _, _ => .ok v

/-- The first operand that decides a conjunction or a disjunction, or else the last one. -/
def evaluateJunction (bits : Nat) (scope : Scope) (isConjunction : Bool) : List Formula → Outcome
  | [] => .ok .nothing
  | f :: rest =>
    match evaluate bits scope f with
    | .error f => .error f
    | .ok v =>
      match rest with
      | [] => .ok v
      | _ :: _ =>
        match decideTruth v with
        | .error f => .error f
        | .ok b => if b == isConjunction then evaluateJunction bits scope isConjunction rest else .ok v

end

theorem evaluate_unary (bits : Nat) (scope : Scope) (op : UnaryOperator) (operand : Formula) :
    (unary op operand).evaluate bits scope = operand.evaluate bits scope >>= operateUnary op := by
  rw [evaluate]
  cases operand.evaluate bits scope <;> rfl

end Formula

end Reckoner.Expression
