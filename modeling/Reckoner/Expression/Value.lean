import Reckoner.Algebra.Division
import Reckoner.Algebra.Extremes
import Reckoner.Expression.Formula

/-!
# Values

What an expression can evaluate to, the functions that it can call, the scope in which its names are looked up, and
the ways in which it can fail.
-/

namespace Reckoner.Expression

open Reckoner.Algebra

/-- Functions of the language.  The last six make values from literals. -/
inductive Builtin
  | sqrt | sin | cos | tan | abs | ceil | floor | min | max | log | exp | mod | round
  | whole | rational | rounded | symbol | factorial
  deriving DecidableEq, Repr

/-- Values of expressions.  A `truth` is the outcome of an order comparison or a constant, a `flag` the outcome of an
    equality; a `relation` is a comparison that could not be decided because of the names it mentions. -/
inductive Value
  | number (t : Term)
  | truth (b : Bool)
  | flag (b : Bool)
  | relation (names : List String)
  | nothing
  | ellipsis
  | text (s : String)
  | tuple (items : List Value)
  | list (items : List Value)
  | set (items : List Value)
  | dictionary (keys values : List Value)
  | function (f : Builtin)
  deriving Repr

instance : Inhabited Value := ⟨.nothing⟩

/-- Ways in which an expression can fail.  The first group is reported by the engine with a code of its own; the
    second group are faults that the engine does not expect. -/
inductive Failure
  | emptyExpression
  | malformed
  | evaluation
  | unknownName (name : String)
  | unknownNames (names : List String)
  | factorial
  | literalTooLarge
  | outOfRange
  | undefinedResult
  | notReal
  | reservedName (name : String)
  | nothingToEvaluate
  | unbalanced
  | notNumeric
  | unreadableExponent
  | outOfBounds
  | missingKey
  deriving DecidableEq, Repr

/-- Codes of the failures that the engine reports. -/
inductive FailureCode
  | parse | evaluation | undefinedSymbol | unsupported | overflow | undefinedResult | assignment
  deriving DecidableEq, Repr

namespace Failure

/-- The code of a failure, if the engine expects it. -/
def code? : Failure → Option FailureCode
  | .emptyExpression => some .parse
  | .malformed => some .parse
  | .evaluation => some .evaluation
  | .unknownName _ => some .undefinedSymbol
  | .unknownNames _ => some .undefinedSymbol
  | .factorial => some .unsupported
  | .literalTooLarge => some .overflow
  | .outOfRange => some .overflow
  | .undefinedResult => some .undefinedResult
  | .notReal => some .undefinedResult
  | .reservedName _ => some .assignment
  | .nothingToEvaluate => none
  | .unbalanced => none
  | .notNumeric => none
  | .unreadableExponent => none
  | .outOfBounds => none
  | .missingKey => none

def message : Failure → String
  | .emptyExpression => "Expression is empty"
  | .malformed => "Could not parse expression"
  | .evaluation => "Evaluation failed"
  | .unknownName name => "Undefined symbol: " ++ name
  | .unknownNames names => "Undefined symbol(s): " ++ ", ".intercalate names
  | .factorial => "Factorial is not supported"
  | .literalTooLarge => "Number is too large"
  | .outOfRange => "Result is out of range"
  | .undefinedResult => "Result is undefined"
  | .notReal => "Result is not a real number"
  | .reservedName name => "Cannot assign to '" ++ name ++ "'"
  | .nothingToEvaluate => "Evaluation failed"
  | .unbalanced => "Evaluation failed"
  | .notNumeric => "Evaluation failed"
  | .unreadableExponent => "Evaluation failed"
  | .outOfBounds => "Evaluation failed"
  | .missingKey => "Evaluation failed"

end Failure

def FailureCode.text : FailureCode → String
  | .parse => "PARSE_ERROR"
  | .evaluation => "EVAL_ERROR"
  | .undefinedSymbol => "UNDEFINED_SYMBOL"
  | .unsupported => "UNSUPPORTED"
  | .overflow => "OVERFLOW"
  | .undefinedResult => "UNDEFINED_RESULT"
  | .assignment => "ASSIGNMENT_ERROR"

/-! ### Scopes -/

/-- Variables with their values.  Each name is bound once; names stand in the order in which they were first bound. -/
abbrev Scope := List (String × Value)

namespace Scope

def find? (scope : Scope) (name : String) : Option Value := scope.lookup name

def binds (scope : Scope) (name : String) : Bool := (scope.find? name).isSome

/-- Bind a variable, in place if it is bound already. -/
def assign (scope : Scope) (name : String) (v : Value) : Scope :=
  match scope with
  | [] => [(name, v)]
  | (other, w) :: rest => if other = name then (name, v) :: rest else (other, w) :: assign rest name v

theorem find?_assign_self (scope : Scope) (name : String) (v : Value) :
    (scope.assign name v).find? name = some v := by
  induction scope with
  | nil => simp [assign, find?]
  | cons entry rest ih =>
    obtain ⟨other, w⟩ := entry
    by_cases h : other = name
    · simp [assign, find?, h]
    · have h' : ¬ name = other := fun e => h e.symm
      simp only [assign, h, if_false, find?, List.lookup_cons]
      rw [beq_false_of_ne h']
      exact ih

theorem find?_assign_of_ne (scope : Scope) {name other : String} (v : Value) (h : other ≠ name) :
    (scope.assign name v).find? other = scope.find? other := by
  induction scope with
  | nil => simp [assign, find?, List.lookup_cons, beq_false_of_ne h]
  | cons entry rest ih =>
    obtain ⟨first, w⟩ := entry
    by_cases hn : first = name
    · subst hn
      simp [assign, find?, List.lookup_cons, beq_false_of_ne h]
    · simp only [assign, hn, if_false, find?, List.lookup_cons]
      cases other == first
      · exact ih
      · rfl

end Scope

/-! ### Names with a meaning -/

/-- Constants and functions that every expression can use. -/
def namespaceValue? (name : String) : Option Value :=
  match name with
  | "pi" => some (.number .pi)
  | "e" => some (.number .e)
  | "E" => some (.number .e)
  | "Infinity" => some (.number (.infinity false))
  | "true" => some (.truth true)
  | "false" => some (.truth false)
  | "sqrt" => some (.function .sqrt)
  | "sin" => some (.function .sin)
  | "cos" => some (.function .cos)
  | "tan" => some (.function .tan)
  | "abs" => some (.function .abs)
  | "ceil" => some (.function .ceil)
  | "floor" => some (.function .floor)
  | "min" => some (.function .min)
  | "max" => some (.function .max)
  | "log" => some (.function .log)
  | "ln" => some (.function .log)
  | "exp" => some (.function .exp)
  | "mod" => some (.function .mod)
  | "round" => some (.function .round)
  | _ => none

/-- Words with a meaning of their own, which literals are made of. -/
def reservedValue? (name : String) : Option Value :=
  match name with
  | "Integer" => some (.function .whole)
  | "Float" => some (.function .rounded)
  | "Rational" => some (.function .rational)
  | "Symbol" => some (.function .symbol)
  | "Function" => some (.function .symbol)
  | "factorial" => some (.function .factorial)
  | "I" => some (.number Term.imaginaryUnit)
  | _ => none

/-- Words for the operations that an expression is built from; they cannot be typed. -/
def operationWords : List String := ["Add", "And", "Eq", "Ge", "Gt", "Le", "Lt", "Mul", "Ne", "Pow"]

namespace Value

def number? : Value → Option Term
  | .number t => some t
  | _ => none

def isFalse : Value → Bool
  | .number t => t.isZero
  | .truth b => !b
  | .flag b => !b
  | .nothing => true
  | .text s => s.isEmpty
  | .tuple items => items.isEmpty
  | .list items => items.isEmpty
  | .set items => items.isEmpty
  | .dictionary keys _ => keys.isEmpty
  | _ => false

def isFunction : Value → Bool
  | .function _ => true
  | _ => false

/-- The whole number that a value is, a flag counting as zero or one. -/
def whole? : Value → Option Int
  | .number (.rational q) => if q.den = 1 then some q.num else none
  | .flag b => some (if b then 1 else 0)
  | _ => none

mutual

def equal : Value → Value → Bool
  | .number s, .number t => s.same t
  | .number (.rational q), .flag b => q = if b then 1 else 0
  | .flag b, .number (.rational q) => q = if b then 1 else 0
  | .truth a, .truth b => a = b
  | .truth a, .flag b => a = b
  | .flag a, .truth b => a = b
  | .flag a, .flag b => a = b
  | .nothing, .nothing => true
  | .text s, .text t => s = t
  | .tuple xs, .tuple ys => equalAll xs ys
  | .list xs, .list ys => equalAll xs ys
  | .function f, .function g => f = g
  | _, _ => false

def equalAll : List Value → List Value → Bool
  | [], [] => true
  | x :: xs, y :: ys => equal x y && equalAll xs ys
  | _, _ => false

end

end Value

/-- The value of a name in a scope: variables come first, then constants and functions, then reserved words. -/
def nameValue? (scope : Scope) (name : String) : Option Value :=
  match scope.find? name with
  | some v => some v
  | none =>
    match namespaceValue? name with
    | some v => some v
    | none => reservedValue? name

/-- Whether the meaning of a name is a function.  A variable whose value counts as false lets the reserved word of the
    same name through. -/
def isFunctionName (scope : Scope) (name : String) : Bool :=
  let local? := match scope.find? name with
    | some v => some v
    | none => namespaceValue? name
  match local? with
  | some v => if v.isFalse then (reservedValue? name).any Value.isFunction else v.isFunction
  | none => (reservedValue? name).any Value.isFunction

/-- What the reader of expressions knows about names in a scope. -/
def Vocabulary.ofScope (scope : Scope) : Vocabulary where
  hasValue name := scope.binds name || (namespaceValue? name).isSome
  isReserved name := (reservedValue? name).isSome
  isFunction name := isFunctionName scope name

end Reckoner.Expression
