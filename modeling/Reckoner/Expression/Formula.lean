import Reckoner.Expression.Tree

/-!
# Formulas

The syntax of expressions with nothing left out, and of the few statements that can be told from expressions.
-/

namespace Reckoner.Expression

/-- Operators in front of their operand. -/
inductive UnaryOperator
  | plus | minus | complement
  deriving DecidableEq, Repr

/-- Operators between their operands. -/
inductive BinaryOperator
  | add | sub | mul | div | quotient | remainder | power | matrix | shiftLeft | shiftRight | meet | join
  deriving DecidableEq, Repr

/-- Signs of comparison. -/
inductive Comparator
  | equal | unequal | less | lessEqual | greater | greaterEqual | isIn | isNotIn | same | notSame
  deriving DecidableEq, Repr

/-- Words that denote a fixed value. -/
inductive Constant
  | yes | no | nothing | ellipsis
  deriving DecidableEq, Repr

/-- Expressions.  The labels of a call run along its arguments: empty for a positional argument, stars for an unpacked
    one, and otherwise the name of a parameter. -/
inductive Formula
  | name (word : String)
  | numeral (value : Nat)
  | quotation (text : String)
  | constant (c : Constant)
  | unary (op : UnaryOperator) (operand : Formula)
  | binary (op : BinaryOperator) (left right : Formula)
  | comparison (first : Formula) (signs : List Comparator) (others : List Formula)
  | junction (isConjunction : Bool) (operands : List Formula)
  | negation (operand : Formula)
  | conditional (test yes no : Formula)
  | call (f : Formula) (labels : List String) (arguments : List Formula)
  | subscript (object index : Formula)
  | member (object : Formula) (word : String)
  | binding (word : String) (value : Formula)
  | tuple (items : List Formula)
  | list (items : List Formula)
  | set (items : List Formula)
  | dictionary (keys values : List Formula)
  deriving Repr

instance : Inhabited Formula := ⟨.constant .nothing⟩

/-- What a text can be read as: nothing at all, one expression, or statements, of which the first may have a value. -/
inductive Program
  | empty
  | expression (f : Formula)
  | statements (value : Option Formula)
  deriving Repr

namespace Formula

mutual

/-- A measure of how deeply a formula is nested: an operator counts two, a call three. -/
def nesting : Formula → Nat
  | .name _ => 1
  | .numeral _ => 1
  | .quotation _ => 1
  | .constant _ => 1
  | .unary _ operand => nesting operand + 2
  | .binary _ left right => max (nesting left) (nesting right) + 2
  | .comparison first _ others => max (nesting first) (nestingOf others) + 3
  | .junction _ operands => nestingOf operands + 2
  | .negation operand => nesting operand + 2
  | .conditional test yes no => max (nesting test) (max (nesting yes) (nesting no)) + 2
  | .call f _ arguments => max (nesting f) (nestingOf arguments) + 3
  | .subscript object index => max (nesting object) (nesting index) + 2
  | .member object _ => nesting object + 2
  | .binding _ value => nesting value + 2
  | .tuple items => nestingOf items + 2
  | .list items => nestingOf items + 2
  | .set items => nestingOf items + 2
  | .dictionary keys values => max (nestingOf keys) (nestingOf values) + 2

def nestingOf : List Formula → Nat
  | [] => 0
  | f :: rest => max (nesting f) (nestingOf rest)

end

/-- Formulas nested more deeply than this are not evaluated. -/
def nestingLimit : Nat := 960

def isTarget : Formula → Bool
  | .name _ => true
  | .subscript _ _ => true
  | .member _ _ => true
  | .tuple items => items.all fun
    | .name _ => true
    | .subscript _ _ => true
    | .member _ _ => true
    | _ => false
  | .list items => items.all fun
    | .name _ => true
    | .subscript _ _ => true
    | .member _ _ => true
    | _ => false
  | _ => false

def isPlace : Formula → Bool
  | .name _ => true
  | .subscript _ _ => true
  | .member _ _ => true
  | _ => false

end Formula

end Reckoner.Expression
