import Mathlib.Algebra.Field.Rat
import Reckoner.Expression.Engine
import Reckoner.Proofs.Text.Runs

/-!
# Arithmetic and how it is written

The expressions of school arithmetic with their exact values, and the ways in which they can be written down.  A
`Writing` is an expression together with its brackets; it is *grouped* when every operand that would otherwise fall to
another operator stands in brackets, and brackets may stand anywhere else.  What is typed is a writing laid out with
blanks between its tokens.
-/

namespace Reckoner.Expression

open Reckoner.Algebra Reckoner.Text

/-! ### Literals -/

/-- Literals without an exponent.  A decimal has a point, and digits on at least one side of it. -/
inductive Literal
  | whole (n : Nat)
  | decimal (front : Option Nat) (fraction : List (Fin 10))
  deriving DecidableEq, Repr

/-- The value of the digits behind a point. -/
def fractionValue : List (Fin 10) → Rat
  | [] => 0
  | d :: rest => ((d : Nat) + fractionValue rest) / 10

/-- The digits of a natural number; only zero begins with a zero. -/
def digitsOfNat (n : Nat) : List Char := Nat.toDigits 10 n

def digitsOfFraction (fraction : List (Fin 10)) : List Char := fraction.map fun d => Nat.digitChar d.val

namespace Literal

def value : Literal → Rat
  | whole n => n
  | decimal front fraction => (front.getD 0 : Nat) + fractionValue fraction

def text : Literal → List Char
  | whole n => digitsOfNat n
  | decimal front fraction => front.elim [] digitsOfNat ++ '.' :: digitsOfFraction fraction

/-- Whether the literal is more than a point, and not too long on either side of it. -/
def IsReadable : Literal → Prop
  | whole n => (digitsOfNat n).length ≤ maxDigits
  | decimal front fraction =>
    (front.isSome ∨ fraction ≠ []) ∧ (front.elim [] digitsOfNat).length ≤ maxDigits ∧ fraction.length ≤ maxDigits

instance (l : Literal) : Decidable l.IsReadable :=
  match l with
  | whole n => inferInstanceAs (Decidable ((digitsOfNat n).length ≤ maxDigits))
  | decimal front fraction =>
    inferInstanceAs (Decidable ((front.isSome ∨ fraction ≠ []) ∧ (front.elim [] digitsOfNat).length ≤ maxDigits ∧
      fraction.length ≤ maxDigits))

end Literal

/-! ### Expressions -/

inductive ArithmeticOperator
  | add | sub | mul | div | power
  deriving DecidableEq, Repr

/-- Expressions over literals and variables. -/
inductive Arithmetic
  | literal (l : Literal)
  | name (word : String)
  | negation (operand : Arithmetic)
  | operation (op : ArithmeticOperator) (left right : Arithmetic)
  deriving DecidableEq, Repr

/-- The result of an operation: nothing for a quotient by zero, for a fractional exponent, and for zero with a negative
    exponent. -/
def ArithmeticOperator.result? (op : ArithmeticOperator) (p q : Rat) : Option Rat :=
  match op with
  | .add => some (p + q)
  | .sub => some (p - q)
  | .mul => some (p * q)
  | .div => if q = 0 then none else some (p / q)
  | .power => if q.den = 1 ∧ ¬ (p = 0 ∧ q < 0) then some (p ^ q.num) else none

/-- The rational that a variable is bound to. -/
def Scope.rational? (scope : Scope) (word : String) : Option Rat :=
  match scope.find? word with
  | some (.number (.rational q)) => some q
  | _ => none

namespace Arithmetic

/-- The exact value, if every part of the expression has one. -/
def value? (scope : Scope) : Arithmetic → Option Rat
  | literal l => some l.value
  | name word => scope.rational? word
  | negation operand => (value? scope operand).map (-·)
  | operation op left right =>
    (value? scope left).bind fun p => (value? scope right).bind fun q => op.result? p q

def literals : Arithmetic → List Literal
  | literal l => [l]
  | name _ => []
  | negation operand => literals operand
  | operation _ left right => literals left ++ literals right

def names : Arithmetic → List String
  | literal _ => []
  | name word => [word]
  | negation operand => names operand
  | operation _ left right => names left ++ names right

/-- How deeply the formula of an expression is nested: a literal is a call and counts four, an operator adds two. -/
def nesting : Arithmetic → Nat
  | literal _ => 4
  | name _ => 1
  | negation operand => nesting operand + 2
  | operation _ left right => max (nesting left) (nesting right) + 2

end Arithmetic

/-! ### Writings -/

namespace ArithmeticOperator

def sign : ArithmeticOperator → String
  | add => "+"
  | sub => "-"
  | mul => "*"
  | div => "/"
  | power => "^"

/-- How tightly an operator binds: sums, products, signs and powers count from zero to three. -/
def strength : ArithmeticOperator → Nat
  | add => 0
  | sub => 0
  | mul => 1
  | div => 1
  | power => 3

/-- How tightly the left operand has to bind. -/
def leftStrength : ArithmeticOperator → Nat
  | add => 0
  | sub => 0
  | mul => 1
  | div => 1
  | power => 4

/-- How tightly the right operand has to bind.  The exponent of a power may have a sign or be a power itself. -/
def rightStrength : ArithmeticOperator → Nat
  | add => 1
  | sub => 1
  | mul => 2
  | div => 2
  | power => 2

end ArithmeticOperator

/-- Expressions with their brackets. -/
inductive Writing
  | literal (l : Literal)
  | name (word : String)
  | negation (operand : Writing)
  | operation (op : ArithmeticOperator) (left right : Writing)
  | bracket (inside : Writing)
  deriving DecidableEq, Repr

namespace Writing

def tree : Writing → Arithmetic
  | literal l => .literal l
  | name word => .name word
  | negation operand => .negation (tree operand)
  | operation op left right => .operation op (tree left) (tree right)
  | bracket inside => tree inside

/-- How tightly a writing holds together. -/
def strength : Writing → Nat
  | literal _ => 4
  | name _ => 4
  | negation _ => 2
  | operation op _ _ => op.strength
  | bracket _ => 4

/-- Whether every operand binds as tightly as its place asks. -/
def IsGrouped : Writing → Prop
  | literal _ => True
  | name _ => True
  | negation operand => 2 ≤ operand.strength ∧ IsGrouped operand
  | operation op left right =>
    op.leftStrength ≤ left.strength ∧ op.rightStrength ≤ right.strength ∧ IsGrouped left ∧ IsGrouped right
  | bracket inside => IsGrouped inside

instance decidableIsGrouped : (w : Writing) → Decidable w.IsGrouped
  | literal _ => .isTrue trivial
  | name _ => .isTrue trivial
  | negation operand =>
    have := decidableIsGrouped operand
    inferInstanceAs (Decidable (2 ≤ operand.strength ∧ IsGrouped operand))
  | operation op left right =>
    have := decidableIsGrouped left
    have := decidableIsGrouped right
    inferInstanceAs (Decidable (op.leftStrength ≤ left.strength ∧ op.rightStrength ≤ right.strength ∧ IsGrouped left ∧
      IsGrouped right))
  | bracket inside => decidableIsGrouped inside

/-- How deeply brackets are nested.  The reader puts every literal into brackets of its own. -/
def brackets : Writing → Nat
  | literal _ => 1
  | name _ => 0
  | negation operand => brackets operand
  | operation _ left right => max (brackets left) (brackets right)
  | bracket inside => brackets inside + 1

/-- The tokens of a writing, with given tokens for its literals and given signs for its operators. -/
def spell (ofLiteral : Literal → List Token) (ofOperator : ArithmeticOperator → String) : Writing → List Token
  | literal l => ofLiteral l
  | name word => [.name word]
  | negation operand => .operator "-" :: spell ofLiteral ofOperator operand
  | operation op left right =>
    spell ofLiteral ofOperator left ++ .operator (ofOperator op) :: spell ofLiteral ofOperator right
  | bracket inside => .operator "(" :: spell ofLiteral ofOperator inside ++ [.operator ")"]

/-- The tokens of a writing as they are typed. -/
def tokens (w : Writing) : List Token := w.spell (fun l => [.numeral (String.ofList l.text)]) ArithmeticOperator.sign

end Writing

/-- The tokens behind the last one of an expression. -/
def closingTokens : List Token := [.lineEnd false, .finish]

/-- The writing of an expression in which every operand stands in brackets. -/
def Arithmetic.bracketed : Arithmetic → Writing
  | literal l => .literal l
  | name word => .name word
  | negation operand => .negation (.bracket (bracketed operand))
  | operation op left right => .operation op (.bracket (bracketed left)) (.bracket (bracketed right))

/-- Every expression can be written. -/
theorem Arithmetic.bracketed_isGrouped (e : Arithmetic) : e.bracketed.tree = e ∧ e.bracketed.IsGrouped := by
  induction e with
  | literal l => exact ⟨rfl, trivial⟩
  | name word => exact ⟨rfl, trivial⟩
  | negation operand ih =>
    refine ⟨?_, ?_, ih.2⟩
    · simp only [bracketed, Writing.tree, ih.1]
    · simp [Writing.strength]
  | operation op left right ihl ihr =>
    refine ⟨?_, ?_, ?_, ihl.2, ihr.2⟩
    · simp only [bracketed, Writing.tree, ihl.1, ihr.1]
    · cases op <;> simp [Writing.strength, ArithmeticOperator.leftStrength]
    · cases op <;> simp [Writing.strength, ArithmeticOperator.rightStrength]

/-! ### Layout -/

def Token.typed : Token → List Char
  | .name word => word.toList
  | .operator text => text.toList
  | .numeral text => text.toList
  | _ => []

/-- A text is laid out: its tokens stand in order, with any blanks around and between them. -/
inductive LaidOut : List Token → List Char → Prop
  | blanks {blanks : List Char} (hblanks : ∀ c ∈ blanks, isSpace c) : LaidOut [] blanks
  | token {blanks : List Char} (hblanks : ∀ c ∈ blanks, isSpace c) (t : Token) {ts : List Token} {s : List Char}
      (h : LaidOut ts s) : LaidOut (t :: ts) (blanks ++ t.typed ++ s)

theorem laidOut_of_gaps (gaps : List (List Char × Token)) (blanks : List Char)
    (hgaps : ∀ gap ∈ gaps, ∀ c ∈ gap.1, isSpace c) (hblanks : ∀ c ∈ blanks, isSpace c) :
    LaidOut (gaps.map Prod.snd) (gaps.flatMap (fun gap => gap.1 ++ gap.2.typed) ++ blanks) := by
  induction gaps with
  | nil => exact .blanks hblanks
  | cons gap rest ih =>
    rw [List.map_cons, List.flatMap_cons, List.append_assoc]
    have hrest := ih fun other hother => hgaps other (List.mem_cons_of_mem gap hother)
    exact .token (hgaps gap List.mem_cons_self) gap.2 hrest

theorem laidOut_flatMap (ts : List Token) : LaidOut ts (ts.flatMap Token.typed) := by
  have hgaps := laidOut_of_gaps (ts.map fun t => ([], t)) [] (by simp) (by simp)
  simpa [Function.comp_def, List.flatMap_map] using hgaps

/-- Names that a variable can have: ASCII words that do not begin with a digit. -/
def IsVariableName (word : String) : Prop :=
  ∃ c rest, word.toList = c :: rest ∧ (isAsciiLetter c ∨ c = '_') ∧ ∀ d ∈ rest, isAsciiWord d

/-- What an expression asks of its literals and variables: no literal is too long, and no variable has the name of a
    keyword or of an operation. -/
structure Arithmetic.IsReadable (e : Arithmetic) : Prop where
  literals : ∀ l ∈ e.literals, l.IsReadable
  names : ∀ word ∈ e.names, IsVariableName word ∧ isKeyword word = false ∧ word ∉ operationWords

end Reckoner.Expression
