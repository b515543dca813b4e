import Reckoner.Expression.Display
import Reckoner.Expression.Grammar
import Reckoner.Expression.Literal
import Reckoner.Expression.Scanner
import Reckoner.Expression.Sketch
import Reckoner.Text.Identifier

/-!
# The engine

One expression or assignment is evaluated in a scope.  The text is read as a formula, the powers in its sketch are
sized, and the formula is evaluated, exactly if no power is too large.  The value must be a real number, an infinity,
or something that is no number at all.  An assignment binds its name only when everything has gone well.
-/

namespace Reckoner.Expression

open Reckoner.Algebra Reckoner.Text

/-! ### Answers -/

/-- The value of a line: a real number or a signed infinity, or something else. -/
inductive Answer
  | numeric (t : Term)
  | other (v : Value)
  deriving Repr

/-- Names in the order of their characters, each once. -/
def sortNames (names : List String) : List String := names.eraseDups.mergeSort (· ≤ ·)

/-- The answer that a value gives.  Names without a value are reported before anything else. -/
def Answer.ofValue (v : Value) : Except Failure Answer :=
  match v with
  | .relation names => .error (.unknownNames (sortNames names))
  | .number t =>
    match t.unknowns with
    | [] =>
      match t with
      | .rational q => .ok (.numeric (.rational q))
      | .infinity negative => .ok (.numeric (.infinity negative))
      | _ =>
        if t.mentionsUndefined then .error .undefinedResult
        else if t.isReal then .ok (.numeric t)
        else .error .notReal
    | names => .error (.unknownNames (sortNames names))
  | v => .ok (.other v)

/-! ### Literal exponents -/

/-- The digits of the exponent at the beginning of a text that stands after a mantissa. -/
def exponentDigits? (s : List Char) : Option (List Char) :=
  match s with
  | c :: rest =>
    if c = 'e' ∨ c = 'E' then
      let (_, body) := splitSign rest
      let digits := body.takeWhile isDigit
      if digits.isEmpty then none else some digits
    else none
  | [] => none

/-- The text after the fraction of a numeral, if there is one. -/
def afterFraction (s : List Char) : List Char :=
  match s with
  | '.' :: rest => rest.dropWhile isDigit
  | s => s

/-- The exponents of the decimal literals in a text.  `inside` says that the last character belonged to a word or was a
    point, `skip` how many characters belong to the last literal. -/
def literalExponents (inside : Bool) (skip : Nat) : List Char → List (List Char)
  | [] => []
  | c :: rest =>
    let isInside := isWord c || c = '.'
    match skip with
    | skip + 1 => literalExponents isInside skip rest
    | 0 =>
      if !inside && isDigit c then
        let tail := afterFraction (rest.dropWhile isDigit)
        match exponentDigits? tail with
        | some digits =>
          let signed := (splitSign (tail.drop 1)).2
          digits :: literalExponents isInside (rest.length + digits.length - signed.length) rest
        | none => literalExponents isInside 0 rest
      else literalExponents isInside 0 rest

/-- The value of the digits of an exponent, if there are not too many. -/
def exponentValue? (digits : List Char) : Option Nat :=
  if integerLimit < digits.length then none
  else some (digits.foldl (fun n c => 10 * n + (digitValue? c).getD 0) 0)

/-- Whether the literals of a text are read exactly.  Fails if the exponent of one of them is too large. -/
def readsExactly (settings : Settings) (text : List Char) : Except Failure Bool :=
  match (literalExponents false 0 text).mapM exponentValue? with
  | none => .error .unreadableExponent
  | some exponents =>
    let largest : Int := (exponents.foldl max 0 : Nat)
    if settings.maxDecimalExponent < largest then .error .literalTooLarge
    else .ok (decide (largest ≤ settings.maxExactDigits))

/-! ### Evaluation of texts -/

/-- The least of the words for operations among the identifiers of a text. -/
def operationWord? (text : List Char) : Option String :=
  (operationWords.filter fun word => (identifiers text).contains word.toList).head?

def readProgram (scope : Scope) (exact : Bool) (text : List Char) : Except Failure Program :=
  let vocabulary := Vocabulary.ofScope scope
  match (scan text).bind (resolve vocabulary) with
  | none => .error .malformed
  | some tokens =>
    match complete vocabulary exact tokens with
    | .error .unbalanced => .error .unbalanced
    | .error .malformed => .error .malformed
    | .ok tokens =>
      match Program.read? tokens with
      | none => .error .malformed
      | some program => .ok program

/-- The value of a formula, and whether it was computed with rounded numbers. -/
def evaluateFormula (settings : Settings) (scope : Scope) (f : Formula) : Except Failure (Value × Bool) := do
  if Formula.nestingLimit < f.nesting then throw .evaluation
  let s ← f.sketch settings scope
  if ← s.needsRounding settings then
    return (← s.rounded settings, true)
  else
    return (← f.evaluate settings.workingBits scope, false)

/-- The value of a text, and whether it was computed with rounded numbers. -/
def evaluateText (settings : Settings) (scope : Scope) (text : List Char) : Except Failure (Value × Bool) := do
  let exact ← readsExactly settings text
  let body := trim text
  if body.isEmpty then throw .emptyExpression
  if let some word := operationWord? body then throw (.unknownName word)
  match ← readProgram scope exact body with
  | .empty => throw .nothingToEvaluate
  | .statements none => throw .evaluation
  | .statements (some f) =>
    if Formula.nestingLimit < f.nesting then throw .evaluation
    let s ← f.sketch settings scope
    if ← s.needsRounding settings then return (← s.rounded settings, true) else throw .malformed
  | .expression f => evaluateFormula settings scope f

def splitAssignment? (text : List Char) : Option (String × List Char) :=
  match text.dropWhile isBlank with
  | [] => none
  | c :: rest =>
    if isAsciiLetter c || c = '_' then
      let name := c :: rest.takeWhile isAsciiWord
      match (rest.dropWhile isAsciiWord).dropWhile isBlank with
      | '=' :: right => if right.head? = some '=' then none else some (String.ofList name, right)
      | _ => none
    else none

/-- What the evaluation of a line leaves: the answer, the scope, and the text that was evaluated with rounded numbers,
    if one was. -/
structure Report where
  answer : Except Failure Answer
  scope : Scope
  roundedText : Option String

def evaluateExpression (settings : Settings) (scope : Scope) (text : List Char) : Report :=
  let (target, body) := match splitAssignment? text with
    | some (name, body) => (some name, body)
    | none => (none, text)
  if target.any isKeyword then ⟨.error (.reservedName (target.getD "")), scope, none⟩
  else
    match evaluateText settings scope body with
    | .error f => ⟨.error f, scope, none⟩
    | .ok (v, isRounded) =>
      let roundedText := if isRounded then some (String.ofList body) else none
      match Answer.ofValue v, target with
      | .error f, _ => ⟨.error f, scope, roundedText⟩
      | .ok answer, some name => ⟨.ok answer, scope.assign name v, roundedText⟩
      | .ok answer, none => ⟨.ok answer, scope, roundedText⟩

/-! ### Numbers given as text -/

/-- The display of a value that may be given as text: a text is read as an expression without variables. -/
def displayGiven (settings : Settings) (style : DisplayStyle) (v : Value) : Except DisplayFault String :=
  match v with
  | .text s =>
    match evaluateText settings [] s.toList with
    | .ok (v, _) => style.displayValue v
    | .error .emptyExpression => .error .unreadable
    | .error .malformed => .error .unreadable
    | .error _ => .error .noDecimal
  | v => style.displayValue v

end Reckoner.Expression
