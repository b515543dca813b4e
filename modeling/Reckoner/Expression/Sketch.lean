import Reckoner.Expression.Evaluation
import Reckoner.Settings

/-!
# Sketches

A sketch is a formula whose names have been looked up but whose sums, products, powers, elementary functions and
comparisons have not been carried out.  The powers in a sketch can be sized before any of them is computed, and a sketch
with a power that is too large can be evaluated with rounded numbers instead.

Functions that choose or round (`abs`, `floor`, `min`, …) are carried out at once, unless a power among their arguments
is too large.
-/

namespace Reckoner.Expression

open Reckoner.Algebra Reckoner.Number

/-- Formulas in which operations are held back.  A `bundle` is a tuple or a list. -/
inductive Sketch
  | value (v : Value)
  | sum (items : List Sketch)
  | product (items : List Sketch)
  | power (base exponent : Sketch)
  | apply (f : Builtin) (arguments : List Sketch)
  | comparison (sign : Comparator) (left right : Sketch)
  | conjunction (items : List Sketch)
  | bundle (items : List Sketch)
  | set (items : List Sketch)
  | dictionary (keys values : List Sketch)
  deriving Repr

instance : Inhabited Sketch := ⟨.value .nothing⟩

/-! ### Sizes of powers -/

/-- The size of a nonzero term to 53 bits, the modulus if it is complex; `none` for a term that is no finite number. -/
def modulus? (t : Term) : Option Binary :=
  match t with
  | .infinity _ => none
  | .complexInfinity => none
  | .undefined => none
  | _ =>
    if !t.unknowns.isEmpty then none
    else
      match t.realValue? 53 with
      | some x => some x.abs
      | none => (Term.realValue? 53 (Term.abs t)).map Binary.abs

def logarithmOfTen : Binary :=
  ((Interval.ofInt 10).log? 96).elim (.ofInt 2) fun x => x.pick 53

/-- The decimal logarithm of a natural number to 53 bits. -/
def decimalLogarithm (n : Nat) : Binary :=
  match (Interval.ofInt n).log? 120, (Interval.ofInt 10).log? 120 with
  | some x, some y => Binary.divRounded .nearest 53 (x.pick 110) (y.pick 110)
  | _, _ => .zero

/-- How large a power is: the decimal exponent of its value or of its reciprocal, and the number of digits that its
    exact value takes.  `none` if base or exponent is no finite number. -/
def powerSize? (base exponent : Term) : Option (Binary × Binary) :=
  match modulus? base, modulus? exponent with
  | some b, some e =>
    if b.isZero || e.isZero then some (.zero, .zero)
    else
      let logarithm := ((Interval.point b).log? 96).elim Binary.zero fun x => (x.pick 53).abs
      let magnitude := Binary.divRounded .nearest 53 (e.mulRounded .nearest 53 logarithm) logarithmOfTen
      match base with
      | .rational q =>
        some (magnitude, e.mulRounded .nearest 53 (decimalLogarithm (max q.num.natAbs (max q.den 2))))
      | _ => some (magnitude, magnitude)
  | _, _ => none

/-- What a power asks for: it is out of range, too large to be computed exactly, or neither. -/
inductive Extent
  | outOfRange | large | small
  deriving DecidableEq, Repr

/-- The extent of a power.  With `rounded`, the number of digits of an exact value does not matter. -/
def extentOf (settings : Settings) (rounded : Bool) (base exponent : Term) : Extent :=
  match powerSize? base exponent with
  | none => .small
  | some (magnitude, digits) =>
    if magnitude.compare (.ofInt settings.maxDecimalExponent) = .gt then .outOfRange
    else if (if rounded then magnitude else digits).compare (.ofInt settings.maxExactDigits) = .gt then .large
    else .small

/-- Spare bits of the rounded numbers that a large power leaves behind. -/
def spareBits : Nat := 64

/-- A power, rounded if it is large.  A power out of range has no value. -/
def boundedPower (settings : Settings) (base exponent : Term) : Term :=
  match extentOf settings false base exponent with
  | .outOfRange => .undefined
  | .small => Term.pow base exponent
  | .large =>
    match base, exponent with
    | .rational _, .rational _ => Term.toFloat (settings.workingBits + spareBits) (.power base exponent)
    | _, _ => Term.pow base exponent

namespace Sketch

mutual

/-- The value of a sketch in which large powers are rounded.  Booleans other than comparisons have no place in it. -/
def settle (settings : Settings) : Sketch → Outcome
  | .value (.number t) => .ok (.number t)
  | .value (.relation names) => .ok (.relation names)
  | .value _ => .error .notNumeric
  | .sum items => (settleNumbers settings items).map fun ts => .number (ts.foldl Term.add .zero)
  | .product items => (settleNumbers settings items).map fun ts => .number (ts.foldl Term.mul .one)
  | .power base exponent =>
    match settle settings base with
    | .error f => .error f
    | .ok v =>
      match settle settings exponent with
      | .error f => .error f
      | .ok w =>
        match v, w with
        | .number s, .number t => .ok (.number (boundedPower settings s t))
        | _, _ => .error .evaluation
  | .apply f arguments =>
    match settleNumbers settings arguments with
    | .error f => .error f
    | .ok ts => applyBuiltin settings.workingBits f (ts.map .number)
  | .comparison sign left right =>
    match settle settings left with
    | .error f => .error f
    | .ok v =>
      match settle settings right with
      | .error f => .error f
      | .ok w => (compareValues sign v w).map fun
        | .flag b => .truth b
        | verdict => verdict
  | .conjunction _ => .error .notNumeric
  | .bundle _ => .error .notNumeric
  | .set _ => .error .notNumeric
  | .dictionary _ _ => .error .notNumeric

def settleNumbers (settings : Settings) : List Sketch → Except Failure (List Term)
  | [] => .ok []
  | s :: rest =>
    match settle settings s with
    | .error f => .error f
    | .ok (.number t) => (settleNumbers settings rest).map (t :: ·)
    | .ok _ => .error .evaluation

end

end Sketch

mutual

/-- The powers inside a term, each after those inside it; the exponential function is none. -/
def Term.powers : Term → List (Term × Term)
  | .power base exponent =>
    match base with
    | .e => powers exponent
    | _ => powers base ++ powers exponent ++ [(base, exponent)]
  | .unknown _ arguments => powersOf arguments
  | .sum terms => powersOf terms
  | .product factors => powersOf factors
  | .call _ arguments => powersOf arguments
  | _ => []

def Term.powersOf : List Term → List (Term × Term)
  | [] => []
  | t :: rest => Term.powers t ++ Term.powersOf rest

end

namespace Sketch

/-- The term of a sketch, if it has settled to a number. -/
def number? (settings : Settings) (s : Sketch) : Option Term :=
  match s.settle settings with
  | .ok (.number t) => some t
  | _ => none

mutual

/-- The powers in a sketch whose base and exponent are numbers, each after those inside it. -/
def powers (settings : Settings) : Sketch → List (Term × Term)
  | .value (.number t) => Term.powers t
  | .value _ => []
  | .sum items => powersOf settings items
  | .product items => powersOf settings items
  | .power base exponent =>
    powers settings base ++ powers settings exponent ++
      match base.number? settings, exponent.number? settings with
      | some s, some t => [(s, t)]
      | _, _ => []
  | .apply _ arguments => powersOf settings arguments
  | .comparison _ left right => powers settings left ++ powers settings right
  | .conjunction items => powersOf settings items
  | .bundle items => powersOf settings items
  | .set items => powersOf settings items
  | .dictionary keys values => powersOf settings keys ++ powersOf settings values

def powersOf (settings : Settings) : List Sketch → List (Term × Term)
  | [] => []
  | s :: rest => powers settings s ++ powersOf settings rest

end

end Sketch

/-- Whether one of several powers is too large to be computed exactly; fails at the first that is out of range. -/
def anyLarge (settings : Settings) (rounded : Bool) : List (Term × Term) → Except Failure Bool
  | [] => .ok rounded
  | (base, exponent) :: rest =>
    match extentOf settings rounded base exponent with
    | .outOfRange => .error .outOfRange
    | .large => anyLarge settings true rest
    | .small => anyLarge settings rounded rest

namespace Sketch

/-- Whether a sketch stands for a number or for a boolean, and not for a collection or another object. -/
def isMathematical : Sketch → Bool
  | .value (.number _) => true
  | .value (.truth _) => true
  | .value (.relation _) => true
  | .value _ => false
  | .bundle _ => false
  | .set _ => false
  | .dictionary _ _ => false
  | _ => true

/-- Whether a sketch has to be evaluated with rounded numbers because of a large power in it. -/
def needsRounding (settings : Settings) (s : Sketch) : Except Failure Bool :=
  if s.isMathematical then anyLarge settings false (s.powers settings) else .ok false

def rounded (settings : Settings) (s : Sketch) : Outcome :=
  match s.settle settings with
  | .ok (.number t) =>
    .ok (.number (if t.unknowns.isEmpty then Term.toFloat settings.workingBits t else t))
  | outcome => outcome

/-! ### Building sketches -/

/-- Whether a sketch can be an operand of a sum, a product or a power. -/
def isOperand : Sketch → Bool
  | .value (.number _) => true
  | .value (.truth _) => true
  | .value (.flag _) => true
  | .value (.tuple _) => true
  | .value (.set _) => true
  | .value (.dictionary _ _) => true
  | .value _ => false
  | .comparison _ _ _ => false
  | _ => true

/-- Two or more operands joined, if all of them are operands. -/
def joinOperands (join : List Sketch → Sketch) (items : List Sketch) : Except Failure Sketch :=
  if items.all isOperand then .ok (join items) else .error .evaluation

def unary (op : UnaryOperator) (s : Sketch) : Except Failure Sketch :=
  match op, s with
  | _, .value v => (operateUnary op v).map .value
  | .complement, .comparison sign left right => .ok (.comparison sign left right)
  | .complement, .conjunction items => .ok (.conjunction items)
  | .complement, _ => .error .evaluation
  | _, .comparison _ _ _ => .error .evaluation
  | _, .conjunction _ => .error .evaluation
  | _, .bundle _ => .error .evaluation
  | _, .set _ => .error .evaluation
  | _, .dictionary _ _ => .error .evaluation
  | .plus, s => .ok s
  | .minus, s => .ok (.product [.value (.number .minusOne), s])

/-- A member of a conjunction: booleans, comparisons, and the numbers zero and one. -/
def asCondition? (s : Sketch) : Option Sketch :=
  match s with
  | .value (.truth _) => some s
  | .value (.flag b) => some (.value (.truth b))
  | .value (.relation _) => some s
  | .value (.number (.rational q)) =>
    if q = 1 then some (.value (.truth true)) else if q = 0 then some (.value (.truth false)) else none
  | .comparison _ _ _ => some s
  | .conjunction _ => some s
  | _ => none

def conjoin (items : List Sketch) : Except Failure Sketch :=
  match items.mapM asCondition? with
  | none => .error .evaluation
  | some conditions =>
    if conditions.any fun | .value (.truth b) => !b | _ => false then .ok (.value (.truth false))
    else
      match conditions.filter fun | .value (.truth _) => false | _ => true with
      | [] => .ok (.value (.truth true))
      | [s] => .ok s
      | rest => .ok (.conjunction rest)

/-- Whether a sketch counts as true; a comparison does not know. -/
def decideTruth (s : Sketch) : Except Failure Bool :=
  match s with
  | .value v => Expression.decideTruth v
  | .comparison _ _ _ => .error .evaluation
  | .bundle items => .ok (!items.isEmpty)
  | .set items => .ok (!items.isEmpty)
  | .dictionary keys _ => .ok (!keys.isEmpty)
  | _ => .ok true

/-- Functions that are held back when they are called by these names. -/
def heldNames : List String := ["sin", "cos", "tan", "exp", "log", "ln", "sqrt"]

def values? (items : List Sketch) : Option (List Value) :=
  items.mapM fun
    | .value v => some v
    | _ => none

/-- Whether a function can be held back with this many arguments. -/
def takesCount (f : Builtin) (count : Nat) : Bool :=
  match f with
  | .log => count = 1 || count = 2
  | .mod => count = 2
  | .min => true
  | .max => true
  | .round => false
  | _ => count = 1

/-- The remainder of a power of whole numbers, by repeated squaring. -/
def powerRemainder? (arguments : List Sketch) : Option Value :=
  match arguments with
  | [.power (.value (.number (.rational b))) (.value (.number (.rational e))), .value (.number (.rational m))] =>
    if b.den = 1 ∧ e.den = 1 ∧ m.den = 1 ∧ 0 ≤ b ∧ 0 ≤ e ∧ 0 < m then
      some (.number (.ofInt (powMod b.num.natAbs m.num.natAbs e.num.natAbs)))
    else none
  | _ => none
where
  /-- The power `b ^ e` modulo `m`. -/
  powMod (b m e : Nat) : Nat :=
    if e = 0 then 1 % m
    else
      let half := powMod (b * b % m) m (e / 2)
      if e % 2 = 1 then half * b % m else half
  termination_by e
  decreasing_by omega

/-- A call of a function that is not held back: it is carried out, unless an argument holds a large power. -/
def carryOut (settings : Settings) (f : Builtin) (arguments : List Sketch) : Except Failure Sketch :=
  match values? arguments with
  | some vs => (applyBuiltin settings.workingBits f vs).map .value
  | none =>
    match f with
    | .whole => settled
    | .rational => .error .evaluation
    | .rounded => .error .evaluation
    | .symbol => .error .evaluation
    | .factorial => .error .factorial
    | .mod =>
      match powerRemainder? arguments with
      | some v => .ok (.value v)
      | none => settled
    | _ => settled
where
  /-- The call, on what its arguments settle to. -/
  settled : Except Failure Sketch :=
    match anyLarge settings false (powersOf settings arguments) with
    | .ok false =>
      match arguments.mapM (settle settings) with
      | .error _ => .error .evaluation
      | .ok vs => (applyBuiltin settings.workingBits f vs).map .value
    | _ => .ok (.apply f arguments)

/-- A call.  `word` is the name under which the function is called. -/
def call (settings : Settings) (word : String) (f : Value) (labels : List String) (arguments : List Sketch) :
    Except Failure Sketch :=
  match f with
  | .function f =>
    if labels.all (· = "") then
      if heldNames.contains word then
        if !takesCount f arguments.length then .error .evaluation
        else if arguments.any fun | .value (.function _) => true | _ => false then .error .evaluation
        else
          match f, arguments with
          | .sqrt, [s] => .ok (.power s (.value (.number .half)))
          | _, _ => .ok (.apply f arguments)
      else carryOut settings f arguments
    else
      match values? arguments with
      | some vs => (callValue settings.workingBits (.function f) labels vs).map .value
      | none =>
        match f, labels, arguments with
        | .round, ["", "digits"], [_, _] => carryOut settings f arguments
        | _, _, _ => .error .evaluation
  | _ => .error .evaluation

/-- Whether a key of a dictionary is equal to a value; operations that are held back are equal to none. -/
def isKey (i : Value) : Sketch → Bool
  | .value k => k.equal i
  | _ => false

def item (object index : Sketch) : Except Failure Sketch :=
  match object, index with
  | .value v, .value i => (itemAt v i).map .value
  | .bundle items, .value i =>
    match i.whole? with
    | some n =>
      let k := if n < 0 then n + items.length else n
      if 0 ≤ k then
        match items[k.toNat]? with
        | some s => .ok s
        | none => .error .outOfBounds
      else .error .outOfBounds
    | none => .error .evaluation
  | .dictionary keys values, .value i =>
    match (keys.zip values).find? fun (k, _) => k.isKey i with
    | some (_, s) => .ok s
    | none => .error .missingKey
  | .dictionary _ _, _ => .error .missingKey
  | _, _ => .error .evaluation

def reciprocal (s : Sketch) : Sketch := .power s (.value (.number .minusOne))

end Sketch

/-! ### Drafts -/

/-- A sketch whose outermost sum or product can still take in more operands.  Whether they are operands at all is
    decided when the draft is closed. -/
inductive Draft
  | finished (s : Sketch)
  | sum (items : List Sketch)
  | product (items : List Sketch)
  deriving Repr

namespace Draft

def close (d : Draft) : Except Failure Sketch :=
  match d with
  | .finished s => .ok s
  | .sum items => Sketch.joinOperands .sum items
  | .product items => Sketch.joinOperands .product items

/-- The summands that a draft contributes to a sum around it. -/
def summands (d : Draft) : Except Failure (List Sketch) :=
  match d with
  | .sum items => .ok items
  | d => d.close.map fun s => [s]

/-- The factors that a draft contributes to a product around it. -/
def factors (d : Draft) : Except Failure (List Sketch) :=
  match d with
  | .product items => .ok items
  | d => d.close.map fun s => [s]

def sketchOf (d : Except Failure Draft) : Except Failure Sketch := d.bind close

/-- An operator that is held back, between drafts. -/
def join (op : BinaryOperator) (d e : Except Failure Draft) : Except Failure Draft :=
  match op with
  | .add => do
    let xs ← d.bind summands
    let ys ← e.bind summands
    return .sum (xs ++ ys)
  | .sub => do
    let xs ← d.bind summands
    let s ← sketchOf e
    let negated ← Sketch.joinOperands .product [.value (.number .minusOne), s]
    return .sum (xs ++ [negated])
  | .mul => do
    let xs ← d.bind factors
    let ys ← e.bind factors
    return .product (xs ++ ys)
  | .div => do
    let xs ← d.bind factors
    let s ← sketchOf e
    if s.isOperand then return .product (xs ++ [s.reciprocal]) else throw .evaluation
  | .power => do
    let s ← sketchOf d
    let t ← sketchOf e
    if s.isOperand && t.isOperand then return .finished (.power s t) else throw .evaluation
  | .meet => do
    let s ← sketchOf d
    let t ← sketchOf e
    return .finished (← Sketch.conjoin [s, t])
  | _ => .error .evaluation

end Draft

namespace Formula

/-- An operator that is not held back is carried out on the values of its operands. -/
def carryOut (settings : Settings) (scope : Scope) (op : BinaryOperator) (left right : Formula) :
    Except Failure Sketch := do
  let v ← evaluate settings.workingBits scope left
  let w ← evaluate settings.workingBits scope right
  return .value (← operate op v w)

mutual

/-- The sketch of a formula, whose outermost sum or product is still open. -/
def draft (settings : Settings) (scope : Scope) : Formula → Except Failure Draft
  | .name word => (nameOutcome scope word).map fun v => .finished (.value v)
  | .numeral n => .ok (.finished (.value (.number (.rational n))))
  | .quotation s => .ok (.finished (.value (.text s)))
  | .constant c => .ok (.finished (.value c.value))
  | .unary op operand => do
    let s ← Draft.sketchOf (draft settings scope operand)
    return .finished (← s.unary op)
  | .binary op left right =>
    match op with
    | .join =>
      if scope.binds "Or" then do
        let _ ← Draft.sketchOf (draft settings scope left)
        let _ ← Draft.sketchOf (draft settings scope right)
        throw .evaluation
      else .error .evaluation
    | .remainder => (carryOut settings scope op left right).map .finished
    | .quotient => (carryOut settings scope op left right).map .finished
    | .shiftLeft => (carryOut settings scope op left right).map .finished
    | .shiftRight => (carryOut settings scope op left right).map .finished
    | .matrix => (carryOut settings scope op left right).map .finished
    | _ => Draft.join op (draft settings scope left) (draft settings scope right)
  | .comparison first signs others =>
    if signs.any fun sign => sign = .isIn ∨ sign = .isNotIn ∨ sign = .same ∨ sign = .notSame then .error .evaluation
    else do
      let s ← Draft.sketchOf (draft settings scope first)
      match ← draftChain settings scope s signs others with
      | [c] => return .finished c
      | cs => return .finished (← Sketch.conjoin cs)
  | .junction isConjunction operands => (draftJunction settings scope isConjunction operands).map .finished
  | .negation operand => do
    let s ← Draft.sketchOf (draft settings scope operand)
    return .finished (.value (.flag (!(← s.decideTruth))))
  | .conditional test yes no => do
    let s ← Draft.sketchOf (draft settings scope test)
    let chosen ← if ← s.decideTruth then Draft.sketchOf (draft settings scope yes)
      else Draft.sketchOf (draft settings scope no)
    return .finished chosen
  | .call f labels arguments => do
    let g ← Draft.sketchOf (draft settings scope f)
    let items ← draftAll settings scope arguments
    match f, g with
    | .name word, .value v => return .finished (← Sketch.call settings word v labels items)
    | _, .value v => return .finished (← Sketch.call settings "" v labels items)
    | _, _ => throw .evaluation
  | .subscript object index => do
    let s ← Draft.sketchOf (draft settings scope object)
    let i ← Draft.sketchOf (draft settings scope index)
    return .finished (← s.item i)
  | .member object _ => do
    let _ ← Draft.sketchOf (draft settings scope object)
    throw .evaluation
  | .binding _ value => (Draft.sketchOf (draft settings scope value)).map .finished
  | .tuple items => (draftAll settings scope items).map fun xs => .finished (.bundle xs)
  | .list items => (draftAll settings scope items).map fun xs => .finished (.bundle xs)
  | .set items => (draftAll settings scope items).map fun xs => .finished (.set xs)
  | .dictionary keys values => do
    let ks ← draftAll settings scope keys
    let vs ← draftAll settings scope values
    return .finished (.dictionary ks vs)

def draftAll (settings : Settings) (scope : Scope) : List Formula → Except Failure (List Sketch)
  | [] => .ok []
  | f :: rest => do
    let s ← Draft.sketchOf (draft settings scope f)
    return s :: (← draftAll settings scope rest)

/-- The comparisons of a chain that begins with a sketch. -/
def draftChain (settings : Settings) (scope : Scope) (s : Sketch) :
    List Comparator → List Formula → Except Failure (List Sketch)
  | sign :: signs, f :: rest => do
    let t ← Draft.sketchOf (draft settings scope f)
    return .comparison sign s t :: (← draftChain settings scope t signs rest)
  | _, _ => .ok []

/-- The first operand that decides a conjunction or a disjunction, or else the last one. -/
def draftJunction (settings : Settings) (scope : Scope) (isConjunction : Bool) :
    List Formula → Except Failure Sketch
  | [] => .ok (.value .nothing)
  | f :: rest => do
    let s ← Draft.sketchOf (draft settings scope f)
    match rest with
    | [] => return s
    | _ :: _ =>
      if (← s.decideTruth) == isConjunction then draftJunction settings scope isConjunction rest else return s

end

def sketch (settings : Settings) (scope : Scope) (f : Formula) : Except Failure Sketch :=
  Draft.sketchOf (f.draft settings scope)

end Formula

end Reckoner.Expression
