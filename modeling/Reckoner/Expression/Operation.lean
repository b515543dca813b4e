import Reckoner.Expression.Value

/-!
# Operations on values

What operators, comparisons and functions do to values.  Numbers follow the algebra of terms; a flag takes the place of
zero or one beside whole numbers; tuples can be joined and repeated; everything else fails.
-/

namespace Reckoner.Expression

open Reckoner.Algebra

abbrev Outcome := Except Failure Value

/-- A value that is missing because the operation failed. -/
def orFailure (t : Option Term) : Outcome :=
  match t with
  | some t => .ok (.number t)
  | none => .error .evaluation

def flagTerm (b : Bool) : Term := if b then .one else .zero

/-- Exponents of whole powers and shifts beyond this size are not attempted. -/
def shiftLimit : Int := 100000000

def operateNumbers (op : BinaryOperator) (a b : Term) : Outcome :=
  match op with
  | .add => .ok (.number (Term.add a b))
  | .sub => .ok (.number (Term.sub a b))
  | .mul => .ok (.number (Term.mul a b))
  | .div => .ok (.number (Term.div a b))
  | .power => .ok (.number (Term.pow a b))
  | .remainder => orFailure (Term.remainder? a b)
  | .quotient => orFailure (Term.quotient? a b)
  | .shiftLeft =>
    match (Value.number a).whole?, (Value.number b).whole? with
    | some m, some n => if 0 ≤ n ∧ n ≤ shiftLimit then .ok (.number (.ofInt (m * 2 ^ n.toNat))) else .error .evaluation
    | _, _ => .error .evaluation
  | .shiftRight =>
    match (Value.number a).whole?, (Value.number b).whole? with
    | some m, some n =>
      if 0 ≤ n ∧ n ≤ shiftLimit then .ok (.number (.ofInt (Int.fdiv m (2 ^ n.toNat)))) else .error .evaluation
    | _, _ => .error .evaluation
  | .meet =>
    match (Value.number a).whole?, (Value.number b).whole? with
    | some m, some n => if 0 ≤ m ∧ 0 ≤ n then .ok (.number (.ofInt (m.toNat &&& n.toNat : Nat))) else .error .evaluation
    | _, _ => .error .evaluation
  | .join =>
    match (Value.number a).whole?, (Value.number b).whole? with
    | some m, some n => if 0 ≤ m ∧ 0 ≤ n then .ok (.number (.ofInt (m.toNat ||| n.toNat : Nat))) else .error .evaluation
    | _, _ => .error .evaluation
  | .matrix => .error .evaluation

def repeatLimit : Nat := 10000

def repeatItems (n : Int) (items : List Value) : List Value :=
  (List.replicate (min n.toNat repeatLimit) items).flatten

def operate (op : BinaryOperator) (v w : Value) : Outcome :=
  match v, w with
  | .number a, .number b => operateNumbers op a b
  | .number (.rational q), .flag b =>
    if q.den = 1 then operateNumbers op (.rational q) (flagTerm b) else .error .evaluation
  | .flag a, .number (.rational q) =>
    if q.den = 1 then operateNumbers op (flagTerm a) (.rational q) else .error .evaluation
  | .flag a, .flag b =>
    match op with
    | .meet => .ok (.flag (a && b))
    | .join => .ok (.flag (a || b))
    | _ => operateNumbers op (flagTerm a) (flagTerm b)
  | .tuple xs, .tuple ys =>
    match op with
    | .add => .ok (.tuple (xs ++ ys))
    | _ => .error .evaluation
  | .tuple xs, _ =>
    match op, w.whole? with
    | .mul, some n => .ok (.tuple (repeatItems n xs))
    | _, _ => .error .evaluation
  | _, .tuple ys =>
    match op, v.whole? with
    | .mul, some n => .ok (.tuple (repeatItems n ys))
    | _, _ => .error .evaluation
  | .truth a, .truth b =>
    match op with
    | .meet => .ok (.truth (a && b))
    | .join => .ok (.truth (a || b))
    | _ => .error .evaluation
  | .truth a, .flag b =>
    match op with
    | .meet => .ok (.truth (a && b))
    | .join => .ok (.truth (a || b))
    | _ => .error .evaluation
  | .flag a, .truth b =>
    match op with
    | .meet => .ok (.truth (a && b))
    | .join => .ok (.truth (a || b))
    | _ => .error .evaluation
  | .relation xs, .relation ys =>
    match op with
    | .meet => .ok (.relation (xs ++ ys))
    | .join => .ok (.relation (xs ++ ys))
    | _ => .error .evaluation
  | _, _ => .error .evaluation

def operateUnary (op : UnaryOperator) (v : Value) : Outcome :=
  match op, v with
  | .plus, .number t => .ok (.number t)
  | .minus, .number t => .ok (.number (Term.neg t))
  | .complement, .number (.rational q) =>
    if q.den = 1 then .ok (.number (.ofInt (-(q.num + 1)))) else .error .evaluation
  | .complement, .truth b => .ok (.truth (!b))
  | .plus, .flag b => .ok (.number (flagTerm b))
  | .minus, .flag b => .ok (.number (Term.neg (flagTerm b)))
  | .complement, .flag b => .ok (.number (.ofInt (if b then -2 else -1)))
  | .complement, .relation names => .ok (.relation names)
  | _, _ => .error .evaluation

/-! ### Comparison -/

/-- Whether an order satisfies a sign of comparison. -/
def Comparator.accepts (sign : Comparator) (o : Ordering) : Bool :=
  match sign with
  | .equal => o == .eq
  | .unequal => o != .eq
  | .less => o == .lt
  | .lessEqual => o != .gt
  | .greater => o == .gt
  | .greaterEqual => o != .lt
  | _ => false

/-- Compare two numbers by order.  Numbers with unknown names stay undecided. -/
def compareNumbers (sign : Comparator) (a b : Term) : Outcome :=
  let names := a.unknowns ++ b.unknowns
  if !names.isEmpty then .ok (.relation names)
  else
    match Term.order? a b with
    | some o => .ok (.truth (sign.accepts o))
    | none => .error .evaluation

def compareValues (sign : Comparator) (v w : Value) : Outcome :=
  match sign with
  | .equal => .ok (.flag (v.equal w))
  | .unequal => .ok (.flag (!v.equal w))
  | .isIn => .error .evaluation
  | .isNotIn => .error .evaluation
  | .same => .error .evaluation
  | .notSame => .error .evaluation
  | _ =>
    match v, w with
    | .number a, .number b => compareNumbers sign a b
    | _, _ => .error .evaluation

/-- Whether a value counts as true; an undecided comparison does not know. -/
def decideTruth (v : Value) : Except Failure Bool :=
  match v with
  | .relation _ => .error .evaluation
  | _ => .ok (!v.isFalse)

/-! ### Functions -/

/-- The text under which a term is named in a message. -/
def termName (t : Term) : String :=
  match t with
  | .rational q => if q.den = 1 then toString q.num else toString q.num ++ "/" ++ toString q.den
  | .infinity negative => if negative then "-oo" else "oo"
  | .complexInfinity => "zoo"
  | .undefined => "nan"
  | .pi => "pi"
  | .e => "E"
  | .symbol name => name
  | t => if t.same .imaginaryUnit then "I" else "?"

/-- The text under which a value is named in a message. -/
def valueName (v : Value) : String :=
  match v with
  | .number t => termName t
  | .truth b => if b then "True" else "False"
  | .flag b => if b then "True" else "False"
  | .nothing => "None"
  | .text s => s
  | _ => "?"

/-- A whole number from a number, cut toward zero. -/
def cutToWhole? (t : Term) : Option Int :=
  match t with
  | .rational q => some (Int.tdiv q.num q.den)
  | .float x _ => (Term.exactRational? (.float x 0)).map fun q => Int.tdiv q.num q.den
  | t => do
    let s ← t.sign?
    match Term.floorReal? (if s < 0 then Term.neg t else t) with
    | some n => some (if s < 0 then -n else n)
    | none => none

def rationalOfText? (s : String) : Option Rat :=
  let cs := s.toList.filter (· ≠ ' ')
  let (negative, digits) := match cs with
    | '-' :: rest => (true, rest)
    | '+' :: rest => (false, rest)
    | rest => (false, rest)
  let n := numeralLength digits
  if n ≠ 0 ∧ n = digits.length then
    (decimalParts? digits).map fun parts => if negative then -parts.value else parts.value
  else none
where
  /-- The length of the decimal numeral that a text begins with. -/
  numeralLength (s : List Char) : Nat :=
    let isPart := fun (c : Char) => Text.isAsciiDigit c || c = '.' || c = '_' || c = 'e' || c = 'E' || c = '+' || c = '-'
    if s.any Text.isAsciiDigit then (s.takeWhile isPart).length else 0

def makeRational (arguments : List Value) : Outcome :=
  let part : Value → Option Rat := fun
    | .number (.rational q) => some q
    | .number t => Term.exactRational? t
    | .text s => rationalOfText? s
    | _ => none
  match arguments with
  | [v] =>
    match v with
    | .number (.infinity negative) => .ok (.number (.infinity negative))
    | .number .complexInfinity => .ok (.number .complexInfinity)
    | .number .undefined => .ok (.number .undefined)
    | _ =>
      match part v with
      | some q => .ok (.number (.rational q))
      | none => .error .evaluation
  | [v, w] =>
    match part v, part w with
    | some p, some q => .ok (.number (Term.div (.rational p) (.rational q)))
    | _, _ => .error .evaluation
  | _ => .error .evaluation

def makeWhole (arguments : List Value) : Outcome :=
  match arguments with
  | [.number t] =>
    match cutToWhole? t with
    | some n => .ok (.number (.ofInt n))
    | none => .error .evaluation
  | [.flag b] => .ok (.number (flagTerm b))
  | [.text s] =>
    match rationalOfText? s with
    | some q => if q.den = 1 ∧ !s.toList.contains '.' then .ok (.number (.rational q)) else .error .evaluation
    | none => .error .evaluation
  | _ => .error .evaluation

def makeRounded (bits : Nat) (arguments : List Value) : Outcome :=
  match arguments with
  | [.number t] => .ok (.number (Term.toFloat bits t))
  | [.text s] =>
    match decimalParts? s.toList with
    | some parts =>
      let (n, e) := parts.scientific
      .ok (.number (roundedDecimal bits n e))
    | none => .error .evaluation
  | _ => .error .evaluation
where
  /-- The number `n * 10 ^ e` rounded. -/
  roundedDecimal (bits : Nat) (n : Nat) (e : Int) : Term :=
    if n = 0 then .zero
    else if e.natAbs ≤ 20000 then
      Term.ofBinary (Number.Binary.ofRat .nearest bits (if 0 ≤ e then ((n * 10 ^ e.toNat : Nat) : Rat)
        else mkRat n (10 ^ (-e).toNat))).normal bits
    else
      let wide := bits + 40 + Number.bitLength e.natAbs
      let power := Number.Interval.pow wide (.ofInt 10) e.natAbs
      let size := power.pick wide
      let x := Number.Binary.ofInt n
      Term.ofBinary
        (if 0 ≤ e then x.mulRounded .nearest bits size else Number.Binary.divRounded .nearest bits x size).normal bits

def applyToNumber (f : Builtin) (t : Term) : Outcome :=
  match f with
  | .sqrt => .ok (.number (Term.sqrt t))
  | .sin => .ok (.number (Term.sin t))
  | .cos => .ok (.number (Term.cos t))
  | .tan => .ok (.number (Term.tan t))
  | .abs => .ok (.number (Term.abs t))
  | .exp => .ok (.number (Term.exp t))
  | .log => .ok (.number (Term.log t))
  | .ceil => orFailure (Term.ceiling? t)
  | .floor => orFailure (Term.floor? t)
  | .round => orFailure (Term.round? t 0)
  | _ => .error .evaluation

/-- The numbers in a list of values, if all are numbers. -/
def numbers? (vs : List Value) : Option (List Term) := vs.mapM Value.number?

/-- The number of decimal places that a value asks for. -/
def places? (v : Value) : Option Int :=
  match v with
  | .number (.infinity _) => none
  | .number t => if t.unknowns.isEmpty then cutToWhole? t else none
  | .flag b => some (if b then 1 else 0)
  | _ => none

/-- Apply a function.  `bits` is the precision of rounded literals. -/
def applyBuiltin (bits : Nat) (f : Builtin) (arguments : List Value) : Outcome :=
  match f, arguments with
  | .symbol, v :: _ => .error (.unknownName (valueName v))
  | .factorial, _ => .error .factorial
  | .whole, _ => makeWhole arguments
  | .rational, _ => makeRational arguments
  | .rounded, _ => makeRounded bits arguments
  | .min, _ =>
    match numbers? arguments with
    | some ts => orFailure (Term.least? ts)
    | none => .error .evaluation
  | .max, _ =>
    match numbers? arguments with
    | some ts => orFailure (Term.greatest? ts)
    | none => .error .evaluation
  | .log, [.number t, .number base] => .ok (.number (Term.logBase t base))
  | .mod, [.number a, .number b] => orFailure (Term.remainder? a b)
  | .mod, _ => .error .evaluation
  | .round, [.number t, places] =>
    match t with
    | .rational q =>
      if q.den = 1 then .ok (.number t)
      else
        match places? places with
        | some n => orFailure (Term.round? t n)
        | none => .error .evaluation
    | _ =>
      match places? places with
      | some n => orFailure (Term.round? t n)
      | none => .error .evaluation
  | _, [.number t] => applyToNumber f t
  | _, _ => .error .evaluation

/-- Call a value with labelled arguments: stars unpack tuples and lists, and only the number of places has a name. -/
def callValue (bits : Nat) (f : Value) (labels : List String) (arguments : List Value) : Outcome :=
  match f with
  | .function f => do
    let mut positional : List Value := []
    let mut named : List (String × Value) := []
    for (label, v) in labels.zip arguments do
      if label = "" then positional := positional ++ [v]
      else if label = "*" then
        match v with
        | .tuple items => positional := positional ++ items
        | .list items => positional := positional ++ items
        | _ => throw .evaluation
      else named := named ++ [(label, v)]
    match named with
    | [] => applyBuiltin bits f positional
    | [("digits", v)] =>
      match f, positional with
      | .round, [_] => applyBuiltin bits f (positional ++ [v])
      | _, _ => .error .evaluation
    | _ => .error .evaluation
  | _ => .error .evaluation

/-- The item of a tuple, a list or a text at an index, which counts from the end if it is negative. -/
def itemAt (object index : Value) : Outcome :=
  let pick := fun (items : List Value) =>
    match index.whole? with
    | some n =>
      let i := if n < 0 then n + items.length else n
      if 0 ≤ i then
        match items[i.toNat]? with
        | some v => .ok v
        | none => .error .outOfBounds
      else .error .outOfBounds
    | none => .error .evaluation
  match object with
  | .tuple items => pick items
  | .list items => pick items
  | .text s => pick (s.toList.map fun c => .text (String.ofList [c]))
  | .dictionary keys values =>
    match (keys.zip values).find? fun (k, _) => k.equal index with
    | some (_, v) => .ok v
    | none => .error .missingKey
  | _ => .error .evaluation

end Reckoner.Expression
