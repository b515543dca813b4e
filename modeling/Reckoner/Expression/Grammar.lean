import Reckoner.Expression.Formula

/-!
# Grammar

Reading a formula from complete tokens.  From the loosest to the tightest, operators are `or`, `and`, `not`,
comparisons, `|`, `&`, shifts, sums, products, signs and powers; a power groups to the right and binds tighter than a
sign to its left, every other operator between operands groups to the left.

Every function here takes the number of nested calls it may still make.  It never runs out, because `Program.read?`
starts with more calls than the tokens can ask for.
-/

namespace Reckoner.Expression

/-! ### From complete tokens to readable ones -/

/-- Cut joined operator texts into operators again; `none` if some character begins no operator. -/
def cutOperators (s : List Char) : Option (List Token) :=
  match s with
  | [] => some []
  | c :: rest =>
    match operatorAt? (c :: rest) with
    | none => none
    | some text => (cutOperators (rest.drop (text.length - 1))).map (.operator (String.ofList text) :: ·)
termination_by s.length
decreasing_by
  simp only [List.length_drop, List.length_cons]
  omega

/-- Neighbouring operators are written without a gap, so `* *` is read as `**`.  `pending` is the joined text so far.
    A comment hides the rest of its line; empty numerals vanish, and line breaks only part operators. -/
def joinOperators (pending : List Char) (hidden : Bool) : List Token → Option (List Token)
  | [] => cutOperators pending
  | t :: rest =>
    match hidden, t with
    | true, .lineEnd true => (joinOperators [] false rest).map (t :: ·)
    | true, .lineBreak => joinOperators pending false rest
    | true, _ => joinOperators pending true rest
    | false, .operator " " => do return (← cutOperators pending) ++ (← joinOperators [] false rest)
    | false, .operator text => joinOperators (pending ++ text.toList) false rest
    | false, .comment => do return (← cutOperators pending) ++ (← joinOperators [] true rest)
    | false, .lineBreak => do return (← cutOperators pending) ++ (← joinOperators [] false rest)
    | false, .lineEnd false => joinOperators pending false rest
    | false, .finish => joinOperators pending false rest
    | false, .numeral "" => do return (← cutOperators pending) ++ (← joinOperators [] false rest)
    | false, .indentation => none
    | false, t => do return (← cutOperators pending) ++ t :: (← joinOperators [] false rest)

/-- The greatest number of brackets open at one time. -/
def bracketDepth (depth deepest : Nat) : List Token → Nat
  | [] => deepest
  | .operator text :: rest =>
    if text = "(" ∨ text = "[" ∨ text = "\x7b" then bracketDepth (depth + 1) (max deepest (depth + 1)) rest
    else if text = ")" ∨ text = "]" ∨ text = "\x7d" then bracketDepth (depth - 1) deepest rest
    else bracketDepth depth deepest rest
  | _ :: rest => bracketDepth depth deepest rest

/-- Brackets nested more deeply than this are not read. -/
def bracketLimit : Nat := 200

/-! ### Formulas -/

abbrev Reading := Option (Formula × List Token)

/-- Binary operators of each strength, from the loosest to the tightest. -/
def binaryOperator? (level : Nat) (text : String) : Option BinaryOperator :=
  match level, text with
  | 0, "|" => some .join
  | 1, "&" => some .meet
  | 2, "<<" => some .shiftLeft
  | 2, ">>" => some .shiftRight
  | 3, "+" => some .add
  | 3, "-" => some .sub
  | 4, "*" => some .mul
  | 4, "/" => some .div
  | 4, "//" => some .quotient
  | 4, "%" => some .remainder
  | 4, "@" => some .matrix
  | _, _ => none

/-- The sign of comparison that a list of tokens begins with, and the tokens after it. -/
def comparator? : List Token → Option (Comparator × List Token)
  | .operator "==" :: rest => some (.equal, rest)
  | .operator "!=" :: rest => some (.unequal, rest)
  | .operator "<" :: rest => some (.less, rest)
  | .operator "<=" :: rest => some (.lessEqual, rest)
  | .operator ">" :: rest => some (.greater, rest)
  | .operator ">=" :: rest => some (.greaterEqual, rest)
  | .name "in" :: rest => some (.isIn, rest)
  | .name "not" :: .name "in" :: rest => some (.isNotIn, rest)
  | .name "is" :: .name "not" :: rest => some (.notSame, rest)
  | .name "is" :: rest => some (.same, rest)
  | _ => none

/-- The operator in front of an operand that a list of tokens begins with. -/
def unaryOperator? : List Token → Option (UnaryOperator × List Token)
  | .operator "+" :: rest => some (.plus, rest)
  | .operator "-" :: rest => some (.minus, rest)
  | .operator "~" :: rest => some (.complement, rest)
  | _ => none

/-- A word as a formula: a constant or a name; other keywords are none. -/
def wordFormula? (word : String) : Option Formula :=
  match word with
  | "True" => some (.constant .yes)
  | "False" => some (.constant .no)
  | "None" => some (.constant .nothing)
  | _ => if isKeyword word then none else some (.name word)

def joinQuotations (text : String) : List Token → String × List Token
  | .quotation more :: rest => joinQuotations (text ++ more) rest
  | rest => (text, rest)

/-- Whether nothing more can stand in a list after its last comma. -/
def endsItems : List Token → Bool
  | [] => true
  | .operator text :: _ => [")", "]", "\x7d", "=", ";"].contains text
  | .lineEnd _ :: _ => true
  | _ => false

mutual

/-- A condition between two alternatives, or anything tighter. -/
def readConditional : Nat → List Token → Reading
  | 0, _ => none
  | n + 1, s => do
    let (first, rest) ← readJunction n false s
    match rest with
    | .name "if" :: rest =>
      let (test, rest) ← readJunction n false rest
      match rest with
      | .name "else" :: rest =>
        let (other, rest) ← readConditional n rest
        return (.conditional test first other, rest)
      | _ => none
    | _ => return (first, rest)

/-- Operands joined by `and` (`isConjunction`) or by `or`. -/
def readJunction : Nat → Bool → List Token → Reading
  | 0, _, _ => none
  | n + 1, isConjunction, s => do
    let (first, rest) ← if isConjunction then readNegation n s else readJunction n true s
    let (others, rest) ← readOperands n isConjunction rest
    return (if others.isEmpty then first else .junction isConjunction (first :: others), rest)

/-- Further operands, each after its `and` or `or`. -/
def readOperands : Nat → Bool → List Token → Option (List Formula × List Token)
  | 0, _, _ => none
  | n + 1, isConjunction, s =>
    match s with
    | .name word :: rest =>
      if word = (if isConjunction then "and" else "or") then do
        let (next, rest) ← if isConjunction then readNegation n rest else readJunction n true rest
        let (others, rest) ← readOperands n isConjunction rest
        return (next :: others, rest)
      else some ([], s)
    | _ => some ([], s)

/-- A formula after any number of `not`. -/
def readNegation : Nat → List Token → Reading
  | 0, _ => none
  | n + 1, .name "not" :: rest => do
    let (operand, rest) ← readNegation n rest
    return (.negation operand, rest)
  | n + 1, s => readComparison n s

def readComparison : Nat → List Token → Reading
  | 0, _ => none
  | n + 1, s => do
    let (first, rest) ← readBinary n 0 s
    let (signs, others, rest) ← readComparands n rest
    return (if signs.isEmpty then first else .comparison first signs others, rest)

/-- Further operands of a comparison, each after its sign. -/
def readComparands : Nat → List Token → Option (List Comparator × List Formula × List Token)
  | 0, _ => none
  | n + 1, s =>
    match comparator? s with
    | none => some ([], [], s)
    | some (sign, rest) => do
      let (next, rest) ← readBinary n 0 rest
      let (signs, others, rest) ← readComparands n rest
      return (sign :: signs, next :: others, rest)

/-- Operands joined by binary operators of one strength. -/
def readBinary : Nat → Nat → List Token → Reading
  | 0, _, _ => none
  | n + 1, level, s => do
    if level = 5 then readSigned n s
    else
      let (first, rest) ← readBinary n (level + 1) s
      readBinaryRest n level first rest

/-- Further operands of one strength; the formula so far is the left operand. -/
def readBinaryRest : Nat → Nat → Formula → List Token → Reading
  | 0, _, _, _ => none
  | n + 1, level, left, s =>
    match s with
    | .operator text :: rest =>
      match binaryOperator? level text with
      | some op => do
        let (right, rest) ← readBinary n (level + 1) rest
        readBinaryRest n level (.binary op left right) rest
      | none => some (left, s)
    | _ => some (left, s)

def readSigned : Nat → List Token → Reading
  | 0, _ => none
  | n + 1, s =>
    match unaryOperator? s with
    | some (op, rest) => do
      let (operand, rest) ← readSigned n rest
      return (.unary op operand, rest)
    | none => readPower n s

def readPower : Nat → List Token → Reading
  | 0, _ => none
  | n + 1, s => do
    let (base, rest) ← readPrimary n s
    match rest with
    | .operator "**" :: rest =>
      let (exponent, rest) ← readSigned n rest
      return (.binary .power base exponent, rest)
    | _ => return (base, rest)

/-- An atom with calls, subscripts and members after it. -/
def readPrimary : Nat → List Token → Reading
  | 0, _ => none
  | n + 1, s => do
    let (atom, rest) ← readAtom n s
    readTrailers n atom rest

def readTrailers : Nat → Formula → List Token → Reading
  | 0, _, _ => none
  | n + 1, f, s =>
    match s with
    | .operator "(" :: rest => do
      let (labels, arguments, rest) ← readArguments n false rest
      readTrailers n (.call f labels arguments) rest
    | .operator "[" :: rest => do
      let (index, rest) ← readList n rest
      match rest with
      | .operator "]" :: rest => readTrailers n (.subscript f index) rest
      | _ => none
    | .operator "." :: .name word :: rest => if isKeyword word then none else readTrailers n (.member f word) rest
    | _ => some (f, s)

/-- A name, a constant, a numeral, a quotation, or something in brackets. -/
def readAtom : Nat → List Token → Reading
  | 0, _ => none
  | n + 1, s =>
    match s with
    | .name word :: rest => (wordFormula? word).map fun f => (f, rest)
    | .numeral text :: rest => (wholeValue? text.toList).map fun value => (.numeral value, rest)
    | .quotation text :: rest =>
      let (text, rest) := joinQuotations text rest
      some (.quotation text, rest)
    | .operator "..." :: rest => some (.constant .ellipsis, rest)
    | .operator "(" :: .operator ")" :: rest => some (.tuple [], rest)
    | .operator "(" :: .name word :: .operator ":=" :: rest => do
      let (value, rest) ← readConditional n rest
      match rest, wordFormula? word with
      | .operator ")" :: rest, some (.name _) => return (.binding word value, rest)
      | _, _ => none
    | .operator "(" :: rest => do
      let (f, rest) ← readList n rest
      match rest with
      | .operator ")" :: rest => return (f, rest)
      | _ => none
    | .operator "[" :: .operator "]" :: rest => some (.list [], rest)
    | .operator "[" :: rest => do
      let (items, _, rest) ← readItems n rest
      match rest with
      | .operator "]" :: rest => return (.list items, rest)
      | _ => none
    | .operator "\x7b" :: .operator "\x7d" :: rest => some (.dictionary [] [], rest)
    | .operator "\x7b" :: rest => do
      let (first, after) ← readConditional n rest
      match after with
      | .operator ":" :: after =>
        let (value, after) ← readConditional n after
        let (keys, values, after) ← readPairs n after
        return (.dictionary (first :: keys) (value :: values), after)
      | _ =>
        let (items, _, after) ← readMoreItems n first after
        match after with
        | .operator "\x7d" :: after => return (.set items, after)
        | _ => none
    | _ => none

/-- Formulas between commas, and whether a comma was read.  A comma may stand behind the last one. -/
def readItems : Nat → List Token → Option (List Formula × Bool × List Token)
  | 0, _ => none
  | n + 1, s => do
    let (first, rest) ← readConditional n s
    readMoreItems n first rest

def readMoreItems : Nat → Formula → List Token → Option (List Formula × Bool × List Token)
  | 0, _, _ => none
  | n + 1, first, s =>
    match s with
    | .operator "," :: rest =>
      if endsItems rest then some ([first], true, rest)
      else do
        let (others, _, rest) ← readItems n rest
        return (first :: others, true, rest)
    | _ => some ([first], false, s)

/-- A formula, or a tuple of formulas between commas. -/
def readList : Nat → List Token → Reading
  | 0, _ => none
  | n + 1, s => do
    let (items, comma, rest) ← readItems n s
    match items, comma with
    | [f], false => return (f, rest)
    | _, _ => return (.tuple items, rest)

/-- Further entries of a dictionary up to its closing brace. -/
def readPairs : Nat → List Token → Option (List Formula × List Formula × List Token)
  | 0, _ => none
  | n + 1, s =>
    match s with
    | .operator "\x7d" :: rest => some ([], [], rest)
    | .operator "," :: .operator "\x7d" :: rest => some ([], [], rest)
    | .operator "," :: rest => do
      let (key, rest) ← readConditional n rest
      match rest with
      | .operator ":" :: rest =>
        let (value, rest) ← readConditional n rest
        let (keys, values, rest) ← readPairs n rest
        return (key :: keys, value :: values, rest)
      | _ => none
    | _ => none

/-- The arguments of a call up to its closing parenthesis: labels and formulas.  Once an argument is named, no
    positional one may follow. -/
def readArguments : Nat → Bool → List Token → Option (List String × List Formula × List Token)
  | 0, _, _ => none
  | n + 1, named, s =>
    let finish := fun (label : String) (f : Formula) (rest : List Token) => do
      match rest with
      | .operator ")" :: rest => return ([label], [f], rest)
      | .operator "," :: rest =>
        let (labels, others, rest) ← readArguments n (named || (label ≠ "" && label ≠ "*")) rest
        return (label :: labels, f :: others, rest)
      | _ => none
    match s with
    | .operator ")" :: rest => some ([], [], rest)
    | .operator "*" :: rest => do
      let (f, rest) ← readConditional n rest
      finish "*" f rest
    | .operator "**" :: rest => do
      let (f, rest) ← readConditional n rest
      finish "**" f rest
    | .name word :: .operator "=" :: rest =>
      match wordFormula? word with
      | some (.name _) => do
        let (f, rest) ← readConditional n rest
        finish word f rest
      | _ => none
    | _ => do
      let (f, rest) ← readConditional n s
      if named then none else finish "" f rest

end

/-! ### Statements -/

def isUpdate (text : String) : Bool :=
  ["+=", "-=", "*=", "/=", "//=", "%=", "**=", "<<=", ">>=", "&=", "|=", "^=", "@="].contains text

/-- What follows the first formula of a statement: further targets and a value, an update or an annotation. -/
def readAssigned (n : Nat) : Nat → Formula → List Token → Option (Option Formula × List Token)
  | 0, _, _ => none
  | m + 1, target, s =>
    match s with
    | .operator "=" :: rest => do
      if !target.isTarget then none
      let (value, rest) ← readList n rest
      match rest with
      | .operator "=" :: _ => readAssigned n m value rest
      | _ => return (some value, rest)
    | .operator ":" :: rest => do
      if !target.isPlace then none
      let (_, rest) ← readConditional n rest
      match rest with
      | .operator "=" :: rest =>
        let (value, rest) ← readList n rest
        return (some value, rest)
      | _ => return (none, rest)
    | .operator text :: rest => do
      if !(isUpdate text && target.isPlace) then none
      let (value, rest) ← readList n rest
      return (some value, rest)
    | _ => none

/-- A statement: whether it is an expression, its value, and the tokens after it. -/
def readStatement (n : Nat) (s : List Token) : Option (Bool × Option Formula × List Token) :=
  match s with
  | .name "pass" :: rest => some (false, none, rest)
  | .name "break" :: rest => some (false, none, rest)
  | .name "continue" :: rest => some (false, none, rest)
  | .name "return" :: rest =>
    match readList n rest with
    | some (f, rest) => some (false, some f, rest)
    | none => some (false, none, rest)
  | .name "raise" :: rest =>
    match readConditional n rest with
    | some (_, rest) => some (false, none, rest)
    | none => some (false, none, rest)
  | .name "del" :: rest => do
    let (f, rest) ← readList n rest
    if f.isTarget then return (false, none, rest) else none
  | .name "assert" :: rest => do
    let (_, rest) ← readList n rest
    return (false, none, rest)
  | _ => do
    let (f, rest) ← readList n s
    match rest with
    | [] => return (true, some f, [])
    | .lineEnd _ :: _ => return (true, some f, rest)
    | .operator ";" :: _ => return (true, some f, rest)
    | _ =>
      let (value, rest) ← readAssigned n (rest.length + 1) f rest
      return (false, value, rest)

/-- Statements up to the end: whether each of them is well formed. -/
def restReadable (n : Nat) : Nat → List Token → Bool
  | 0, _ => false
  | m + 1, s =>
    match s with
    | [] => true
    | .lineEnd _ :: rest => restReadable n m rest
    | _ =>
      match readStatement n s with
      | some (_, _, []) => true
      | some (_, _, .lineEnd _ :: rest) => restReadable n m rest
      | some (_, _, .operator ";" :: rest) => restReadable n m rest
      | _ => false

/-- The number of nested calls that reading some tokens may take. -/
def readingFuel (s : List Token) : Nat := 24 * s.length + 48

def Program.read? (tokens : List Token) : Option Program := do
  let s ← joinOperators [] false tokens
  if bracketLimit < bracketDepth 0 0 s then none
  let n := readingFuel s
  let s := s.dropWhile fun t => t matches .lineEnd _
  if s.isEmpty then return .empty
  let (isExpression, value, rest) ← readStatement n s
  match rest with
  | [] => match isExpression, value with
    | true, some f => return .expression f
    | _, _ => return .statements value
  | .lineEnd _ :: rest =>
    if rest.all (fun t => t matches .lineEnd _) then
      match isExpression, value with
      | true, some f => return .expression f
      | _, _ => return .statements value
    else if restReadable n (rest.length + 1) rest then return .statements value
    else none
  | .operator ";" :: rest => if restReadable n (rest.length + 1) rest then return .statements value else none
  | _ => none

end Reckoner.Expression
