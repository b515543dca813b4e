import Reckoner.Expression.Token
import Reckoner.Number.Rounding

/-!
# Names and numerals become literals

A name that means nothing here becomes a symbol, a numeral becomes a whole number or a decimal, and a decimal with a
repeating part in brackets, `0.2[3]`, becomes the sum of its three parts.  What a name means is asked of a
`Vocabulary`.
-/

namespace Reckoner.Expression

open Reckoner.Text Reckoner.Number

/-- What the reader of an expression has to know about names: whether a name has a value, whether it is one of the
    words with a meaning of their own, and whether its meaning is a function. -/
structure Vocabulary where
  hasValue : String → Bool
  isReserved : String → Bool
  isFunction : String → Bool

/-! ### Names -/

/-- Whether a name stands for itself: a keyword, a member after a point, an argument name before an equals sign, or a
    name with a meaning. -/
def keepsName (v : Vocabulary) (previous : Token) (next : Option Token) (word : String) : Bool :=
  isKeyword word || previous = .operator "."
    || ((previous = .operator "(" || previous = .operator ",") && next = some (.operator "="))
    || v.hasValue word || v.isReserved word

def resolveNames (v : Vocabulary) (previous : Token) : List Token → List Token
  | [] => []
  | .name word :: rest =>
    if keepsName v previous rest.head? word then .name word :: resolveNames v previous rest
    else
      let maker := if rest.head? = some (.operator "(") then Maker.function else Maker.symbol
      .literal maker word :: resolveNames v (.name word) rest
  | t :: rest => t :: resolveNames v t rest

/-- An expression that begins with the word for an anonymous function becomes a call of `Lambda`, whose first argument
    holds the parameters.  Starred parameters are refused. -/
def rewriteAnonymous (tokens : List Token) : Option (List Token) :=
  match tokens with
  | .name "lambda" :: rest =>
    match rest with
    | [_] => some tokens
    | [.lineEnd _, _] => some tokens
    | _ =>
      let (parameters, body) := rest.span (· ≠ .operator ":")
      if parameters.any fun t => t = .operator "*" ∨ t = .operator "**" then none
      else
        let commas := body.map fun t => if t = .operator ":" then .operator "," else t
        some ([.name "Lambda", .operator "(", .operator "("] ++ parameters ++ [.operator ")"] ++ commas
          ++ [.operator ")"])
  | _ => some tokens

/-! ### Repeating decimals -/

/-- Whether a numeral consists of digits and underscores only. -/
def isDigits : Token → Bool
  | .numeral text => text.toList.all fun c => isAsciiDigit c || c = '_'
  | _ => false

/-- The decimal that a repeating part may follow: a numeral with a point and without exponent, or a point alone. -/
def repetendStart? : Token → Option (List Char)
  | .numeral text =>
    let s := text.toList
    if s.contains '.' && !s.any (fun c => c = 'e' || c = 'E' || c = 'j' || c = 'J') then some s else none
  | .operator "." => some ['0', '.']
  | _ => none

/-- The digits of a numeral token, without underscores. -/
def digitsOf : Token → List Char
  | .numeral text => text.toList.filter (· ≠ '_')
  | _ => []

/-- A repeating decimal as the sum of its whole part, its finite part and its repeating part. -/
def repeatingDecimal (start repetend : List Char) : List Token :=
  let plain := start.filter (· ≠ '_')
  let whole := plain.takeWhile (· ≠ '.')
  let finite := (plain.dropWhile (· ≠ '.')).drop 1
  let zeros := List.replicate finite.length '0'
  let numeral := fun (s : List Char) => Token.numeral (String.ofList s)
  let stripped := fun (s : List Char) => s.dropWhile (· = '0')
  let orZero := fun (s : List Char) => if s.isEmpty then ['0'] else s
  let quotient := fun (a b : List Char) =>
    [Token.name "Rational", .operator "(", numeral a, .operator ",", numeral b, .operator ")"]
  [.operator "(", .name "Integer", .operator "(", numeral (orZero whole), .operator ")", .operator "+"]
    ++ quotient (orZero (stripped finite)) ('1' :: zeros)
    ++ [.operator "+"]
    ++ quotient (stripped repetend) (List.replicate repetend.length '9' ++ zeros)
    ++ [.operator ")"]

/-- Replace repeating decimals.  After a decimal that no repeating part follows, the next token begins none. -/
def expandRepetends : List Token → List Token
  | [] => []
  | [a] => [a]
  | a :: b :: rest =>
    match repetendStart? a with
    | none => a :: expandRepetends (b :: rest)
    | some start =>
      if b ≠ .operator "[" then a :: b :: expandRepetends rest
      else
        match rest with
        | [] => [a, b]
        | c :: rest =>
          if !isDigits c then a :: b :: c :: expandRepetends rest
          else
            match rest with
            | [] => [a, b, c]
            | d :: rest =>
              if d = .operator "]" then repeatingDecimal start (digitsOf c) ++ expandRepetends rest
              else if !isDigits d then a :: b :: c :: d :: expandRepetends rest
              else
                match rest with
                | [] => [a, b, c, d]
                | e :: rest =>
                  if e = .operator "]" then
                    repeatingDecimal start (digitsOf c ++ digitsOf d) ++ expandRepetends rest
                  else a :: b :: c :: d :: e :: expandRepetends rest

/-! ### Numerals -/

/-- A numeral as a literal.  An imaginary one is multiplied by `I`. -/
def numeralLiteral (text : String) : List Token :=
  let s := text.toList
  let imaginary := s.getLast? = some 'j' ∨ s.getLast? = some 'J'
  let number := if imaginary then s.dropLast else s
  let hexadecimal := ['0', 'x'].isPrefixOf number || ['0', 'X'].isPrefixOf number
  let decimal := number.contains '.' || ((number.contains 'e' || number.contains 'E') && !hexadecimal)
  .literal (if decimal then .decimal else .whole) (String.ofList number)
    :: (if imaginary then [.operator "*", .name "I"] else [])

def resolveNumerals : List Token → List Token
  | [] => []
  | .numeral text :: rest => numeralLiteral text ++ resolveNumerals rest
  | t :: rest => t :: resolveNumerals rest

def resolve (v : Vocabulary) (tokens : List Token) : Option (List Token) :=
  (rewriteAnonymous tokens).map fun tokens => resolveNumerals (expandRepetends (resolveNames v .finish tokens))

/-! ### Reading numerals -/

/-- The value of a digit of any base up to sixteen. -/
def baseDigit (c : Char) : Nat :=
  if '0' ≤ c ∧ c ≤ '9' then c.toNat - 48
  else if 'a' ≤ c ∧ c ≤ 'f' then c.toNat - 87
  else if 'A' ≤ c ∧ c ≤ 'F' then c.toNat - 55
  else 0

def ofDigits (base : Nat) (s : List Char) : Nat := s.foldl (fun n c => base * n + baseDigit c) 0

/-- Decimal numerals with more digits than this are not read. -/
def maxDigits : Nat := 4300

/-- The value of a whole numeral; a decimal one may neither be too long nor begin with a needless zero. -/
def wholeValue? (s : List Char) : Option Nat :=
  let plain := s.filter (· ≠ '_')
  match plain with
  | '0' :: 'x' :: rest => some (ofDigits 16 rest)
  | '0' :: 'X' :: rest => some (ofDigits 16 rest)
  | '0' :: 'b' :: rest => some (ofDigits 2 rest)
  | '0' :: 'B' :: rest => some (ofDigits 2 rest)
  | '0' :: 'o' :: rest => some (ofDigits 8 rest)
  | '0' :: 'O' :: rest => some (ofDigits 8 rest)
  | [] => none
  | c :: _ =>
    if maxDigits < plain.length then none
    else if c = '0' ∧ plain.any (· ≠ '0') then none
    else some (ofDigits 10 plain)

/-- The parts of a decimal numeral: digits before and after the point, and the exponent. -/
structure DecimalParts where
  whole : List Char
  fraction : List Char
  exponent : Int
  deriving DecidableEq, Repr

/-- The parts of a decimal numeral, if none of them is too long. -/
def decimalParts? (s : List Char) : Option DecimalParts :=
  let plain := s.filter (· ≠ '_')
  let (mantissa, tail) := plain.span fun c => c ≠ 'e' && c ≠ 'E'
  let (whole, point) := mantissa.span (· ≠ '.')
  let fraction := point.drop 1
  let (negative, digits) :=
    match tail.drop 1 with
    | '-' :: digits => (true, digits)
    | '+' :: digits => (false, digits)
    | digits => (false, digits)
  if maxDigits < whole.length ∨ maxDigits < fraction.length ∨ maxDigits < digits.length then none
  else
    let size : Int := (ofDigits 10 digits : Nat)
    some ⟨whole, fraction, if negative then -size else size⟩

/-- The coefficient and the decimal exponent of a decimal numeral. -/
def DecimalParts.scientific (p : DecimalParts) : Nat × Int :=
  (ofDigits 10 (p.whole ++ p.fraction), p.exponent - p.fraction.length)

def DecimalParts.value (p : DecimalParts) : Rat :=
  let (n, e) := p.scientific
  if 0 ≤ e then ((n * 10 ^ e.toNat : Nat) : Rat) else mkRat n (10 ^ (-e).toNat)

end Reckoner.Expression
