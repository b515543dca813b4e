import Reckoner.Expression.Token

/-!
# From characters to tokens

`scan` cuts an expression into tokens.  A numeral is tried before an operator, an operator before a quotation, and a
quotation before a word, so `1e5` is one numeral, `1..2` are two, and `0b2` is the numeral `0` before the name `b2`.
Numerals are written with ASCII digits, and single underscores may stand between their digits.
-/

namespace Reckoner.Expression

open Reckoner.Text

/-! ### Lengths of numerals -/

/-- The length of a run of digits with single underscores between them, after a first digit. -/
def moreDigits (isDigit : Char → Bool) : List Char → Nat
  | '_' :: c :: rest => if isDigit c then moreDigits isDigit rest + 2 else 0
  | c :: rest => if isDigit c then moreDigits isDigit rest + 1 else 0
  | [] => 0

/-- The length of a run of digits with single underscores between them. -/
def digitRun (isDigit : Char → Bool) : List Char → Nat
  | c :: rest => if isDigit c then moreDigits isDigit rest + 1 else 0
  | [] => 0

/-- The length of an exponent: its letter, an optional sign, and digits. -/
def exponentLength : List Char → Nat
  | c :: rest =>
    if c = 'e' ∨ c = 'E' then
      match rest with
      | sign :: digits =>
        if sign = '+' ∨ sign = '-' then
          let n := digitRun isAsciiDigit digits
          if n = 0 then 0 else n + 2
        else
          let n := digitRun isAsciiDigit rest
          if n = 0 then 0 else n + 1
      | [] => 0
    else 0
  | [] => 0

/-- The length of a numeral with a point or an exponent, or zero. -/
def decimalLength (s : List Char) : Nat :=
  let whole := digitRun isAsciiDigit s
  match s.drop whole with
  | '.' :: fraction =>
    let n := digitRun isAsciiDigit fraction
    if whole = 0 ∧ n = 0 then 0 else whole + 1 + n + exponentLength (fraction.drop n)
  | rest =>
    let n := exponentLength rest
    if whole = 0 ∨ n = 0 then 0 else whole + n

/-- The length of digits after a base letter, each of them possibly after an underscore. -/
def basedDigits (isDigit : Char → Bool) : List Char → Nat
  | '_' :: c :: rest => if isDigit c then moreDigits isDigit rest + 2 else 0
  | s => digitRun isDigit s

def isHexDigit (c : Char) : Bool := isAsciiDigit c || ('a' ≤ c && c ≤ 'f') || ('A' ≤ c && c ≤ 'F')

def isOctalDigit (c : Char) : Bool := '0' ≤ c && c ≤ '7'

def isBinaryDigit (c : Char) : Bool := c = '0' || c = '1'

/-- The length of a whole numeral, or zero.  A decimal one begins with a zero only if it is all zeros. -/
def wholeLength (s : List Char) : Nat :=
  let based := fun (isDigit : Char → Bool) (rest : List Char) =>
    let n := basedDigits isDigit rest
    if n = 0 then digitRun (· = '0') s else n + 2
  match s with
  | '0' :: 'x' :: rest => based isHexDigit rest
  | '0' :: 'X' :: rest => based isHexDigit rest
  | '0' :: 'b' :: rest => based isBinaryDigit rest
  | '0' :: 'B' :: rest => based isBinaryDigit rest
  | '0' :: 'o' :: rest => based isOctalDigit rest
  | '0' :: 'O' :: rest => based isOctalDigit rest
  | '0' :: _ => digitRun (· = '0') s
  | _ => digitRun isAsciiDigit s

/-- The length with the letter of an imaginary numeral, or zero if that letter does not follow. -/
def imaginaryLength (n : Nat) (s : List Char) : Nat :=
  if n = 0 then 0
  else
    match s.drop n with
    | 'j' :: _ => n + 1
    | 'J' :: _ => n + 1
    | _ => 0

/-- The length of the numeral that a text begins with, or zero. -/
def numeralLength (s : List Char) : Nat :=
  let digits := imaginaryLength (digitRun isAsciiDigit s) s
  if digits ≠ 0 then digits
  else
    let decimal := decimalLength s
    let imaginary := imaginaryLength decimal s
    if imaginary ≠ 0 then imaginary
    else if decimal ≠ 0 then decimal
    else wholeLength s

/-! ### Quotations -/

def quotationMarks : List (List Char) :=
  ["", "b", "r", "u", "f", "br", "rb", "fr", "rf"].map String.toList

/-- The text before the closing quote of a quotation within one line, and its length with that quote. -/
def closeQuote (quote : Char) : List Char → Option (List Char × Nat)
  | [] => none
  | '\\' :: c :: rest =>
    if c = '\n' then none
    else (closeQuote quote rest).map fun (text, n) => (escaped c ++ text, n + 2)
  | c :: rest =>
    if c = quote then some ([], 1)
    else if c = '\n' ∨ c = '\\' then none
    else (closeQuote quote rest).map fun (text, n) => (c :: text, n + 1)
where
  /-- The text of an escape. -/
  escaped (c : Char) : List Char :=
    match c with
    | 'n' => ['\n']
    | 't' => ['\t']
    | 'r' => ['\r']
    | '\\' => ['\\']
    | '\'' => ['\'']
    | '"' => ['"']
    | _ => ['\\', c]

/-- The text before a closing triple quote, and its length with that quote. -/
def closeTripleQuote (quote : Char) : List Char → Option (List Char × Nat)
  | [] => none
  | '\\' :: c :: rest => (closeTripleQuote quote rest).map fun (text, n) => ('\\' :: c :: text, n + 2)
  | c :: rest =>
    if [quote, quote, quote].isPrefixOf (c :: rest) then some ([], 3)
    else (closeTripleQuote quote rest).map fun (text, n) => (c :: text, n + 1)

/-- A quotation at the beginning of a text: its mark, its quote and whether that is tripled. -/
def quotationStart? (s : List Char) : Option (Nat × Char × Bool) :=
  quotationMarks.findSome? fun mark =>
    if mark.isPrefixOf (s.map Char.toLower) then
      match s.drop mark.length with
      | a :: b :: c :: _ =>
        if a = '\'' ∨ a = '"' then some (mark.length, a, decide (a = b ∧ b = c)) else none
      | a :: _ => if a = '\'' ∨ a = '"' then some (mark.length, a, false) else none
      | [] => none
    else none

/-! ### Tokens -/

/-- What a text begins with: a token and its length, or a tripled quote that is never closed. -/
inductive Lexed
  | token (t : Token) (length : Nat)
  | unclosed
  | nothing

/-- A word: a name if its first character may begin one. -/
def wordAt (s : List Char) : Lexed :=
  let word := s.takeWhile isWord
  match word with
  | [] => .nothing
  | c :: _ =>
    let text := String.ofList word
    .token (if isNameStart c then .name text else .operator text) word.length

/-- The quotation or word that a text begins with. -/
def quotationOrWordAt (s : List Char) : Lexed :=
  match quotationStart? s with
  | some (n, quote, true) =>
    match closeTripleQuote quote (s.drop (n + 3)) with
    | some (text, m) => .token (.quotation (String.ofList text)) (n + 3 + m)
    | none => .unclosed
  | some (n, quote, false) =>
    match closeQuote quote (s.drop (n + 1)) with
    | some (text, m) => .token (.quotation (String.ofList text)) (n + 1 + m)
    | none => wordAt s
  | none => wordAt s

/-- The token that a text begins with; a comment reaches to the end of its line. -/
def lexemeAt (s : List Char) : Lexed :=
  match s with
  | [] => .nothing
  | '#' :: rest => .token .comment ((rest.takeWhile fun c => c ≠ '\n' && c ≠ '\r').length + 1)
  | '\n' :: _ => .token (.lineEnd true) 1
  | '\r' :: '\n' :: _ => .token (.lineEnd true) 2
  | _ =>
    let n := numeralLength s
    match quotationStart? s with
    | some (_, _, true) => quotationOrWordAt s
    | _ =>
      if n ≠ 0 then .token (.numeral (String.ofList (s.take n))) n
      else
        match operatorAt? s with
        | some text => .token (.operator (String.ofList text)) text.length
        | none => quotationOrWordAt s

def isSpace (c : Char) : Bool := c = ' ' || c = '\t' || c = '\x0c'

/-- How a token changes the number of open brackets. -/
def bracketStep : Token → Int
  | .operator "(" => 1
  | .operator "[" => 1
  | .operator "\x7b" => 1
  | .operator ")" => -1
  | .operator "]" => -1
  | .operator "\x7d" => -1
  | _ => 0

/-- The tokens of a text that is read with `depth` brackets open.  At the start of a line outside brackets (`fresh`),
    empty lines and lines with only a comment are no statements, and blanks are an indentation.  Brackets left open at
    the end, or closed too often, make the text unreadable. -/
def scanFrom (depth : Int) (fresh : Bool) (s : List Char) : Option (List Token) :=
  match s with
  | [] => if depth = 0 then some (if fresh then [.finish] else [.lineEnd false, .finish]) else none
  | '\\' :: '\n' :: rest => if rest.isEmpty then none else scanFrom depth false rest
  | c :: rest =>
    if fresh && depth = 0 && c = '#' then
      match h : rest.dropWhile (· ≠ '\n') with
      | [] => some [.comment, .lineBreak, .finish]
      | _ :: after =>
        have : after.length < rest.length + 1 := by
          have := (List.dropWhile_suffix (fun c : Char => decide (c ≠ '\n')) (l := rest)).length_le
          rw [h, List.length_cons] at this
          omega
        (scanFrom depth true after).map fun tokens => .comment :: .lineBreak :: tokens
    else if fresh && depth = 0 && c = '\n' then
      (scanFrom depth true rest).map (.lineBreak :: ·)
    else if isSpace c then
      match lexemeAt (rest.dropWhile isSpace) with
      | .nothing =>
        if (rest.dropWhile isSpace).isEmpty then scanFrom depth false rest
        else (scanFrom depth false rest).map (.stray (String.ofList [c]) :: ·)
      | _ =>
        if fresh && depth = 0 then (scanFrom depth false rest).map (.indentation :: ·)
        else scanFrom depth false rest
    else
      match lexemeAt (c :: rest) with
      | .unclosed => none
      | .nothing => (scanFrom depth false rest).map (.stray (String.ofList [c]) :: ·)
      | .token t n =>
        let depth := depth + bracketStep t
        let after := rest.drop (n - 1)
        have : after.length < rest.length + 1 := by
          simp only [after, List.length_drop]
          omega
        match t with
        | .lineEnd _ =>
          if 0 < depth then (scanFrom depth false after).map (.lineBreak :: ·)
          else (scanFrom depth true after).map (.lineEnd true :: ·)
        | _ => (scanFrom depth false after).map (t :: ·)
termination_by s.length
decreasing_by
  all_goals
    simp only [List.length_cons]
    omega

/-- The tokens of an expression, or nothing if its brackets or quotes are not closed. -/
def scan (s : List Char) : Option (List Token) := scanFrom 0 true s

end Reckoner.Expression
