import Reckoner.Text.Alphabet

/-!
# Tokens of an expression

An expression is read as a list of tokens.  A `literal` is a name or numeral together with the word that gives it its
meaning: a whole number is made by `Integer`, a decimal by `Float`, a name without a value by `Symbol` or, in front of
an opening parenthesis, by `Function`.  These words are ordinary names of the language, so a variable of the same name
takes their place.
-/

namespace Reckoner.Expression

/-- The words that give literals their meaning. -/
inductive Maker
  | whole | decimal | symbol | function
  deriving DecidableEq, Repr

def Maker.word : Maker → String
  | .whole => "Integer"
  | .decimal => "Float"
  | .symbol => "Symbol"
  | .function => "Function"

/-- Pieces of an expression.  A `stray` is a character that begins no token; `lineEnd` closes a statement and
    `lineBreak` stands for a line without one. -/
inductive Token
  | name (word : String)
  | operator (text : String)
  | numeral (text : String)
  | quotation (text : String)
  | literal (maker : Maker) (argument : String)
  | stray (text : String)
  | comment
  | lineEnd (visible : Bool)
  | lineBreak
  | indentation
  | finish
  deriving DecidableEq, Repr

def keywords : List String :=
  ["False", "None", "True", "and", "as", "assert", "async", "await", "break", "class", "continue", "def", "del",
    "elif", "else", "except", "finally", "for", "from", "global", "if", "import", "in", "is", "lambda", "nonlocal",
    "not", "or", "pass", "raise", "return", "try", "while", "with", "yield"]

def isKeyword (word : String) : Bool := keywords.contains word

/-- Operators and delimiters, the longer before the shorter. -/
def operators : List (List Char) :=
  ["**=", "//=", "<<=", ">>=", "...", "!=", "%=", "&=", "**", "*=", "+=", "-=", "->", "//", "/=", ":=", "<<", "<=",
    "==", ">=", ">>", "@=", "^=", "|=", "%", "&", "(", ")", "*", "+", ",", "-", ".", "/", ":", ";", "<", "=", ">",
    "@", "[", "]", "^", "\x7b", "|", "\x7d", "~"].map String.toList

def operatorAt? (s : List Char) : Option (List Char) := operators.find? (·.isPrefixOf s)

end Reckoner.Expression
