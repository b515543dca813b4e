import Reckoner.Log.Record
import Reckoner.Number.Rounding

/-!
# Message templates

A message may hold conversions, each begun by a percent sign, that are filled with arguments: `%s` takes the text of an
argument, `%r` its description, `%d` a whole number, `%f` a decimal fraction, `%x` and `%o` a whole number in base
sixteen and eight, `%c` a character.  Between the sign and the letter there may be a name in brackets, which picks a
member of a table, flags, a width and a number of places.
-/

namespace Reckoner.Log

open Reckoner.Number

/-- What can be wrong with a template and its arguments. -/
inductive TemplateFault
  | tooFewArguments
  | tooManyArguments
  | wrongKind
  | missingMember
  | badConversion
  deriving DecidableEq, Repr

/-- A conversion: the member it picks, its flags, its width, its number of places and its letter. -/
structure Conversion where
  member : Option String
  flags : List Char
  width : Nat
  places : Option Nat
  letter : Char
  deriving DecidableEq, Repr

def FieldValue.plain : FieldValue → String
  | .text s => s
  | v => v.describe

def digitsValue (s : List Char) : Nat := s.foldl (fun n c => 10 * n + (Text.digitValue? c).getD 0) 0

def readConversion (s : List Char) : Option (Conversion × List Char) :=
  let (member, s) := match s with
    | '(' :: rest => (some (String.ofList (rest.takeWhile (· ≠ ')'))), (rest.dropWhile (· ≠ ')')).drop 1)
    | s => (none, s)
  let isFlag := fun (c : Char) => ['-', '+', ' ', '0', '#'].contains c
  let flags := s.takeWhile isFlag
  let s := s.dropWhile isFlag
  let width := digitsValue (s.takeWhile Text.isAsciiDigit)
  let s := s.dropWhile Text.isAsciiDigit
  let (places, s) := match s with
    | '.' :: rest => (some (digitsValue (rest.takeWhile Text.isAsciiDigit)), rest.dropWhile Text.isAsciiDigit)
    | s => (none, s)
  let s := s.dropWhile fun c => c = 'l' || c = 'h' || c = 'L'
  match s with
  | letter :: rest => some (⟨member, flags, width, places, letter⟩, rest)
  | [] => none

/-- A text filled up to the width of a conversion. -/
def fill (c : Conversion) (isNumber : Bool) (sign body : List Char) : List Char :=
  let missing := c.width - (sign.length + body.length)
  if c.flags.contains '-' then sign ++ body ++ List.replicate missing ' '
  else if isNumber && c.flags.contains '0' then sign ++ List.replicate missing '0' ++ body
  else List.replicate missing ' ' ++ sign ++ body

def signText (c : Conversion) (negative : Bool) : List Char :=
  if negative then ['-'] else if c.flags.contains '+' then ['+'] else if c.flags.contains ' ' then [' '] else []

/-- The whole number of an argument; a fraction is cut off if `cuts` allows it. -/
def wholeOf? (cuts : Bool) (v : FieldValue) : Option Int :=
  match v with
  | .whole n => some n
  | .flag b => some (if b then 1 else 0)
  | .number x =>
    if cuts then x.toBinary?.map fun b => let q := b.toRat; Int.tdiv q.num q.den else none
  | _ => none

/-- The exact value of an argument that is a number. -/
def exactOf? (v : FieldValue) : Option Rat :=
  match v with
  | .whole n => some n
  | .flag b => some (if b then 1 else 0)
  | .number x => x.toBinary?.map Binary.toRat
  | _ => none

/-- A number that is not negative with a number of places, a tie going to the even neighbour. -/
def fixedText (places : Nat) (q : Rat) : List Char :=
  let n := divHalfEven (q.num.natAbs * 10 ^ places) q.den
  pointed (toString n).toList places

def baseText (base n : Nat) : List Char := Nat.toDigits base n

def convert (c : Conversion) (v : FieldValue) : Except TemplateFault (List Char) :=
  let cut := fun (s : String) => match c.places with
    | some n => s.toList.take n
    | none => s.toList
  let whole := fun (cuts : Bool) (digits : Nat → List Char) =>
    match wholeOf? cuts v with
    | some n =>
      let body := digits n.natAbs
      let padded := List.replicate (c.places.getD 0 - body.length) '0' ++ body
      .ok (fill c true (signText c (decide (n < 0))) padded)
    | none => .error .wrongKind
  match c.letter with
  | 's' => .ok (fill c false [] (cut v.plain))
  | 'r' => .ok (fill c false [] (cut v.describe))
  | 'a' => .ok (fill c false [] (cut v.describe))
  | 'd' => whole true fun n => (toString n).toList
  | 'i' => whole true fun n => (toString n).toList
  | 'u' => whole true fun n => (toString n).toList
  | 'x' => whole false (baseText 16)
  | 'X' => whole false fun n => (baseText 16 n).map Char.toUpper
  | 'o' => whole false (baseText 8)
  | 'f' =>
    match exactOf? v with
    | some q => .ok (fill c true (signText c (decide (q < 0))) (fixedText (c.places.getD 6) q))
    | none => .error .wrongKind
  | 'F' =>
    match exactOf? v with
    | some q => .ok (fill c true (signText c (decide (q < 0))) (fixedText (c.places.getD 6) q))
    | none => .error .wrongKind
  | 'c' =>
    match v with
    | .text s => if s.length = 1 then .ok (fill c false [] s.toList) else .error .wrongKind
    | .whole n => .ok (fill c false [] [Char.ofNat n.toNat])
    | _ => .error .wrongKind
  | _ => .error .badConversion

def memberOf? (arguments : List FieldValue) (name : String) : Except TemplateFault FieldValue :=
  match arguments with
  | [.table keys values] =>
    match (keys.zip values).lookup name with
    | some v => .ok v
    | none => .error .missingMember
  | _ => .error .wrongKind

/-- Fill the conversions of a template.  `fuel` bounds the number of steps by the length of the template. -/
def fillTemplate (fuel : Nat) (all rest : List FieldValue) (template : List Char) :
    Except TemplateFault (List Char × List FieldValue) :=
  match fuel, template with
  | 0, _ => .ok ([], rest)
  | _, [] => .ok ([], rest)
  | fuel + 1, '%' :: s => do
    match readConversion s with
    | none => throw .badConversion
    | some (c, s) =>
      if c.letter = '%' then
        let (text, left) ← fillTemplate fuel all rest s
        return ('%' :: text, left)
      else
        match c.member with
        | some name =>
          let body ← convert c (← memberOf? all name)
          let (text, left) ← fillTemplate fuel all [] s
          return (body ++ text, left)
        | none =>
          match rest with
          | [] => throw .tooFewArguments
          | v :: rest =>
            let body ← convert c v
            let (text, left) ← fillTemplate fuel all rest s
            return (body ++ text, left)
  | fuel + 1, c :: s => do
    let (text, left) ← fillTemplate fuel all rest s
    return (c :: text, left)

/-- A message with its arguments filled in; without arguments it stands as it is. -/
def formatMessage (template : String) (arguments : List FieldValue) : Except TemplateFault String :=
  match arguments with
  | [] => .ok template
  | _ => do
    let (text, left) ← fillTemplate (template.length + 1) arguments arguments template.toList
    match arguments, left with
    | _, [] => return String.ofList text
    | [.table _ _], _ => return String.ofList text
    | _, _ => throw .tooManyArguments

end Reckoner.Log
