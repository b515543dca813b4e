import Reckoner.Document.LineResult

/-!
# Results as JSON

The results of a document as one JSON object.  Characters outside ASCII stand for themselves, and infinities are
written as words.
-/

namespace Reckoner.Presentation

open Reckoner.Document Reckoner.Number Reckoner.Text

def jsonCharacter (c : Char) : List Char :=
  if c = '"' ∨ c = '\\' then ['\\', c]
  else if c = '\n' then ['\\', 'n']
  else if c = '\r' then ['\\', 'r']
  else if c = '\t' then ['\\', 't']
  else if c.toNat = 8 then ['\\', 'b']
  else if c.toNat = 12 then ['\\', 'f']
  else if c.toNat < 32 then '\\' :: 'u' :: hexDigits 4 c.toNat
  else [c]

def jsonString (s : String) : String := String.ofList ('"' :: s.toList.flatMap jsonCharacter ++ ['"'])

def jsonNumber (x : Double) : String :=
  match x with
  | .infinite negative => if negative then "-Infinity" else "Infinity"
  | .notANumber => "NaN"
  | x => x.toText

def jsonObject (members : List (String × String)) : String :=
  "\x7b" ++ ", ".intercalate (members.map fun (name, v) => jsonString name ++ ": " ++ v) ++ "\x7d"

def jsonResult (r : LineResult) : String :=
  match r with
  | .blank => jsonObject [("kind", jsonString "blank")]
  | .display text numeric =>
    jsonObject [("kind", jsonString "display"), ("display", jsonString text), ("numeric", jsonNumber numeric)]
  | .error message => jsonObject [("kind", jsonString "error"), ("error", jsonString message)]

def jsonResults (results : List LineResult) : String :=
  jsonObject [("lines", "[" ++ ", ".intercalate (results.map jsonResult) ++ "]")]

end Reckoner.Presentation
