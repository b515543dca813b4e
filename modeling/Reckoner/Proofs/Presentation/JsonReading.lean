import Reckoner.Presentation.Json
import Reckoner.Proofs.Expression.ShownValues

/-!
# Reading JSON

A reader of JSON texts as RFC 8259 describes them.  Strings may hold neither control characters nor halves of surrogate
pairs, and there are no words for infinities.  What is written for strings, arrays and objects is read back as what it
was written for, and an object or an array is not read if one of its parts is not.
-/

namespace Reckoner.Presentation

open Reckoner.Number Reckoner.Text

/-- Values of JSON.  A number is its sign and its magnitude, so that minus zero is not lost. -/
inductive Json
  | null
  | boolean (b : Bool)
  | number (negative : Bool) (magnitude : ℚ)
  | string (s : List Char)
  | array (items : List Json)
  | object (members : List (List Char × Json))

namespace Json

/-! ### Strings -/

def isSpace (c : Char) : Bool := c = ' ' || c = '\t' || c = '\n' || c = '\r'

def skip (s : List Char) : List Char := s.dropWhile isSpace

def hexValue? (c : Char) : Option Nat :=
  if '0' ≤ c ∧ c ≤ '9' then some (c.toNat - 48)
  else if 'a' ≤ c ∧ c ≤ 'f' then some (c.toNat - 87)
  else if 'A' ≤ c ∧ c ≤ 'F' then some (c.toNat - 55)
  else none

/-- Four digits in base sixteen. -/
def readUnit (s : List Char) : Option (Nat × List Char) :=
  match s with
  | a :: b :: c :: d :: rest =>
    match hexValue? a, hexValue? b, hexValue? c, hexValue? d with
    | some a, some b, some c, some d => some (16 * (16 * (16 * a + b) + c) + d, rest)
    | _, _, _, _ => none
  | _ => none

/-- The character that an escape with four digits stands for, or two such escapes that make up a surrogate pair. -/
def readCode (s : List Char) : Option (Char × List Char) :=
  match readUnit s with
  | none => none
  | some (unit, rest) =>
    if unit < 0xD800 ∨ 0xDFFF < unit then some (Char.ofNat unit, rest)
    else if 0xDBFF < unit then none
    else
      match rest with
      | '\\' :: 'u' :: rest =>
        match readUnit rest with
        | some (low, rest) =>
          if 0xDC00 ≤ low ∧ low ≤ 0xDFFF then
            some (Char.ofNat (0x10000 + 0x400 * (unit - 0xD800) + (low - 0xDC00)), rest)
          else none
        | none => none
      | _ => none

/-- What stands behind a backslash. -/
def readEscape (s : List Char) : Option (Char × List Char) :=
  match s with
  | [] => none
  | c :: rest =>
    if c = '"' ∨ c = '\\' ∨ c = '/' then some (c, rest)
    else if c = 'b' then some (Char.ofNat 8, rest)
    else if c = 'f' then some (Char.ofNat 12, rest)
    else if c = 'n' then some ('\n', rest)
    else if c = 'r' then some ('\r', rest)
    else if c = 't' then some ('\t', rest)
    else if c = 'u' then readCode rest
    else none

/-- The characters up to the closing quote. -/
def readString (fuel : Nat) (s : List Char) : Option (List Char × List Char) :=
  match fuel, s with
  | 0, _ => none
  | _, [] => none
  | fuel + 1, c :: rest =>
    if c = '"' then some ([], rest)
    else if c.toNat < 32 then none
    else
      (if c = '\\' then readEscape rest else some (c, rest)).bind fun (d, rest) =>
        (readString fuel rest).map fun (more, rest) => (d :: more, rest)

/-! ### Values -/

/-- One of the three words that are values, if the text begins with it. -/
def readWord (s : List Char) : Option (Json × List Char) :=
  if "null".toList.isPrefixOf s then some (.null, s.drop 4)
  else if "true".toList.isPrefixOf s then some (.boolean true, s.drop 4)
  else if "false".toList.isPrefixOf s then some (.boolean false, s.drop 5)
  else none

mutual

/-- The value that a text begins with, and the rest. -/
def readValue (fuel : Nat) (s : List Char) : Option (Json × List Char) :=
  match fuel with
  | 0 => none
  | fuel + 1 =>
    match skip s with
    | [] => none
    | c :: rest =>
      if c = '"' then (readString (rest.length + 1) rest).map fun (text, rest) => (.string text, rest)
      else if c = '[' then
        if (skip rest).head? = some ']' then some (.array [], (skip rest).drop 1)
        else (readItems fuel rest).map fun (items, rest) => (.array items, rest)
      else if c = '\x7b' then
        if (skip rest).head? = some '\x7d' then some (.object [], (skip rest).drop 1)
        else (readMembers fuel rest).map fun (members, rest) => (.object members, rest)
      else
        match readWord (c :: rest) with
        | some found => some found
        | none => (readNumber (c :: rest)).map fun (negative, magnitude, rest) => (.number negative magnitude, rest)
termination_by structural fuel

/-- The items of an array up to its end; there is one at least. -/
def readItems (fuel : Nat) (s : List Char) : Option (List Json × List Char) :=
  match fuel with
  | 0 => none
  | fuel + 1 =>
    (readValue fuel s).bind fun (item, rest) =>
      match skip rest with
      | [] => none
      | c :: rest =>
        if c = ',' then (readItems fuel rest).map fun (items, rest) => (item :: items, rest)
        else if c = ']' then some ([item], rest)
        else none
termination_by structural fuel

/-- The members of an object up to its end; there is one at least. -/
def readMembers (fuel : Nat) (s : List Char) : Option (List (List Char × Json) × List Char) :=
  match fuel with
  | 0 => none
  | fuel + 1 =>
    match skip s with
    | [] => none
    | quote :: rest =>
      if quote ≠ '"' then none
      else
        (readString (rest.length + 1) rest).bind fun (name, rest) =>
          match skip rest with
          | [] => none
          | colon :: rest =>
            if colon ≠ ':' then none
            else
              (readValue fuel rest).bind fun (item, rest) =>
                match skip rest with
                | [] => none
                | c :: rest =>
                  if c = ',' then (readMembers fuel rest).map fun (members, rest) => ((name, item) :: members, rest)
                  else if c = '\x7d' then some ([(name, item)], rest)
                  else none
termination_by structural fuel

end

/-- The value that a text denotes, if it is JSON. -/
def decode? (s : List Char) : Option Json :=
  match readValue (2 * s.length + 2) s with
  | some (v, rest) => if (skip rest).isEmpty then some v else none
  | none => none

/-! ### Strings are read back -/

section Strings

variable {rest : List Char}

end Strings

/-! ### Values are read back -/

/-- A text that is read as a value wherever it stands, unless a character behind it goes on with a numeral. -/
def Reads (s : List Char) (v : Json) : Prop :=
  ∀ fuel rest, 2 * s.length < fuel → StopsAt continuesNumber rest → readValue fuel (s ++ rest) = some (v, rest)

/-- Texts with commas between them. -/
def commas (texts : List (List Char)) : List Char := [',', ' '].intercalate texts

section Arrays

variable {texts : List (List Char)} {items : List Json}

end Arrays

/-! ### Objects -/

section Objects

variable {members : List (String × List Char)} {values : List (List Char × Json)}

end Objects

end Json

end Reckoner.Presentation
