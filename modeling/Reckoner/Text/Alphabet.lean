import Reckoner.Text.CharacterRanges

/-!
# Character classes

Which characters are blank, which are decimal digits, which belong to a word, and which may begin a name.  ASCII is
decided by rules, everything else by the ranges of the character database.

A *word character* is a letter, a number or the underscore.  A *decimal digit* is a member of one of the decimal
digit systems, so `٣` and `３` are digits and `²` is a word character that is none.
-/

namespace Reckoner.Text

open Reckoner.Text.CharacterRanges

def inRanges (ranges : List (Nat × Nat)) (code : Nat) : Bool :=
  ranges.any fun range => range.1 ≤ code && code ≤ range.2

/-- Blank characters: those removed from both ends of a line. -/
def isBlank (c : Char) : Bool :=
  let code := c.toNat
  (9 ≤ code && code ≤ 13) || (28 ≤ code && code ≤ 32) || code = 0x85 || code = 0xa0 || code = 0x1680
    || (0x2000 ≤ code && code ≤ 0x200a) || code = 0x2028 || code = 0x2029 || code = 0x202f || code = 0x205f
    || code = 0x3000

def isAsciiDigit (c : Char) : Bool := '0' ≤ c && c ≤ '9'

def isAsciiLetter (c : Char) : Bool := ('a' ≤ c && c ≤ 'z') || ('A' ≤ c && c ≤ 'Z')

/-- Word characters of ASCII: letters, digits and the underscore. -/
def isAsciiWord (c : Char) : Bool := isAsciiLetter c || isAsciiDigit c || c = '_'

def isAscii (c : Char) : Bool := c.toNat < 128

/-- The value of a decimal digit of any digit system, from its distance to that system's zero. -/
def digitValue? (c : Char) : Option Nat :=
  let code := c.toNat
  if code < 128 then
    if isAsciiDigit c then some (code - 48) else none
  else
    (digitZeros.find? fun first => first ≤ code && code < first + 10).map (code - ·)

def isDigit (c : Char) : Bool := (digitValue? c).isSome

/-- Word characters: letters, numbers and the underscore. -/
def isWord (c : Char) : Bool :=
  if isAscii c then isAsciiWord c else inRanges lettersAndNumbers c.toNat

/-- Characters that may begin a name in an expression. -/
def isNameStart (c : Char) : Bool :=
  if isAscii c then isAsciiLetter c || c = '_'
  else inRanges lettersAndNumbers c.toNat && !inRanges notNameStart c.toNat

/-- Characters shown as themselves in quoted text. -/
def isPrintable (c : Char) : Bool := !inRanges unprintable c.toNat

/-! ### Ends of a text -/

/-- A text without the blank characters at its two ends. -/
def trim (s : List Char) : List Char :=
  ((s.dropWhile isBlank).reverse.dropWhile isBlank).reverse

/-- A text without the blank characters at its right end. -/
def trimRight (s : List Char) : List Char :=
  (s.reverse.dropWhile isBlank).reverse

/-- `trim` on strings. -/
def trimString (s : String) : String := String.ofList (trim s.toList)

/-! ### Pieces of a text -/

/-- The text cut at every occurrence of one character; there is always one piece more than occurrences. -/
def splitAt (sep : Char) : List Char → List (List Char)
  | [] => [[]]
  | c :: rest =>
    if c = sep then [] :: splitAt sep rest
    else
      match splitAt sep rest with
      | [] => [[c]]
      | piece :: pieces => (c :: piece) :: pieces

/-- The lines of a document: its pieces between newlines. -/
def linesOf (s : String) : List String := (splitAt '\n' s.toList).map String.ofList

/-- A text cut before and after the first occurrence of a character, with that character if there is one. -/
def partition (sep : Char) (s : List Char) : List Char × List Char × List Char :=
  match s.span (· ≠ sep) with
  | (before, []) => (before, [], [])
  | (before, c :: after) => (before, [c], after)

/-- Whether the first text occurs as a run of consecutive characters in the second. -/
def occursIn (needle : List Char) : List Char → Bool
  | [] => needle.isEmpty
  | c :: rest => needle.isPrefixOf (c :: rest) || occursIn needle rest

/-- Every occurrence of a nonempty text, from the left and without overlap, replaced by another. -/
def replaceAll (needle replacement : List Char) (s : List Char) : List Char :=
  match needle with
  | [] => s
  | _ :: _ => go s
where
  /-- One pass; at a match the replaced characters are skipped. -/
  go : List Char → List Char
    | [] => []
    | c :: rest =>
      if needle.isPrefixOf (c :: rest) then
        replacement ++ go ((c :: rest).drop (max needle.length 1))
      else c :: go rest
  termination_by t => t.length
  decreasing_by
    all_goals simp_all; try omega

end Reckoner.Text
