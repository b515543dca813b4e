import Reckoner.Text.Identifier

/-!
# Aliases

Names with a character outside ASCII are replaced by aliases `_v0`, `_v1`, … before a line is evaluated.  A table lists
the names that have an alias in the order in which they were first asked for, and the alias of a name is its place.
-/

namespace Reckoner.Document

open Reckoner.Text

/-- Whether a name needs an alias: it has a character outside ASCII. -/
def needsAlias (name : List Char) : Bool := name.any fun c => !isAscii c

def aliasText (k : Nat) : List Char := '_' :: 'v' :: (toString k).toList

/-- Names that have an alias, in the order in which they were first asked for. -/
structure Aliases where
  names : List (List Char)
  deriving DecidableEq, Repr

namespace Aliases

def empty : Aliases := ⟨[]⟩

def contains (aliases : Aliases) (name : List Char) : Bool := aliases.names.contains name

def size (aliases : Aliases) : Nat := aliases.names.length

def entries (aliases : Aliases) : List (List Char × List Char) :=
  aliases.names.zipIdx.map fun (name, k) => (name, aliasText k)

def request (aliases : Aliases) (name : List Char) : Aliases :=
  if aliases.contains name then aliases else ⟨aliases.names ++ [name]⟩

/-- The alias of a name, which is the next one if the name has none yet. -/
def aliasOf (aliases : Aliases) (name : List Char) : List Char := aliasText (aliases.names.idxOf name)

/-- A name is asked for: its alias, and the table afterwards. -/
def aliasFor (aliases : Aliases) (name : List Char) : List Char × Aliases :=
  (aliases.aliasOf name, aliases.request name)

/-- One piece of a text with its name replaced if it needs an alias. -/
def substitutePiece (aliases : Aliases) (p : Piece) : List Char × Aliases :=
  match p with
  | .identifier name => if needsAlias name then aliases.aliasFor name else (name, aliases)
  | .other c => ([c], aliases)

/-- The pieces of a text, from left to right, with every name replaced that needs an alias. -/
def substitutePieces (aliases : Aliases) : List Piece → List Char × Aliases
  | [] => ([], aliases)
  | p :: rest =>
    let (text, aliases) := aliases.substitutePiece p
    let (texts, aliases) := substitutePieces aliases rest
    (text ++ texts, aliases)

/-- A line with every name replaced that needs an alias. -/
def substitute (aliases : Aliases) (line : List Char) : List Char × Aliases :=
  aliases.substitutePieces (pieces line)

end Aliases

end Reckoner.Document
