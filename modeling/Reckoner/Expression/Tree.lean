import Reckoner.Expression.Literal

/-!
# Token trees

Tokens grouped by parentheses.  On trees factorial signs are turned into calls, and the multiplication signs and the
parentheses that a reader may leave out are put back: `2(3)` and `2 pi` are products, `sqrt 16` is a call.  The result
is a list of tokens again, in which nothing is left out.
-/

namespace Reckoner.Expression

/-- A token, a group in parentheses, or a function name together with the group of its arguments. -/
inductive Tree
  | leaf (t : Token)
  | group (items : List Tree)
  | applied (word : String) (items : List Tree)
  deriving Repr

/-- Why tokens have no tree, or no meaning as a tree: a closing parenthesis without an opening one, or anything else. -/
inductive TreeError
  | unbalanced
  | malformed
  deriving DecidableEq, Repr

/-! ### Grouping -/

/-- Group tokens by parentheses.  `outer` holds what was read before each parenthesis that is still open, `current`
    what was read since the last one, both in reverse. -/
def groupFrom (outer : List (List Tree)) (current : List Tree) : List Token → Except TreeError (List Tree)
  | [] => if outer.isEmpty then .ok current.reverse else .error .malformed
  | .operator "(" :: rest => groupFrom (current :: outer) [] rest
  | .operator ")" :: rest =>
    match outer with
    | [] => .error .unbalanced
    | before :: outer => groupFrom outer (.group current.reverse :: before) rest
  | t :: rest => groupFrom outer (.leaf t :: current) rest

def Tree.ofTokens (tokens : List Token) : Except TreeError (List Tree) := groupFrom [] [] tokens

/-! ### Factorial signs -/

/-- Whether every run of factorial signs has at most two of them and follows something it can apply to. -/
def factorialsAttached (previous : Option Token) (run : Nat) : List Token → Bool
  | [] => true
  | .stray "!" :: rest => factorialsAttached previous (run + 1) rest
  | .stray text :: rest => factorialsAttached (some (.stray text)) 0 rest
  | t :: rest =>
    let attached := run = 0 || (run ≤ 2 && previous.isSome && previous != some (.operator "("))
    attached && factorialsAttached (some t) 0 rest

/-- Wrap the last item, with a name in front of it, into a call.  Items are in reverse. -/
def wrapLast (word : String) (items : List Tree) : List Tree :=
  match items with
  | [] => []
  | .leaf (.literal maker argument) :: before =>
    .group [.leaf (.literal maker argument)] :: .leaf (.name word) :: before
  | last :: .leaf (.name f) :: before => .group [.leaf (.name f), last] :: .leaf (.name word) :: before
  | last :: before => .group [last] :: .leaf (.name word) :: before

/-- Apply a run of factorial signs to the last item. -/
def applyFactorials (run : Nat) (items : List Tree) : List Tree :=
  match run with
  | 0 => items
  | 1 => wrapLast "factorial" items
  | _ => wrapLast "factorial2" items

mutual

/-- Turn factorial signs inside a tree into calls. -/
def Tree.factorials : Tree → Tree
  | .leaf t => .leaf t
  | .group items => .group (factorialsFrom [] 0 items)
  | .applied word items => .applied word (factorialsFrom [] 0 items)

/-- Turn the factorial signs of a list of trees into calls.  What was read before is in reverse; a run of signs is
    applied when the next item is met, and forgotten at a stray character. -/
def factorialsFrom (before : List Tree) (run : Nat) : List Tree → List Tree
  | [] => (applyFactorials run before).reverse
  | .leaf (.stray text) :: rest =>
    if text = "!" then factorialsFrom before (run + 1) rest
    else factorialsFrom (.leaf (.operator text) :: before) 0 rest
  | t :: rest => factorialsFrom (Tree.factorials t :: applyFactorials run before) 0 rest

end

/-! ### Products without a sign -/

def argumentToken (maker : Maker) (argument : String) : Token :=
  match maker with
  | .whole => .numeral argument
  | _ => .quotation argument

/-- Whether a tree may be the left factor of a product without a sign. -/
def endsFactor (v : Vocabulary) : Tree → Bool
  | .group _ => true
  | .applied _ _ => true
  | .leaf (.literal _ _) => true
  | .leaf (.name word) => !v.isFunction word
  | .leaf _ => false

/-- Whether a tree may be the right factor of a product without a sign. -/
def beginsFactor : Tree → Bool
  | .group _ => true
  | .applied _ _ => true
  | .leaf (.literal _ _) => true
  | .leaf (.name _) => true
  | .leaf _ => false

/-- A name in front of an opening parenthesis that became a factor is a plain symbol. -/
def asFactor (t next : Tree) : Tree :=
  match t, next with
  | .leaf (.literal .function word), .group _ => .leaf (.literal .symbol word)
  | _, _ => t

/-- Put a multiplication sign between neighbouring factors.  After a point, a name is a member and no factor. -/
def insertProducts (v : Vocabulary) (member : Bool) : List Tree → List Tree
  | [] => []
  | [t] => [t]
  | a :: b :: rest =>
    let isMember := match a, b with
      | .leaf (.operator "."), .leaf (.name _) => true
      | _, _ => false
    let tail := insertProducts v (isMember && !member) (b :: rest)
    if !member && endsFactor v a && beginsFactor b then asFactor a b :: .leaf (.operator "*") :: tail
    else a :: tail

/-- Join function names to the groups that follow them. -/
def joinArguments (v : Vocabulary) : List Tree → List Tree
  | [] => []
  | [t] => [t]
  | .leaf (.name word) :: .group items :: rest =>
    if v.isFunction word then .applied word items :: joinArguments v rest
    else .leaf (.name word) :: .group items :: joinArguments v rest
  | t :: rest => t :: joinArguments v rest

/-- A literal whose maker is no function any more is its name followed by its argument. -/
def expandLiteral (v : Vocabulary) : Tree → List Tree
  | .leaf (.literal maker argument) =>
    if v.isFunction maker.word then [.leaf (.literal maker argument)]
    else [.leaf (.name maker.word), .group [.leaf (argumentToken maker argument)]]
  | t => [t]

mutual

/-- Put the multiplication signs inside a tree back. -/
def Tree.products (v : Vocabulary) : Tree → Tree
  | .leaf t => .leaf t
  | .group items => .group (insertProducts v false (joinArguments v (productsIn v items)))
  | .applied word items => .applied word (insertProducts v false (joinArguments v (productsIn v items)))

/-- The trees of a list, each with its multiplication signs put back and its literals checked. -/
def productsIn (v : Vocabulary) : List Tree → List Tree
  | [] => []
  | t :: rest => expandLiteral v (Tree.products v t) ++ productsIn v rest

end

/-- Put the multiplication signs in a list of trees back. -/
def withProducts (v : Vocabulary) (trees : List Tree) : List Tree :=
  insertProducts v false (joinArguments v (productsIn v trees))

/-! ### Calls without parentheses -/

/-- What the search for left-out parentheses sees: a single token, or a finished call. -/
inductive Item
  | token (t : Token)
  | unit (tokens : List Token)
  deriving Repr

def Item.tokens : Item → List Token
  | .token t => [t]
  | .unit tokens => tokens

def Item.isOperator (text : String) : Item → Bool
  | .token (.operator other) => other = text
  | _ => false

/-- Whether an item can be the beginning of an argument. -/
def Item.isArgument : Item → Bool
  | .token (.operator _) => false
  | .token (.lineEnd _) => false
  | .token .finish => false
  | _ => true

/-- What is known while parentheses are put back: how many are open, whether the next token still belongs to the
    argument, and whether a function name was followed by a power. -/
structure CallState where
  opened : Nat := 0
  delayed : Bool := false
  raised : Bool := false

/-- The function name that an item is, if it is one. -/
def functionName? (v : Vocabulary) : Item → Bool
  | .token (.name word) => v.isFunction word
  | _ => false

/-- Put back the parentheses of calls such as `sqrt 16` and `sin**2 x`. -/
def insertCalls (v : Vocabulary) (state : CallState) : List Item → List Token
  | [] => []
  | [last] => last.tokens ++ List.replicate state.opened (.operator ")")
  | a :: b :: rest =>
    let isName := match a with
      | .token (.name _) => true
      | _ => false
    let isUnit := match a with
      | .unit _ => true
      | _ => false
    let opening : List Token := [.operator "("]
    if isName && b.isArgument then
      if functionName? v a then
        a.tokens ++ opening ++ insertCalls v { state with opened := state.opened + 1 } (b :: rest)
      else a.tokens ++ insertCalls v state (b :: rest)
    else if isName && b.isOperator "**" then
      a.tokens ++ insertCalls v { state with raised := state.raised || functionName? v a } (b :: rest)
    else if state.raised then
      if (isUnit || a.isOperator "*") && !b.isOperator "*" then
        if b.isOperator "(" then a.tokens ++ insertCalls v { state with raised := false } (b :: rest)
        else
          a.tokens ++ opening
            ++ insertCalls v { state with opened := state.opened + 1, raised := false } (b :: rest)
      else a.tokens ++ insertCalls v state (b :: rest)
    else if 0 < state.opened then
      if b.isOperator "^" || b.isOperator "**" || b.isOperator "*" then
        a.tokens ++ insertCalls v { state with delayed := true } (b :: rest)
      else if state.delayed then a.tokens ++ insertCalls v { state with delayed := false } (b :: rest)
      else
        a.tokens ++ (.operator ")" :: insertCalls v { state with opened := state.opened - 1 } (b :: rest))
    else a.tokens ++ insertCalls v state (b :: rest)

mutual

/-- The items of a tree: a group that is no argument list lies open to the search. -/
def Tree.items (v : Vocabulary) : Tree → List Item
  | .leaf (.literal maker argument) =>
    [.unit [.name maker.word, .operator "(", argumentToken maker argument, .operator ")"]]
  | .leaf t => [.token t]
  | .group items =>
    .token (.operator "(") :: (insertCalls v {} (itemsIn v items)).map Item.token ++ [.token (.operator ")")]
  | .applied word items =>
    [.unit (.name word :: .operator "(" :: insertCalls v {} (itemsIn v items) ++ [.operator ")"])]

def itemsIn (v : Vocabulary) : List Tree → List Item
  | [] => []
  | t :: rest => Tree.items v t ++ itemsIn v rest

end

/-! ### All together -/

def unifyPowers (tokens : List Token) : List Token :=
  tokens.map fun t => if t = .operator "^" then .operator "**" else t

def exactDecimals (tokens : List Token) : List Token :=
  tokens.map fun t => if t = .name "Float" then .name "Rational" else t

/-- The tokens of an expression with nothing left out. -/
def complete (v : Vocabulary) (exact : Bool) (tokens : List Token) : Except TreeError (List Token) :=
  if !factorialsAttached none 0 tokens then .error .malformed
  else do
    let trees ← Tree.ofTokens tokens
    let called := withProducts v (factorialsFrom [] 0 trees)
    let flat := unifyPowers (insertCalls v {} (itemsIn v called))
    return if exact then exactDecimals flat else flat

end Reckoner.Expression
