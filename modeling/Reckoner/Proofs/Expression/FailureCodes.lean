import Mathlib.Data.List.TakeDrop
import Mathlib.Tactic.Common
import Reckoner.Proofs.Expression.Failures
import Reckoner.Proofs.Expression.LiteralLimits
import Reckoner.Proofs.Expression.Vocabulary

/-!
# Which texts fail with a code

A text is evaluated to a value or fails with a code, unless one of five things stands in it: an exponent with too many
digits, a closing parenthesis without an opening one, nothing but comments, an item taken by its index, or something
that is no number where a large power has to be rounded.
-/

namespace Reckoner.Expression

open Reckoner.Algebra Reckoner.Text

/-! ### Parentheses -/

/-- The program that a text is read as, with its decimals exact or rounded as its exponents ask. -/
def programOf? (settings : Settings) (scope : Scope) (text : List Char) : Option Program :=
  (readsExactly settings text).toOption.bind fun exact => (readProgram scope exact (trim text)).toOption

def Program.isEmpty : Program → Bool
  | .empty => true
  | _ => false

/-- The formula of a program that is evaluated. -/
def Program.formula? : Program → Option Formula
  | .empty => none
  | .expression f => some f
  | .statements value => value

/-- The formula of a text that is evaluated. -/
def formulaOf? (settings : Settings) (scope : Scope) (text : List Char) : Option Formula :=
  (programOf? settings scope text).bind Program.formula?

section Texts

variable {settings : Settings} {scope : Scope} {text : List Char}

end Texts

end Reckoner.Expression
