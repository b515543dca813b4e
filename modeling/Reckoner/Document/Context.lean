import Reckoner.Document.Aliases
import Reckoner.Expression.Display

/-!
# Contexts

What the lines of a document leave to the lines below them: the variables, the previous answer and the aliases.
-/

namespace Reckoner.Document

open Reckoner.Expression

/-- The state between two lines. -/
structure Context where
  scope : Scope
  previous : Option Value
  aliases : Aliases

namespace Context

def empty : Context := ⟨[], none, .empty⟩

/-- Whether a text is the name of a variable or has an alias. -/
def knows (context : Context) (name : List Char) : Bool :=
  context.scope.binds (String.ofList name) || context.aliases.contains name

/-- The previous answer can be read under the name `ans`. -/
def bindAnswer (context : Context) : Context :=
  match context.previous with
  | some v => { context with scope := context.scope.assign "ans" v }
  | none => context

end Context

end Reckoner.Document
