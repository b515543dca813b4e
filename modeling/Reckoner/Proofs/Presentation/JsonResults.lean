import Reckoner.Proofs.Document.Results
import Reckoner.Proofs.Number.Doubles
import Reckoner.Proofs.Presentation.JsonReading

/-!
# Results as JSON

A finite double is written as a number that is rounded to it and to no other.  The results of a document are one JSON
object with one object for each of them as long as no number among them is infinite; an infinite number makes the whole
text unreadable.
-/

namespace Reckoner.Number.Double

open Reckoner.Text

/-! ### Texts of doubles -/

def isNegative : Double → Bool
  | finite negative _ _ => negative
  | infinite negative => negative
  | notANumber => false

/-- The size of a finite double. -/
def magnitude : Double → ℚ
  | finite _ m e => m * 2 ^ e
  | _ => 0

section Texts

variable {m : Nat} {e : Int} {rest : List Char}

/-- The digits of a decimal with at least one behind the point. -/
def positional (x : Decimal) : List Char := if x.fixed.contains '.' then x.fixed else x.fixed ++ ['.', '0']

end Texts

end Reckoner.Number.Double

namespace Reckoner.Presentation

open Reckoner.Document Reckoner.Expression Reckoner.Number Reckoner.Text

namespace Json

/-! ### Numbers -/

end Json

/-! ### Results -/

namespace Json

section Documents

variable {results : List LineResult}

end Documents

end Json

/-! ### Documents -/

end Reckoner.Presentation
