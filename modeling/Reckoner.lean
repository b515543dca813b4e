import Reckoner.Log.Template
import Reckoner.Main
import Reckoner.Proofs.Command.Reading
import Reckoner.Proofs.Document.AliasTable
import Reckoner.Proofs.Document.Chaining
import Reckoner.Proofs.Document.Classification
import Reckoner.Proofs.Document.Denylist
import Reckoner.Proofs.Document.Inspection
import Reckoner.Proofs.Document.Lockstep
import Reckoner.Proofs.Document.Naming
import Reckoner.Proofs.Document.Percentages
import Reckoner.Proofs.Document.Portions
import Reckoner.Proofs.Document.PreviousAnswer
import Reckoner.Proofs.Document.RenamedPieces
import Reckoner.Proofs.Document.Results
import Reckoner.Proofs.Document.Skipping
import Reckoner.Proofs.Document.State
import Reckoner.Proofs.Expression.DecimalLiterals
import Reckoner.Proofs.Expression.Limits
import Reckoner.Proofs.Expression.LiteralLimits
import Reckoner.Proofs.Expression.Places
import Reckoner.Proofs.Expression.PowerSizes
import Reckoner.Proofs.Expression.ShownAgain
import Reckoner.Proofs.Expression.ShownNearest
import Reckoner.Proofs.Expression.ShownOrder
import Reckoner.Proofs.Expression.UndefinedNames
import Reckoner.Proofs.Expression.Undefinedness
import Reckoner.Proofs.Presentation.Agreement
import Reckoner.Proofs.Presentation.Grouping
