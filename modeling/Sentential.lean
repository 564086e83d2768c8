import Sentential.Formula.Order
import Sentential.Main
import Sentential.Settings.Document
import Sentential.Proofs.Clause.Exactness
import Sentential.Proofs.Engine.Quiescence
import Sentential.Proofs.Engine.Expansion
import Sentential.Proofs.Engine.LeastModel
import Sentential.Proofs.Engine.Provenance
import Sentential.Proofs.Enumeration
import Sentential.Proofs.Evaluator
import Sentential.Proofs.Formula.Settling
import Sentential.Proofs.Formula.ViablePrefix
import Sentential.Proofs.RuleSet.Firing
import Sentential.Proofs.Token.Slicing
import Sentential.Proofs.Clause.RoundTrip
import Sentential.Proofs.Token.Identifier
import Sentential.Proofs.Explanation.Record
import Sentential.Proofs.Dpll.Trail
import Sentential.Proofs.TruthTable.Layout
