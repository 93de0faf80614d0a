import Formulary.Main
import Formulary.Proofs.Binding.Order
import Formulary.Proofs.Evaluation.Clearing
import Formulary.Proofs.Evaluation.NormalForm
import Formulary.Proofs.Evaluation.Stack
import Formulary.Proofs.Evaluation.Staging
import Formulary.Proofs.Grammar.Expansion
import Formulary.Proofs.Grammar.Pointing
import Formulary.Proofs.Session.Notes
import Formulary.Proofs.Text.Delimiters
import Formulary.Proofs.Text.Unary
import Formulary.Proofs.Traversal.Positions
import Formulary.Proofs.Zone.Canonicity
import Formulary.Proofs.Zone.Finding
import Formulary.Proofs.Zone.Rebinding
import Formulary.Proofs.Zone.Retention
import Formulary.Proofs.Zone.Scanning
