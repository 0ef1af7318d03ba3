import Misfit.LogStyle
import Misfit.Proofs.Compare.Place
import Misfit.Proofs.Compare.UnionTarget
import Misfit.Proofs.Session.Account
import Misfit.Proofs.Compare.Depth
import Misfit.Proofs.Compare.Relaxed
import Misfit.Proofs.Compare.Symmetry
import Misfit.Proofs.Types.Built
import Misfit.Proofs.Types.Parts
import Misfit.Proofs.Text.Phrase
import Misfit.Proofs.Types.Growth
import Misfit.Proofs.Types.Unambiguous
import Misfit.Proofs.Compare.Growth
import Misfit.Proofs.Explain.Growth
import Misfit.Proofs.Session.Repeat
import Misfit.Proofs.Session.Reuse
import Misfit.Proofs.Explain.Flagged
import Misfit.Proofs.Session.Flagged
import Misfit.Proofs.Explain.Coherent
import Misfit.Proofs.Explain.Write
import Misfit.Proofs.Session.Coherent
import Misfit.Proofs.Types.Operations
import Misfit.Proofs.Types.NormalForm
import Misfit.Proofs.Compare.Above
import Misfit.Proofs.Explain.Returned
import Misfit.Proofs.Json.Written
import Misfit.Proofs.Json.Renderings
import Misfit.Proofs.Json.Lines
import Misfit.Proofs.Json.Lexing
import Misfit.Proofs.Options.Renderings
import Misfit.Proofs.Compare.Kinds
import Misfit.Proofs.Compare.Findings
import Misfit.Proofs.Compare.Selection
import Misfit.Proofs.Compare.UnionSource
import Misfit.Proofs.Compare.Widening
import Misfit.Proofs.Compare.Never
import Misfit.Proofs.Compare.Reordered
import Misfit.Proofs.Compare.ArrayOfUnion
import Misfit.Proofs.Explain.Elements
import Misfit.Proofs.Compare.Succession
import Misfit.Proofs.Compare.Entering
import Misfit.Proofs.Compare.Ending
import Misfit.Proofs.Explain.Arity
import Misfit.Proofs.Types.Shapes
import Misfit.Proofs.Explain.Key
import Misfit.Proofs.Explain.Offender
import Misfit.Proofs.Types.Declared
import Misfit.Proofs.Types.Narrowing
import Misfit.Proofs.Compare.Shares
import Misfit.Proofs.Compare.Reselection
import Misfit.Proofs.Explain.Path
import Misfit.Proofs.Tree.Parents
import Misfit.Proofs.Tree.Descendants
import Misfit.Proofs.Tree.Scopes
import Misfit.Proofs.Tree.Literals
import Misfit.Proofs.Guard
import Misfit.Proofs.Json.Comments
import Misfit.Proofs.Json.Parsing
import Misfit.Proofs.Options.Lifting
import Misfit.Proofs.Text.Annotation
