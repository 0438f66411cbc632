import Egg.Main
import Egg.Syntax.Cursor
import Egg.Proofs.Scope.Chain
import Egg.Proofs.Number.Order
import Egg.Proofs.Text.Encoding
import Egg.Proofs.Text.LineSplitting
import Egg.Proofs.Eval.Agreement
import Egg.Proofs.Syntax.RoundTrip
import Egg.Proofs.Syntax.Steps
import Egg.Proofs.Syntax.Completion
import Egg.Proofs.Syntax.CanonicalForm
import Egg.Proofs.Syntax.Separators
import Egg.Proofs.Syntax.ErrorPlace
import Egg.Proofs.Syntax.Image
import Egg.Proofs.Syntax.LineEndings
import Egg.Proofs.Eval.Session
import Egg.Proofs.Eval.Assignment
import Egg.Proofs.Eval.Nesting
import Egg.Proofs.Eval.Sequencing
import Egg.Proofs.Eval.Unrolling
import Egg.Proofs.Eval.Failure
import Egg.Proofs.Eval.Provenance
import Egg.Proofs.Eval.Identity
import Egg.Proofs.Eval.Correspondence
import Egg.Proofs.Eval.Lockstep
import Egg.Proofs.Eval.Reachability
import Egg.Proofs.Eval.UnusedNames
import Egg.Proofs.Eval.Output
import Egg.Proofs.Eval.Pieces
import Egg.Proofs.Eval.GlobalNames
import Egg.Proofs.Eval.GlobalScope
import Egg.Proofs.Eval.FormLaws
import Egg.Proofs.Eval.Indexing
import Egg.Proofs.Eval.Tracing
import Egg.Proofs.Eval.Transparency
import Egg.Proofs.CommandLine.Conversation
import Egg.Proofs.Number.Denotation
import Egg.Proofs.Value.Legibility
import Egg.Proofs.Expr.Equality
import Egg.Proofs.Value.Equality
import Egg.Proofs.Number.Nearest
import Egg.Proofs.Syntax.Cursor
import Egg.Proofs.Text.Quoting
import Egg.Proofs.Number.Literal
import Egg.Proofs.Expr.Dumping
import Egg.Proofs.CommandLine.SourceFiles
import Egg.Proofs.Syntax.Skipping
import Egg.Proofs.Syntax.Traversal
import Egg.Proofs.Number.Rounding
import Egg.Proofs.Number.Shortness
import Egg.Proofs.Number.Faithful
import Egg.Proofs.Syntax.Descent
import Egg.Proofs.Eval.Parameters
import Egg.Proofs.Text.ByteOrder
import Egg.Proofs.Scope.Listing
