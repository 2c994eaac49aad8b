import FormulaSyntax.Token.Render
import FormulaSyntax.Expr.Canonical
import FormulaSyntax.Formula.Parser
import FormulaSyntax.Shape.Token
import FormulaSyntax.Shape.Formula
import FormulaSyntax.Journal.Command
import FormulaSyntax.Proofs.Parsing.Formulas
import FormulaSyntax.Proofs.Parsing.Prefixes
import FormulaSyntax.Proofs.Parsing.Ends
import FormulaSyntax.Proofs.Parsing.Origins
import FormulaSyntax.Proofs.Parsing.Situations
import FormulaSyntax.Proofs.Parsing.Blame
import FormulaSyntax.Proofs.Parsing.Lines
import FormulaSyntax.Proofs.Parsing.Resuming
import FormulaSyntax.Proofs.RoundTrip.Tokens
import FormulaSyntax.Proofs.RoundTrip.Canonical
import FormulaSyntax.Proofs.RoundTrip.Image
import FormulaSyntax.Proofs.RoundTrip.Faithful
import FormulaSyntax.Proofs.RoundTrip.Shapes
import FormulaSyntax.Proofs.Scanning.Tiling
import FormulaSyntax.Proofs.Scanning.Returns
import FormulaSyntax.Proofs.Scanning.Demand
import FormulaSyntax.Proofs.Scanning.LineBreaks
import FormulaSyntax.Proofs.Scanning.Quotations
import FormulaSyntax.Proofs.Scanning.NumberValues
import FormulaSyntax.Proofs.Scanning.Respacing
import FormulaSyntax.Proofs.Source.Lines
import FormulaSyntax.Proofs.Source.Errors
import FormulaSyntax.Proofs.Parsing.Milestones
import FormulaSyntax.Proofs.Source.Readings
import FormulaSyntax.Proofs.Journal.Writing
import FormulaSyntax.Proofs.Journal.Parses
import FormulaSyntax.Proofs.Scanning.Truncating
import FormulaSyntax.Proofs.Source.Renormalizing
import FormulaSyntax.Proofs.Parsing.Pulls
import FormulaSyntax.Proofs.Parsing.StackOrder
