import MiniLisp.Conformance
import MiniLisp.Main
import MiniLisp.Name.Table
import MiniLisp.Reader.Cursor
import MiniLisp.Value.Equality
import MiniLisp.Proofs.Arithmetic
import MiniLisp.Proofs.Desugaring
import MiniLisp.Proofs.Environments
import MiniLisp.Proofs.Equality
import MiniLisp.Proofs.Evaluation
import MiniLisp.Proofs.Grammar
import MiniLisp.Proofs.Lexing
import MiniLisp.Proofs.Metadata
import MiniLisp.Proofs.Normalisation
import MiniLisp.Proofs.Numerals
import MiniLisp.Proofs.Outcomes
import MiniLisp.Proofs.Programs
import MiniLisp.Proofs.Quoting
import MiniLisp.Proofs.RoundTrip
import MiniLisp.Proofs.WellFormedness
import MiniLisp.Proofs.Lookahead
import MiniLisp.Proofs.Concatenation
import MiniLisp.Proofs.Limits
import MiniLisp.Proofs.Lines
import MiniLisp.Proofs.Results
import MiniLisp.Proofs.Sessions
import MiniLisp.Proofs.Shorthands
import MiniLisp.Proofs.SingleLines
import MiniLisp.Proofs.Tables
import MiniLisp.Proofs.FrameNumbers
import MiniLisp.Proofs.NormalForms
import MiniLisp.Proofs.Depth
import MiniLisp.Proofs.Agreement
import MiniLisp.Proofs.Cursors
import MiniLisp.Proofs.Nesting
import MiniLisp.Proofs.Annotations
import MiniLisp.Proofs.LineBreaks
import MiniLisp.Proofs.Equivalence
import MiniLisp.Proofs.MapContents
import MiniLisp.Proofs.Operands
import MiniLisp.Proofs.Rounding
import MiniLisp.Proofs.WholeNumbers
import MiniLisp.Proofs.Quotients
import MiniLisp.Proofs.Decimals
import MiniLisp.Proofs.Literals
import MiniLisp.Proofs.PrintedFloats
import MiniLisp.Proofs.FloatLiterals
import MiniLisp.Proofs.TableErrors
import MiniLisp.Proofs.Interning
