import ExprLexer.Lexeme.Sequence
import ExprLexer.Lexer
import ExprLexer.Log
import ExprLexer.Text.Bookmark
import ExprLexer.Proofs.Category
import ExprLexer.Proofs.Lexeme.Quotation
import ExprLexer.Proofs.Text.Cut
import ExprLexer.Proofs.Lexeme.Reading
import ExprLexer.Proofs.Lexeme.Cover
import ExprLexer.Proofs.Machine.Division
import ExprLexer.Proofs.Suffixes
import ExprLexer.Proofs.Ending
import ExprLexer.Proofs.Machine.Reaction
import ExprLexer.Proofs.Machine.Turn
import ExprLexer.Proofs.Lexeme.Shape
import ExprLexer.Proofs.Text.Boundary
import ExprLexer.Proofs.Text.Between
import ExprLexer.Proofs.Text.Walk
import ExprLexer.Proofs.Text.Bookmark
import ExprLexer.Proofs.Token.Partition
import ExprLexer.Proofs.Machine.Soundness
import ExprLexer.Proofs.Token.Pieces
import ExprLexer.Proofs.Lexeme.Extent
import ExprLexer.Proofs.Lexeme.Locality
import ExprLexer.Proofs.Run.Joining
import ExprLexer.Proofs.Run.Rejection
import ExprLexer.Proofs.Run.Extension
import ExprLexer.Proofs.Machine.Transition
import ExprLexer.Proofs.Machine.Emission
import ExprLexer.Proofs.Token.Kind
import ExprLexer.Proofs.Token.Layout
import ExprLexer.Proofs.Token.Spacing
import ExprLexer.Proofs.Lexeme.Recoding
import ExprLexer.Proofs.Run.Recoding
import ExprLexer.Proofs.Run.Numeral
import ExprLexer.Proofs.Lexeme.Escaping
import ExprLexer.Proofs.Run.Quotation
import ExprLexer.Proofs.Machine.Progress
import ExprLexer.Proofs.Machine.Invariant
import ExprLexer.Proofs.Run.Trailing
import ExprLexer.Proofs.Run.Selection
import ExprLexer.Proofs.Token.Radix
