/-
This file describes the outcome of reading a whole source text.
-/

import ExprLexer.Rejection
import ExprLexer.Token

namespace ExprLexer

/-- A run emits tokens until the source ends or a defect stops it. -/
structure Run where
  tokens : List Token
  rejection : Option Rejection
  deriving DecidableEq

namespace Run

/-- A rejected source has no tokens to offer, even if some were emitted. -/
def result (run : Run) : Except Rejection (List Token) :=
  match run.rejection with
  | some rejection => .error rejection
  | none => .ok run.tokens

end Run

end ExprLexer
