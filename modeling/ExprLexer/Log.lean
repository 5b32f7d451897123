/-
This file gives the records that a run leaves in the log. The records tell the length of the
source, each token as it was emitted, and how the run ended.
-/

import ExprLexer.Run

namespace ExprLexer.Log

inductive Level where
  | debug
  | trace
  deriving DecidableEq

inductive Record where
  | opened (sourceLength : Nat)
  | emitted (text : String)
  | completed (count : Nat)
  | rejected (reason : String)
  deriving DecidableEq

/-- Single tokens are finer detail than the start and the end of a run. -/
def Record.level : Record → Level
  | emitted _ => .trace
  | _ => .debug

/-- The title is the fixed text of a record. -/
def Record.title : Record → String
  | opened _ => "tokenize"
  | emitted _ => "emit"
  | completed _ => "tokenized"
  | rejected _ => "lexical error"

/-- The last record says how a run ended. -/
def closing (run : Run) : Record :=
  match run.result with
  | .ok tokens => .completed tokens.length
  | .error rejection => .rejected rejection.message

/-- The records of a run over a source text, in order. -/
def records (source : String) (run : Run) : List Record :=
  .opened source.utf8ByteSize ::
    (Token.texts run.tokens).map .emitted ++ [closing run]

end ExprLexer.Log
