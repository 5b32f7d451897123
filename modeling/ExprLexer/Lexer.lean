/-
This file is the entry to the library. It reads a source text into tokens.
-/

import ExprLexer.Machine.Loop

namespace ExprLexer

/-- The run over a source text from its first character. -/
def lex (suffixes : Suffixes) (source : String) : Except Fault Run :=
  (Machine.start source).run suffixes

end ExprLexer
