/-
This file holds the state of the lexing machine. The machine keeps the reader, what it is in the
middle of, and the tokens it has emitted.
-/

import ExprLexer.Run
import ExprLexer.Text.Reader

namespace ExprLexer

/-- A span is the byte range of the token that is being read. -/
structure Span where
  start : Nat
  stop : Nat
  deriving DecidableEq

namespace Span

/-- The span of the character that the reader stands at. -/
def ofChar (reader : Reader) (c : Char) : Span :=
  ⟨reader.position, reader.position + c.utf8Size⟩

/-- The span with the character that the reader stands at added to its end. -/
def extend (span : Span) (reader : Reader) (c : Char) : Except Fault Span :=
  if span.stop = reader.position then
    .ok { span with stop := span.stop + c.utf8Size }
  else
    .error (.gap span.stop reader.position)

/-- The token that covers the span. -/
def token (span : Span) (reader : Reader) (origin : Token.Origin) : Except Fault Token := do
  let text ← reader.slice span.start span.stop
  if text = "" then
    .error (.emptyToken span.start)
  else
    return ⟨text, span.start, origin⟩

end Span

/-- The mode says what the machine is in the middle of. -/
inductive Mode where
  | between
  | numeral (span : Span)
  /-- An exponent marker was read, and its sign or first digit must follow. -/
  | exponent (span : Span)
  | based (radix : Radix) (span : Span)
  | plain (span : Span)
  | quotation (quote : Char) (span : Span)
  deriving DecidableEq

structure Machine where
  reader : Reader
  mode : Mode
  emitted : Array Token
  deriving DecidableEq

namespace Machine

def start (source : String) : Machine := ⟨Reader.start source, .between, #[]⟩

/-- A bound on the turns that are left. Every byte is worth two, and a token being read is worth
one more, since a turn may close it without reading on. -/
def remaining (machine : Machine) : Nat :=
  2 * (machine.reader.size - machine.reader.position) +
    if machine.mode = .between then 0 else 1

end Machine

end ExprLexer
