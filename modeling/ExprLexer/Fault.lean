/-
This file names the assumptions of the lexer about its own state. Breaking one is a fault. A fault
is not an answer about a source text.
-/

namespace ExprLexer

inductive Fault where
  /-- The ends of a range are out of order, beyond the text or inside a character. -/
  | badRange (start stop : Nat)
  /-- A byte search was asked for a character of several bytes. -/
  | wideNeedle (needle : Char)
  /-- A character would be added to a span that ends elsewhere. -/
  | gap (stop position : Nat)
  /-- A token would have no text. -/
  | emptyToken (start : Nat)
  /-- A quotation would have no character to close it. -/
  | emptyQuotation (start : Nat)
  /-- The run would end before the source does. -/
  | unread (position : Nat)
  deriving DecidableEq

end ExprLexer
