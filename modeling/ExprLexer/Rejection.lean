/-
This file describes why a source text is rejected. A rejection names what is wrong, the byte
offset where that shows, and the literal that was being read.
-/

namespace ExprLexer

/-- A defect is what makes a literal malformed. -/
inductive Defect where
  /-- A numeral that has an exponent marker meets another one. -/
  | repeatedExponent (marker : Char)
  /-- The character after an exponent marker neither continues a numeral nor is the sign. -/
  | strayExponent (found : Char)
  /-- The source ends right after an exponent marker. -/
  | missingExponent
  /-- The source ends before the closing quote. -/
  | unclosedQuote (quote : Char)
  deriving DecidableEq

/-- The literal that was being read, with the offset of its first character. -/
inductive Literal where
  | numeral (start : Nat)
  | quotation (start : Nat)
  deriving DecidableEq

def Literal.start : Literal → Nat
  | numeral start => start
  | quotation start => start

/-- The literal in which a defect arises is a numeral, unless a quote is unclosed. -/
def Defect.literal (defect : Defect) (start : Nat) : Literal :=
  match defect with
  | repeatedExponent _ => .numeral start
  | strayExponent _ => .numeral start
  | missingExponent => .numeral start
  | unclosedQuote _ => .quotation start

def Defect.message : Defect → String
  | repeatedExponent marker =>
      "second exponent marker `" ++ marker.toString ++ "` in numeric literal"
  | strayExponent found =>
      "expected digit or `-` after exponent marker, found `" ++ found.toString ++ "`"
  | missingExponent => "input ends after exponent marker"
  | unclosedQuote quote =>
      "unterminated string literal opened with `" ++ quote.toString ++ "`"

/-- The position is the offset of the offending character, or the length of the source. -/
structure Rejection where
  defect : Defect
  position : Nat
  literal : Literal
  deriving DecidableEq

namespace Rejection

/-- The rejection of a literal that starts at one offset and shows its defect at another. -/
def ofDefect (defect : Defect) (position start : Nat) : Rejection :=
  ⟨defect, position, defect.literal start⟩

def message (rejection : Rejection) : String :=
  "invalid or unexpected token: " ++ rejection.defect.message ++
    " at byte " ++ toString rejection.position

end Rejection

end ExprLexer
