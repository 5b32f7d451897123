/-
This file describes the numerals that name their radix, such as `0xFF`, `0o17` and `0b101`.
-/

import ExprLexer.Category

namespace ExprLexer

inductive Radix where
  | hexadecimal
  | octal
  | binary
  deriving DecidableEq

namespace Radix

/-- A numeral names its radix by this text and the indicator after it. -/
def leader : String := "0"

def indicator : Radix → Char
  | hexadecimal => 'x'
  | octal => 'o'
  | binary => 'b'

/-- The radix that a character after the leader names. -/
def named? (c : Char) : Option Radix :=
  [hexadecimal, octal, binary].find? fun radix => radix.indicator = c

/-- The characters that continue a numeral of this radix. -/
def digits : Radix → Category
  | hexadecimal => .hexDigit
  | octal => .octalDigit
  | binary => .binaryDigit

/-- The number of digit values. -/
def base : Radix → Nat
  | hexadecimal => 16
  | octal => 8
  | binary => 2

end Radix

end ExprLexer
