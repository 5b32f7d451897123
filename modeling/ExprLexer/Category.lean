/-
This file sorts characters into the categories that every decision of the lexer is made by.
-/

namespace ExprLexer

/-- A category is a fixed set of characters, and a character may lie in several of them. -/
inductive Category where
  | whitespace
  | quote
  | escape
  | numberBody
  | exponent
  | exponentSign
  | hexDigit
  | octalDigit
  | binaryDigit
  | structural
  deriving DecidableEq

namespace Category

/-- The categories stand in the order of their bits. -/
def all : List Category :=
  [whitespace, quote, escape, numberBody, exponent, exponentSign,
    hexDigit, octalDigit, binaryDigit, structural]

def octalNumerals : List Char := ['0', '1', '2', '3', '4', '5', '6', '7']

def decimalNumerals : List Char := octalNumerals ++ ['8', '9']

/-- Every member is an ASCII character, so no category holds a character of several bytes. -/
def members : Category → List Char
  | whitespace => [' ', '\t', '\n']
  | quote => ['\x22', '\x27']
  | escape => ['\x5c']
  | numberBody => decimalNumerals ++ ['.', '_']
  | exponent => ['e', 'E']
  | exponentSign => ['-']
  | hexDigit =>
      decimalNumerals ++ ['A', 'B', 'C', 'D', 'E', 'F', 'a', 'b', 'c', 'd', 'e', 'f', '_']
  | octalDigit => octalNumerals ++ ['_']
  | binaryDigit => ['0', '1', '_']
  | structural => ['(', ')', '[', ']', '\x7b', '\x7d']

instance : Membership Char Category where
  mem category c := c ∈ category.members

instance (c : Char) (category : Category) : Decidable (c ∈ category) :=
  inferInstanceAs (Decidable (c ∈ category.members))

/-- The categories that hold a character, in the order of their bits. -/
def holding (c : Char) : List Category := all.filter (c ∈ ·)

/-- The place of a category in `all`. -/
def rank : Category → Nat
  | whitespace => 0
  | quote => 1
  | escape => 2
  | numberBody => 3
  | exponent => 4
  | exponentSign => 5
  | hexDigit => 6
  | octalDigit => 7
  | binaryDigit => 8
  | structural => 9

/-- A category has one bit of its own. -/
def bit (category : Category) : Nat := 1 <<< category.rank

/-- The mask of some categories has the bits of all of them. -/
def mask (categories : List Category) : Nat :=
  categories.foldr (fun category bits => category.bit ||| bits) 0

/-- A mask selects the categories whose bits it has. -/
def ofMask (bits : Nat) : List Category := all.filter fun category => bits.testBit category.rank

/-- A character matches a mask if some category of the mask holds it. -/
def Matches (c : Char) (bits : Nat) : Prop := ∃ category ∈ ofMask bits, c ∈ category

instance (c : Char) (bits : Nat) : Decidable (Matches c bits) :=
  inferInstanceAs (Decidable (∃ category ∈ ofMask bits, c ∈ category))

end Category

end ExprLexer
