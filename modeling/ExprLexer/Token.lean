/-
This file describes tokens. A token is a piece of the source text, and its kind can be read off
its first character alone.
-/

import ExprLexer.Category
import ExprLexer.Radix

namespace ExprLexer

namespace Token

/-- The origin of a token is the kind of lexeme that it was read as. -/
inductive Origin where
  /-- One structural character. -/
  | delimiter
  /-- A numeral without a radix, with or without an exponent. -/
  | decimal
  | based (radix : Radix)
  | quotation (quote : Char)
  /-- A run of characters that nothing else claims. -/
  | plain
  /-- The part of a plain run before the suffix that was split off. -/
  | plainHead
  /-- The suffix that was split off a plain run. -/
  | plainTail
  deriving DecidableEq

inductive Kind where
  | number
  | quotation
  | delimiter
  | plain
  deriving DecidableEq

/-- The kind that the first character of a text announces. An empty text counts as plain. -/
def Kind.ofText (text : String) : Kind :=
  match text.toList.head? with
  | some c =>
      if c ∈ Category.quote then .quotation
      else if c ∈ Category.numberBody then .number
      else if c ∈ Category.structural then .delimiter
      else .plain
  | none => .plain

end Token

/-- A token is a text with the byte offset where it starts in the source. -/
structure Token where
  text : String
  start : Nat
  origin : Token.Origin
  deriving DecidableEq

namespace Token

/-- The byte offset after the last character of the token. -/
def stop (token : Token) : Nat := token.start + token.text.utf8ByteSize

def kind (token : Token) : Kind := Kind.ofText token.text

/-- The texts are what a reader of the tokens sees, so streams are compared by them. -/
def texts (tokens : List Token) : List String := tokens.map text

def kinds (tokens : List Token) : List Kind := tokens.map kind

/-- The tokens from one index up to another, if both lie in the list in this order. -/
def range? (tokens : List Token) (first last : Nat) : Option (List Token) :=
  if first ≤ last ∧ last ≤ tokens.length then
    some ((tokens.drop first).take (last - first))
  else
    none

end Token

end ExprLexer
