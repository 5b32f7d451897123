/-
This file holds the suffixes that the lexer splits off the end of a plain token.
The first suffix of the list that applies wins.
-/

namespace ExprLexer

/-- The suffixes are tried in the order of their declaration. -/
structure Suffixes where
  entries : List String
  deriving DecidableEq

namespace Suffixes

def standard : Suffixes := ⟨[":"]⟩

/-- Without suffixes every plain token stays whole. -/
def empty : Suffixes := ⟨[]⟩

/-- An empty suffix would split nothing off, so it is not added. -/
def push (suffixes : Suffixes) (suffix : String) : Suffixes :=
  if suffix = "" then suffixes else ⟨suffixes.entries ++ [suffix]⟩

/-- A suffix applies to a text that ends with it and has something before it. -/
def Applies (text suffix : String) : Prop :=
  suffix ≠ "" ∧ suffix.utf8ByteSize < text.utf8ByteSize ∧ suffix.toList <:+ text.toList

instance (text suffix : String) : Decidable (Applies text suffix) :=
  inferInstanceAs (Decidable (_ ∧ _ ∧ _))

/-- The first declared suffix that applies to a text. -/
def find? (suffixes : Suffixes) (text : String) : Option String :=
  suffixes.entries.find? fun suffix => Applies text suffix

/-- The number of bytes before the suffix that is split off. -/
def cutPoint? (suffixes : Suffixes) (text : String) : Option Nat :=
  (suffixes.find? text).map fun suffix => text.utf8ByteSize - suffix.utf8ByteSize

end Suffixes

end ExprLexer
