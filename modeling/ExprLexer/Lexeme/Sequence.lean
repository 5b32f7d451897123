/-
This file reads a whole source text as a sequence of lexemes, one after the other. It is the
standard that the machine is measured by.
-/

import ExprLexer.Lexeme.Basic
import ExprLexer.Run
import ExprLexer.Suffixes
import ExprLexer.Text.Bytes

namespace ExprLexer

namespace Lexeme

/-- The tokens of a whole lexeme. A plain run that something follows loses the suffix that applies,
and the suffix becomes a token of its own. -/
def tokens (suffixes : Suffixes) (start : Nat) (origin : Token.Origin) (body rest : List Char) :
    List Token :=
  let whole : Token := ⟨String.ofList body, start, origin⟩
  if origin = .plain ∧ rest ≠ [] then
    match suffixes.find? (String.ofList body) with
    | some suffix =>
        let head := body.take (body.length - suffix.length)
        [⟨String.ofList head, start, .plainHead⟩,
          ⟨suffix, start + Text.byteLength head, .plainTail⟩]
    | none => [whole]
  else
    [whole]

/-- The run over the characters that start at an offset. -/
def runFrom (suffixes : Suffixes) (start : Nat) : List Char → Run
  | [] => ⟨[], none⟩
  | c :: rest =>
      if c ∈ Category.whitespace then
        runFrom suffixes (start + c.utf8Size) rest
      else
        match _found : read c rest with
        | .whole origin body after =>
            let later := runFrom suffixes (start + Text.byteLength body) after
            ⟨tokens suffixes start origin body after ++ later.tokens, later.rejection⟩
        | .broken defect body =>
            ⟨[], some (.ofDefect defect (start + Text.byteLength body) start)⟩
termination_by cs => cs.length
decreasing_by
  · exact Nat.lt_succ_self _
  · exact read_length _found

end Lexeme

end ExprLexer
