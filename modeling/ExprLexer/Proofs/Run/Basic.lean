/-
This file says what the run over a source is made of. It is accepted if the lexemes cover all of it,
and rejected at the first malformed literal. The place where the source starts does not matter.
-/

import ExprLexer.Proofs.Lexeme.Cover
import ExprLexer.Proofs.Machine.Turn

namespace ExprLexer

theorem Run.result_eq_ok_iff {run : Run} {tokens : List Token} :
    run.result = .ok tokens ↔ run = ⟨tokens, none⟩ := by
  obtain ⟨emitted, rejection⟩ := run
  cases rejection <;> simp [result]

theorem Run.result_eq_error_iff {run : Run} {rejection : Rejection} :
    run.result = .error rejection ↔ run.rejection = some rejection := by
  obtain ⟨emitted, rejection⟩ := run
  cases rejection <;> simp [result]

/-- The same token some bytes further on. -/
def Token.shift (bytes : Nat) (token : Token) : Token := { token with start := token.start + bytes }

def Literal.shift (bytes : Nat) : Literal → Literal
  | numeral start => numeral (start + bytes)
  | quotation start => quotation (start + bytes)

/-- The same rejection some bytes further on. -/
def Rejection.shift (bytes : Nat) (rejection : Rejection) : Rejection :=
  { rejection with
    position := rejection.position + bytes
    literal := rejection.literal.shift bytes }

theorem Rejection.ofDefect_shift (bytes : Nat) (defect : Defect) (position start : Nat) :
    (ofDefect defect position start).shift bytes =
      ofDefect defect (position + bytes) (start + bytes) := by
  cases defect <;> rfl

/-- The run over the same text some bytes further on. -/
def Run.shift (bytes : Nat) (run : Run) : Run :=
  ⟨run.tokens.map (Token.shift bytes), run.rejection.map (Rejection.shift bytes)⟩

theorem Run.shift_prepend (bytes : Nat) (run : Run) (tokens : List Token) :
    (run.prepend tokens).shift bytes =
      (run.shift bytes).prepend (tokens.map (Token.shift bytes)) := by
  simp [shift, prepend]

namespace Lexeme

theorem tokens_shift (suffixes : Suffixes) (start bytes : Nat) (origin : Token.Origin)
    (body rest : List Char) :
    tokens suffixes (start + bytes) origin body rest =
      (tokens suffixes start origin body rest).map (Token.shift bytes) := by
  unfold tokens
  split
  · split
    · simp [Token.shift, Nat.add_right_comm]
    · rfl
  · rfl

/-- A run does the same wherever its text starts. -/
theorem runFrom_shift (suffixes : Suffixes) (start bytes : Nat) (cs : List Char) :
    runFrom suffixes (start + bytes) cs = (runFrom suffixes start cs).shift bytes := by
  induction cs using sequence_induction generalizing start with
  | nil =>
      rw [runFrom_nil, runFrom_nil]
      rfl
  | blank c rest blank inductionHypothesis =>
      rw [runFrom_blank blank, runFrom_blank blank, Nat.add_right_comm]
      exact inductionHypothesis (start + c.utf8Size)
  | whole origin body rest starts inductionHypothesis =>
      rw [runFrom_whole starts, runFrom_whole starts, Nat.add_right_comm, inductionHypothesis,
        tokens_shift, Run.shift_prepend]
  | broken cs defect body starts =>
      rw [runFrom_broken starts, runFrom_broken starts, Nat.add_right_comm]
      simp [Run.shift, Rejection.ofDefect_shift]

end Lexeme

variable {suffixes : Suffixes} {source : String} {run : Run} {tokens : List Token}
  {rejection : Rejection}

/-- The run over characters that make up a source. -/
theorem lex_ofList (suffixes : Suffixes) (cs : List Char) :
    lex suffixes (String.ofList cs) = .ok (Lexeme.runFrom suffixes 0 cs) := by
  rw [lex_eq_ok_iff, String.toList_ofList]

/-- The lexemes of an accepted source cover all of it. -/
theorem covers_of_accepted (lexed : lex suffixes source = .ok run)
    (accepted : run.result = .ok tokens) :
    Lexeme.Covers suffixes 0 source.toList [] tokens := by
  rw [lex_eq_ok_iff.mp lexed] at accepted
  rcases Lexeme.runFrom_cases suffixes 0 source.toList with
    ⟨given, covers, finished⟩ | ⟨_, _, _, _, _, _, _, _, broken⟩
  · rw [finished] at accepted
    cases accepted
    exact covers
  · rw [broken] at accepted
    cases accepted

/-- The lexemes of a rejected source cover it up to a malformed literal. -/
theorem covers_of_rejected (lexed : lex suffixes source = .ok run)
    (rejected : run.result = .error rejection) :
    ∃ front rest defect body, source.toList = front ++ rest ∧
      Lexeme.Covers suffixes 0 front rest run.tokens ∧
      Lexeme.Starts rest (.broken defect body) ∧
      rejection = .ofDefect defect (Text.byteLength (front ++ body)) (Text.byteLength front) := by
  rw [lex_eq_ok_iff.mp lexed] at rejected ⊢
  rcases Lexeme.runFrom_cases suffixes 0 source.toList with
    ⟨given, _, finished⟩ | ⟨front, rest, given, defect, body, cut, covers, starts, broken⟩
  · rw [finished] at rejected
    cases rejected
  · rw [broken] at rejected ⊢
    cases rejected
    exact ⟨front, rest, defect, body, cut, covers, starts, by simp⟩

/-- A source is accepted if lexemes cover all of it. -/
theorem lex_of_covers (covers : Lexeme.Covers suffixes 0 source.toList [] tokens) :
    lex suffixes source = .ok ⟨tokens, none⟩ := by
  have known := Lexeme.runFrom_covers covers
  rw [List.append_nil, Lexeme.runFrom_nil] at known
  rw [lex_eq_ok_iff, known]
  simp [Run.prepend]

/-- A source is rejected if lexemes cover it up to a malformed literal. -/
theorem lex_of_broken {front rest body : List Char} {defect : Defect}
    (cut : source.toList = front ++ rest) (covers : Lexeme.Covers suffixes 0 front rest tokens)
    (starts : Lexeme.Starts rest (.broken defect body)) :
    lex suffixes source = .ok ⟨tokens, some (.ofDefect defect (Text.byteLength (front ++ body))
      (Text.byteLength front))⟩ := by
  have known := Lexeme.runFrom_covers covers
  rw [Lexeme.runFrom_broken starts, Nat.zero_add, ← Text.byteLength_append] at known
  rw [lex_eq_ok_iff, cut, known]
  simp [Run.prepend]

end ExprLexer
