/-
This file shows that the suffixes only cut plain tokens apart. All else that the lexer does is the
same for every list of suffixes.
-/

import ExprLexer.Proofs.Lexeme.Shape
import ExprLexer.Proofs.Machine.Turn

namespace ExprLexer

namespace Token

/-- The pieces of a token in a source of the given size. A plain token that something follows comes
apart where the suffixes cut its text, and every other token stays whole. -/
def pieces (suffixes : Suffixes) (size : Nat) (token : Token) : Except Fault (List Token) :=
  if token.kind = .plain ∧ token.stop < size then
    match suffixes.cutPoint? token.text with
    | some cut => do
        let head ← Text.slice token.text 0 cut
        let tail ← Text.slice token.text cut token.text.utf8ByteSize
        return [⟨head, token.start, .plainHead⟩, ⟨tail, token.start + cut, .plainTail⟩]
    | none => return [token]
  else
    return [token]

/-- The pieces of all tokens in their order. -/
def allPieces (suffixes : Suffixes) (size : Nat) : List Token → Except Fault (List Token)
  | [] => return []
  | token :: rest => do
      let first ← token.pieces suffixes size
      let later ← allPieces suffixes size rest
      return first ++ later

theorem allPieces_cons {suffixes : Suffixes} {size : Nat} {token : Token}
    {tokens given more : List Token} (first : token.pieces suffixes size = .ok given)
    (later : allPieces suffixes size tokens = .ok more) :
    allPieces suffixes size (token :: tokens) = .ok (given ++ more) := by
  rw [allPieces, first, later]
  rfl

variable {origin : Origin} {body rest : List Char}

/-- A token of a whole lexeme stops before the end exactly if something follows the lexeme. -/
theorem stop_lt_iff (start : Nat) :
    stop ⟨String.ofList body, start, origin⟩ < start + Text.byteLength (body ++ rest) ↔
      rest ≠ [] := by
  rw [stop, Text.utf8ByteSize_ofList, Text.byteLength_append, ← Text.byteLength_pos_iff]
  show start + Text.byteLength body < _ ↔ _
  omega

/-- The pieces of a lexeme are its tokens. -/
theorem pieces_lexeme (suffixes : Suffixes) (start : Nat)
    (starts : Lexeme.Starts (body ++ rest) (.whole origin body rest)) :
    pieces suffixes (start + Text.byteLength (body ++ rest)) ⟨String.ofList body, start, origin⟩ =
      .ok (Lexeme.tokens suffixes start origin body rest) := by
  have apart : (kind ⟨String.ofList body, start, origin⟩ = .plain ∧
      stop ⟨String.ofList body, start, origin⟩ < start + Text.byteLength (body ++ rest)) ↔
      origin = .plain ∧ rest ≠ [] := and_congr starts.shape.plain_iff (stop_lt_iff start)
  by_cases cuts : origin = .plain ∧ rest ≠ []
  · rw [pieces, if_pos (apart.mpr cuts)]
    obtain ⟨rfl, more⟩ := cuts
    rcases found : suffixes.find? (String.ofList body) with _ | suffix
    · rw [Suffixes.cutPoint?, found, Suffixes.tokens_whole found]
      rfl
    · obtain ⟨head, _, _, same, point⟩ := Suffixes.find?_cut found
      obtain ⟨first, second⟩ := Suffixes.slice_cut same
      rw [point, Suffixes.tokens_cut found same start more]
      simp only [bind, Except.bind, first, second]
      rfl
  · rw [pieces, if_neg (mt apart.mp cuts), Lexeme.tokens]
    simp only [if_neg cuts]
    rfl

end Token

namespace Lexeme

/-- The run with suffixes has the pieces of the tokens and the rejection of the run without. -/
theorem runFrom_pieces (suffixes : Suffixes) (start : Nat) (cs : List Char) :
    Token.allPieces suffixes (start + Text.byteLength cs) (runFrom .empty start cs).tokens =
        .ok (runFrom suffixes start cs).tokens ∧
      (runFrom suffixes start cs).rejection = (runFrom .empty start cs).rejection := by
  induction cs using sequence_induction generalizing start with
  | nil =>
      rw [runFrom_nil, runFrom_nil]
      exact ⟨rfl, rfl⟩
  | blank c rest blank inductionHypothesis =>
      have later := inductionHypothesis (start + c.utf8Size)
      rw [Nat.add_assoc] at later
      rwa [runFrom_blank blank, runFrom_blank blank, Text.byteLength_cons]
  | whole origin body rest starts inductionHypothesis =>
      obtain ⟨later, rejection⟩ := inductionHypothesis (start + Text.byteLength body)
      have first := Token.pieces_lexeme suffixes start starts
      rw [Nat.add_assoc, ← Text.byteLength_append] at later
      rw [runFrom_whole starts, runFrom_whole starts, tokens_empty]
      exact ⟨Token.allPieces_cons first later, rejection⟩
  | broken cs defect body starts =>
      rw [runFrom_broken starts, runFrom_broken starts]
      exact ⟨rfl, rfl⟩

end Lexeme

/-- The suffixes decide nothing but which plain tokens come apart. The lexer accepts the same
sources with them as without, and it rejects the others for the same reasons. -/
theorem lex_pieces (suffixes : Suffixes) (source : String) :
    ∃ whole cut, lex .empty source = .ok whole ∧ lex suffixes source = .ok cut ∧
      cut.rejection = whole.rejection ∧
      Token.allPieces suffixes source.utf8ByteSize whole.tokens = .ok cut.tokens ∧
      whole.result.map (Token.allPieces suffixes source.utf8ByteSize) =
        cut.result.map Except.ok := by
  obtain ⟨pieces, rejection⟩ := Lexeme.runFrom_pieces suffixes 0 source.toList
  rw [Nat.zero_add, Text.byteLength_toList] at pieces
  have results : (Lexeme.runFrom .empty 0 source.toList).result.map
      (Token.allPieces suffixes source.utf8ByteSize) =
        (Lexeme.runFrom suffixes 0 source.toList).result.map Except.ok := by
    rw [Run.result, Run.result, rejection]
    split
    · rfl
    · exact congrArg Except.ok pieces
  exact ⟨_, _, lex_eq_ok_iff.mpr rfl, lex_eq_ok_iff.mpr rfl, rejection, pieces, results⟩

end ExprLexer
