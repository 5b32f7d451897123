/-
This file shows that a rejection tells the truth. The literal that it names is malformed at the
place that it names, and all that stands before the literal is accepted.
-/

import ExprLexer.Proofs.Lexeme.Locality
import ExprLexer.Proofs.Run.Basic
import ExprLexer.Proofs.Token.Partition

namespace ExprLexer

/-- The source shows a defect of the literal that starts at one offset at the other offset. -/
def Defect.Shows (source : String) (start position : Nat) : Defect → Prop
  | .repeatedExponent marker =>
      Text.charAt source position = .ok (some marker) ∧ marker ∈ Category.exponent ∧
        ∃ literal, Text.slice source start position = .ok literal ∧
          Lexeme.IsScaled literal.toList
  | .strayExponent found =>
      Text.charAt source position = .ok (some found) ∧
        found ∉ Category.numberBody ∧ found ∉ Category.exponentSign ∧
        ∃ literal, Text.slice source start position = .ok literal ∧
          Lexeme.IsMarked literal.toList
  | .missingExponent =>
      position = source.utf8ByteSize ∧
        ∃ literal, Text.slice source start position = .ok literal ∧
          Lexeme.IsMarked literal.toList
  | .unclosedQuote quote =>
      position = source.utf8ByteSize ∧
        Text.charAt source start = .ok (some quote) ∧ quote ∈ Category.quote ∧
        ∀ before after, source.toList = before ++ quote :: after →
          start < Text.byteLength before → Lexeme.escapesBefore before % 2 = 1

/-- A rejection names a place behind the start of its literal, and the source shows its defect
there. -/
structure Rejection.Accurate (source : String) (rejection : Rejection) : Prop where
  order : rejection.literal.start < rejection.position
  bound : rejection.position ≤ source.utf8ByteSize
  boundaries : (Text.boundary? source rejection.literal.start).isSome ∧
    (Text.boundary? source rejection.position).isSome
  literal : (∃ start, rejection.literal = .quotation start) ↔
    ∃ quote, rejection.defect = .unclosedQuote quote
  shows : rejection.defect.Shows source rejection.literal.start rejection.position

theorem Defect.literal_start (defect : Defect) (start : Nat) :
    (defect.literal start).start = start := by
  cases defect <;> rfl

theorem Defect.literal_quotation_iff (defect : Defect) (start : Nat) :
    (∃ place, defect.literal start = .quotation place) ↔
      ∃ quote, defect = .unclosedQuote quote := by
  cases defect <;> simp [Defect.literal]

namespace Lexeme

variable {source : String} {front body rest before after : List Char} {defect : Defect}
  {quote : Char}

/-- Every later quote of a quotation that stays open has an odd number of escapes before it. -/
theorem IsOpen.odd (shape : IsOpen quote body)
    (cut : front ++ body = before ++ quote :: after)
    (behind : Text.byteLength front < Text.byteLength before) :
    Lexeme.escapesBefore before % 2 = 1 := by
  obtain ⟨inner, rfl, quotes, opened⟩ := shape
  have notEscape := Category.Apart.not_mem (by decide : Category.Apart .quote .escape) quotes
  obtain ⟨middle, rfl, later⟩ := Text.cut_le cut (Nat.le_of_lt behind)
  cases middle with
  | nil =>
      rw [List.append_nil] at behind
      exact absurd behind (Nat.lt_irrefl _)
  | cons c middle =>
      obtain ⟨rfl, inside⟩ := List.cons.inj later
      rw [escapesBefore_append notEscape]
      exact (closeQuote_eq_none_iff []).mp opened middle after inside

theorem Flaw.shows (flaw : Flaw body rest.head? defect)
    (cut : source.toList = front ++ body ++ rest) :
    defect.Shows source (Text.byteLength front) (Text.byteLength (front ++ body)) := by
  have here : Text.charAt source (Text.byteLength (front ++ body)) = .ok rest.head? :=
    Text.charAt_cut cut
  have size := Text.utf8ByteSize_cut cut
  have ending (next : rest.head? = none) :
      Text.byteLength (front ++ body) = source.utf8ByteSize := by
    rw [size, List.head?_eq_none_iff.mp next]
    rfl
  have literal : Text.slice source (Text.byteLength front) (Text.byteLength (front ++ body)) =
      .ok (String.ofList body) := Text.slice_cut cut
  cases defect with
  | repeatedExponent marker =>
      obtain ⟨scaled, next, marks⟩ := flaw
      exact ⟨next ▸ here, marks, _, literal, by rwa [String.toList_ofList]⟩
  | strayExponent found =>
      obtain ⟨marked, next, stray⟩ := flaw
      obtain ⟨notNumber, notSign⟩ := not_or.mp stray
      exact ⟨next ▸ here, notNumber, notSign, _, literal, by rwa [String.toList_ofList]⟩
  | missingExponent =>
      obtain ⟨marked, next⟩ := flaw
      exact ⟨ending next, _, literal, by rwa [String.toList_ofList]⟩
  | unclosedQuote quote =>
      obtain ⟨isOpen, next⟩ := flaw
      have first : Text.charAt source (Text.byteLength front) = .ok (some quote) := by
        obtain ⟨inner, rfl, _⟩ := isOpen
        rw [List.append_assoc] at cut
        exact Text.charAt_cut cut
      refine ⟨ending next, first, isOpen.quotes, fun before after same behind => ?_⟩
      rw [cut, List.head?_eq_none_iff.mp next, List.append_nil] at same
      exact isOpen.odd same behind

/-- The rejection of a malformed literal is accurate. -/
theorem Starts.accurate (starts : Starts rest (.broken defect body))
    (cut : source.toList = front ++ rest) :
    Rejection.Accurate source
      (.ofDefect defect (Text.byteLength (front ++ body)) (Text.byteLength front)) := by
  obtain ⟨after, rfl, flaw⟩ := starts.flaw
  have whole : source.toList = front ++ body ++ after := by rw [cut, List.append_assoc]
  have start := defect.literal_start (Text.byteLength front)
  constructor
  case order =>
    have wide := Text.byteLength_pos_iff.mpr flaw.ne_nil
    simp only [Rejection.ofDefect, start, Text.byteLength_append]
    omega
  case bound =>
    rw [Text.utf8ByteSize_cut whole]
    exact Nat.le_add_right _ _
  case boundaries =>
    simp only [Rejection.ofDefect, start, Text.boundary?_isSome_iff_cut]
    exact ⟨⟨front, _, cut, rfl⟩, ⟨front ++ body, after, whole, rfl⟩⟩
  case literal => exact defect.literal_quotation_iff _
  case shows =>
    simp only [Rejection.ofDefect, start]
    exact flaw.shows whole

end Lexeme

/-- A rejection is accurate, and it is the first one. The tokens that were emitted before it make up
the source up to the literal, and the lexer accepts that part of the source. -/
theorem lex_rejection {suffixes : Suffixes} {source : String} {run : Run} {rejection : Rejection}
    (lexed : lex suffixes source = .ok run) (rejected : run.result = .error rejection) :
    rejection.Accurate source ∧
      Token.Partition source 0 rejection.literal.start run.tokens ∧
      ∃ front earlier, Text.slice source 0 rejection.literal.start = .ok front ∧
        lex suffixes front = .ok earlier ∧ earlier.rejection = none := by
  obtain ⟨front, rest, defect, body, cut, covers, starts, rfl⟩ :=
    covers_of_rejected lexed rejected
  have whole : source.toList = [] ++ front ++ rest := cut
  have start : (Rejection.ofDefect defect (Text.byteLength (front ++ body))
      (Text.byteLength front)).literal.start = Text.byteLength front := defect.literal_start _
  obtain ⟨kept, alone, _⟩ := covers.cut
  have earlier := Lexeme.runFrom_covers alone
  rw [List.append_nil, Lexeme.runFrom_nil] at earlier
  refine ⟨starts.accurate cut, ?_, String.ofList front, _, ?_, lex_ofList suffixes front, ?_⟩
  · rw [start]
    exact covers.partition whole rfl
  · rw [start]
    exact Text.slice_cut whole
  · rw [earlier]
    rfl

/-- A quotation that stays open since its second quote is escaped, behind a run that was cut. -/
theorem lex_rejection_escaped : ∃ run,
    lex .standard "é: \x27a\x5c\x27 b" = .ok run ∧
      run.result = .error ⟨.unclosedQuote '\x27', 10, .quotation 4⟩ ∧
      Rejection.Accurate "é: \x27a\x5c\x27 b" ⟨.unclosedQuote '\x27', 10, .quotation 4⟩ ∧
      Token.texts run.tokens = ["é", ":"] ∧
      Token.Partition "é: \x27a\x5c\x27 b" 0 4 run.tokens := by
  have lexed : lex .standard "é: \x27a\x5c\x27 b" = .ok
      ⟨[⟨"é", 0, .plainHead⟩, ⟨":", 2, .plainTail⟩],
        some ⟨.unclosedQuote '\x27', 10, .quotation 4⟩⟩ := by decide +kernel
  obtain ⟨accurate, partition, _⟩ := lex_rejection lexed rfl
  exact ⟨_, lexed, rfl, accurate, rfl, partition⟩

end ExprLexer
