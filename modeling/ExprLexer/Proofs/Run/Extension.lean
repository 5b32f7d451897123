/-
This file shows that a run settles its tokens as it goes. When the source goes on, the tokens but
for the last one stay, and so does a defect that shows before the end.
-/

import ExprLexer.Proofs.Lexeme.Locality
import ExprLexer.Proofs.Run.Basic

namespace ExprLexer

/-- These defects show only because the source ends. -/
def Defect.AtEnd : Defect → Prop
  | .repeatedExponent _ => False
  | .strayExponent _ => False
  | .missingExponent => True
  | .unclosedQuote _ => True

namespace Lexeme

variable {suffixes : Suffixes} {start : Nat} {cs front rest body : List Char} {defect : Defect}
  {given : List Token}

/-- The tokens of a text but for the last one stay if the text goes on. -/
theorem Covers.settled (covers : Covers suffixes start front [] given) (more : List Char) :
    given.dropLast <+: (runFrom suffixes start (front ++ more)).tokens := by
  refine covers.whole_induction ?done ?blank ?last ?lexeme
  case done => exact fun _ => List.nil_prefix
  case blank =>
    intro start c front given blank inductionHypothesis
    rw [List.cons_append, runFrom_blank blank]
    exact inductionHypothesis
  case last => exact fun _ _ _ _ => List.nil_prefix
  case lexeme =>
    intro start origin body front given some starts inductionHypothesis
    have next : front.head? = (front ++ more).head? := (List.head?_append_of_ne_nil _ some).symm
    rw [tokens_congr_head suffixes start origin body next, List.append_assoc,
      runFrom_whole (starts.congr_head next)]
    cases given with
    | nil =>
        rw [List.append_nil]
        exact (List.dropLast_prefix _).trans (List.prefix_append _ _)
    | cons token given =>
        rw [List.dropLast_append_of_ne_nil (List.cons_ne_nil token given)]
        exact (List.prefix_append_right_inj _).mpr inductionHypothesis

/-- The lexemes before a text that is not empty stay if the text goes on. -/
theorem Covers.extend (covers : Covers suffixes start front rest given) (some : rest ≠ [])
    (more : List Char) : runFrom suffixes start (front ++ (rest ++ more)) =
      (runFrom suffixes (start + Text.byteLength front) (rest ++ more)).prepend given :=
  runFrom_covers (covers.append_rest some more)

/-- A defect that shows before the end stays if the text goes on. -/
theorem Starts.extend (starts : Starts cs (.broken defect body)) (early : ¬ defect.AtEnd)
    (more : List Char) : Starts (cs ++ more) (.broken defect body) := by
  obtain ⟨rest, rfl, flaw⟩ := starts_broken_iff.mp starts
  -- Such a defect is seen at a character, and that one is still the next if the text goes on.
  have some : rest ≠ [] := by
    rintro rfl
    cases defect with
    | repeatedExponent marker => cases flaw.2.1
    | strayExponent found => cases flaw.2.1
    | missingExponent => exact early trivial
    | unclosedQuote quote => exact early trivial
  rw [List.append_assoc]
  apply Flaw.starts
  rwa [List.head?_append_of_ne_nil rest some]

end Lexeme

/-- What a run has settled stays if its source goes on. An accepted source keeps all tokens but the
last one, and a source that ends too early keeps all that were emitted. Any other rejection stays as
it is. -/
theorem lex_extend (suffixes : Suffixes) (front back : String) :
    ∃ first joined, lex suffixes front = .ok first ∧ lex suffixes (front ++ back) = .ok joined ∧
      (∀ tokens, first.result = .ok tokens → tokens.dropLast <+: joined.tokens) ∧
      ∀ rejection, first.result = .error rejection →
        (rejection.defect.AtEnd → first.tokens <+: joined.tokens) ∧
        (¬ rejection.defect.AtEnd →
          joined.result = .error rejection ∧ joined.tokens = first.tokens) := by
  have lexed : lex suffixes front = _ := lex_eq_ok_iff.mpr rfl
  refine ⟨_, _, lexed, lex_eq_ok_iff.mpr rfl, ?_, ?_⟩
  · intro tokens accepted
    rw [String.toList_append]
    exact (covers_of_accepted lexed accepted).settled back.toList
  · intro rejection rejected
    obtain ⟨covered, rest, defect, body, cut, covers, starts, rfl⟩ :=
      covers_of_rejected lexed rejected
    have joined : Lexeme.runFrom suffixes 0 (front ++ back).toList =
        (Lexeme.runFrom suffixes (Text.byteLength covered) (rest ++ back.toList)).prepend
          (Lexeme.runFrom suffixes 0 front.toList).tokens := by
      rw [String.toList_append, ← Nat.zero_add (Text.byteLength covered),
        ← covers.extend starts.ne_nil, ← List.append_assoc, ← cut]
    rw [joined]
    refine ⟨fun _ => List.prefix_append _ _, fun early => ?_⟩
    rw [Lexeme.runFrom_broken (starts.extend early back.toList), Text.byteLength_append]
    exact ⟨rfl, List.append_nil _⟩

/-- The last token of an accepted source can lose its suffix if the source goes on. -/
example : lex .standard "a:" = .ok ⟨[⟨"a:", 0, .plain⟩], none⟩ ∧
    lex .standard ("a:" ++ " ") = .ok ⟨[⟨"a", 0, .plainHead⟩, ⟨":", 1, .plainTail⟩], none⟩ := by
  decide +kernel

end ExprLexer
