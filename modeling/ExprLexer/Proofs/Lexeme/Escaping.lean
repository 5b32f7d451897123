/-
This file compares two ways to find the closing quote. Counting the escapes before each quote finds
the same one as a pass over all characters that remembers whether the next one is escaped.
-/

import ExprLexer.Proofs.Lexeme.Quotation
import ExprLexer.Text.Bytes

namespace ExprLexer.Lexeme

/-- The offset of the first quote that is not escaped, in characters that start at an offset. The
flag says whether the first of them is escaped, and only an escape that is not escaped itself sets
it. -/
def unescapedQuote? (quote : Char) (offset : Nat) (escaped : Bool) : List Char → Option Nat
  | [] => none
  | c :: rest =>
      if c = quote ∧ escaped = false then
        some offset
      else
        unescapedQuote? quote (offset + c.utf8Size) (!escaped && decide (c ∈ Category.escape)) rest

variable {quote : Char} {offset place : Nat} {before cs : List Char}

/-- The flag tells whether an odd number of escapes stands right before the list, so both ways find
the same quote. -/
theorem unescapedQuote?_eq (quote : Char) (offset : Nat) (before cs : List Char) :
    unescapedQuote? quote offset (decide (escapesBefore before % 2 = 1)) cs =
      (closeQuote quote (escapesBefore before) cs).map
        fun parts => offset + Text.byteLength parts.1.dropLast := by
  induction cs generalizing offset before with
  | nil => rfl
  | cons c rest inductionHypothesis =>
      have parity : ¬ escapesBefore before % 2 = 1 ↔ escapesBefore before % 2 = 0 := by omega
      have flag : (!decide (escapesBefore before % 2 = 1) && decide (c ∈ Category.escape)) =
          decide (escapesBefore (before ++ [c]) % 2 = 1) := by
        rw [escapesBefore_concat]
        split
        · next escape =>
            rw [decide_eq_true escape, Bool.and_true, ← decide_not, decide_eq_decide]
            omega
        · next other => simp [other]
      rw [unescapedQuote?, closeQuote_cons, flag, inductionHypothesis]
      simp only [decide_eq_false_iff_not, parity]
      split
      · rfl
      · rw [Option.map_map]
        apply Option.map_congr
        intro parts found
        obtain ⟨inner, _, body, _⟩ := (closeQuote_eq_some_iff _).mp found
        rw [Function.comp_apply, body, ← List.cons_append, List.dropLast_concat,
          List.dropLast_concat, Text.byteLength_cons, Nat.add_assoc]

/-- The pass stops at the quote behind a list that stays open, if an even number of escapes stands
right before that quote. -/
theorem unescapedQuote?_eq_some_iff :
    unescapedQuote? quote offset (decide (escapesBefore before % 2 = 1)) cs = some place ↔
      ∃ inner after, cs = inner ++ quote :: after ∧
        closeQuote quote (escapesBefore before) inner = none ∧
        escapesBefore (before ++ inner) % 2 = 0 ∧ place = offset + Text.byteLength inner := by
  rw [unescapedQuote?_eq, Option.map_eq_some_iff]
  constructor
  · rintro ⟨parts, closed, rfl⟩
    obtain ⟨inner, cut, body, opened, even⟩ := (closeQuote_eq_some_iff before).mp closed
    exact ⟨inner, parts.2, cut, opened, even, by rw [body, List.dropLast_concat]⟩
  · rintro ⟨inner, after, cut, opened, even, rfl⟩
    have closed : closeQuote quote (escapesBefore before) cs = some (inner ++ [quote], after) :=
      (closeQuote_eq_some_iff before).mpr ⟨inner, cut, rfl, opened, even⟩
    exact ⟨_, closed, by rw [List.dropLast_concat]⟩

/-- The pass finds nothing in a list that stays open. -/
theorem unescapedQuote?_eq_none_iff :
    unescapedQuote? quote offset (decide (escapesBefore before % 2 = 1)) cs = none ↔
      closeQuote quote (escapesBefore before) cs = none := by
  rw [unescapedQuote?_eq, Option.map_eq_none_iff]

end ExprLexer.Lexeme
