/-
This file says which quote closes a quotation. It is the first one that has an even number of
escapes right before it.
-/

import ExprLexer.Lexeme.Basic
import Mathlib.Data.List.DropRight

namespace ExprLexer.Lexeme

/-- The number of escapes right before the end of a text. -/
def escapesBefore (before : List Char) : Nat :=
  (before.rtakeWhile (· ∈ Category.escape)).length

theorem escapesBefore_concat (before : List Char) (c : Char) :
    escapesBefore (before ++ [c]) =
      if c ∈ Category.escape then escapesBefore before + 1 else 0 := by
  rw [escapesBefore, List.rtakeWhile_concat]
  by_cases escape : c ∈ Category.escape
  · simp [escape, escapesBefore]
  · simp [escape]

/-- A character that stands between a text and its escapes hides what is before it. -/
theorem escapesBefore_append {c : Char} (other : c ∉ Category.escape) (front before : List Char) :
    escapesBefore (front ++ c :: before) = escapesBefore before := by
  induction before using List.reverseRecOn with
  | nil => exact (escapesBefore_concat front c).trans (if_neg other)
  | append_singleton before d inductionHypothesis =>
      rw [← List.cons_append, ← List.append_assoc, escapesBefore_concat, escapesBefore_concat,
        inductionHypothesis]

theorem escapesBefore_cons {c : Char} (other : c ∉ Category.escape) (before : List Char) :
    escapesBefore (c :: before) = escapesBefore before :=
  escapesBefore_append other [] before

variable {quote : Char} {before inner rest cs : List Char}

/-- One step of the search, for a text that stands before the list. -/
theorem closeQuote_cons (quote c : Char) (before rest : List Char) :
    closeQuote quote (escapesBefore before) (c :: rest) =
      if c = quote ∧ escapesBefore before % 2 = 0 then some ([c], rest)
      else (closeQuote quote (escapesBefore (before ++ [c])) rest).map
        fun parts => (c :: parts.1, parts.2) := by
  rw [escapesBefore_concat]
  rfl

/-- A list stays open if every quote in it has an odd number of escapes right before it. -/
theorem closeQuote_eq_none_iff (before : List Char) :
    closeQuote quote (escapesBefore before) cs = none ↔
      ∀ inner rest, cs = inner ++ quote :: rest → escapesBefore (before ++ inner) % 2 = 1 := by
  induction cs generalizing before with
  | nil => simp [closeQuote]
  | cons c rest inductionHypothesis =>
      rw [closeQuote_cons]
      split
      · next closes =>
          obtain ⟨rfl, even⟩ := closes
          constructor
          · exact nofun
          · intro odd
            have first := odd [] rest rfl
            rw [List.append_nil] at first
            omega
      · next goesOn =>
          rw [Option.map_eq_none_iff, inductionHypothesis]
          constructor
          · intro later inner after cut
            cases inner with
            | nil =>
                have same : c = quote := (List.cons.inj cut).1
                rw [List.append_nil]
                have odd : ¬ escapesBefore before % 2 = 0 := fun even => goesOn ⟨same, even⟩
                omega
            | cons d inner =>
                obtain ⟨rfl, tail⟩ := List.cons.inj cut
                simpa using later inner after tail
          · intro all inner after cut
            simpa using all (c :: inner) after (by rw [cut]; rfl)

/-- The search goes on behind a list that stays open. -/
theorem closeQuote_continue
    (opened : closeQuote quote (escapesBefore before) inner = none) :
    closeQuote quote (escapesBefore before) (inner ++ rest) =
      (closeQuote quote (escapesBefore (before ++ inner)) rest).map
        fun parts => (inner ++ parts.1, parts.2) := by
  induction inner generalizing before with
  | nil => simp
  | cons c inner inductionHypothesis =>
      rw [closeQuote_cons] at opened
      split at opened
      · cases opened
      · next goesOn =>
          have later := inductionHypothesis (Option.map_eq_none_iff.mp opened)
          rw [List.cons_append, closeQuote_cons, if_neg goesOn, later, Option.map_map]
          simp [Function.comp_def]

theorem closeQuote_eq_none_of_not_mem (before : List Char) (absent : quote ∉ cs) :
    closeQuote quote (escapesBefore before) cs = none := by
  rw [closeQuote_eq_none_iff]
  intro inner rest cut
  exact absurd (by simp [cut]) absent

/-- The closing quote is the first one with an even number of escapes right before it. -/
theorem closeQuote_eq_some_iff (before : List Char) {parts : List Char × List Char} :
    closeQuote quote (escapesBefore before) cs = some parts ↔
      ∃ inner, cs = inner ++ quote :: parts.2 ∧ parts.1 = inner ++ [quote] ∧
        closeQuote quote (escapesBefore before) inner = none ∧
        escapesBefore (before ++ inner) % 2 = 0 := by
  constructor
  · intro closed
    induction cs generalizing before parts with
    | nil => cases closed
    | cons c rest inductionHypothesis =>
        rw [closeQuote_cons] at closed
        split at closed
        · next closes =>
            obtain ⟨rfl, even⟩ := closes
            cases closed
            exact ⟨[], rfl, rfl, rfl, by simpa using even⟩
        · next goesOn =>
            obtain ⟨later, found, same⟩ := Option.map_eq_some_iff.mp closed
            subst same
            obtain ⟨inner, cut, body, opened, even⟩ := inductionHypothesis _ found
            have longer : closeQuote quote (escapesBefore before) (c :: inner) = none := by
              rw [closeQuote_cons, if_neg goesOn, opened]
              rfl
            exact ⟨c :: inner, by simp [cut], by simp [body], longer, by simpa using even⟩
  · rintro ⟨inner, cut, body, opened, even⟩
    rw [cut, closeQuote_continue opened, closeQuote_cons, if_pos ⟨rfl, even⟩]
    simp [← body]

end ExprLexer.Lexeme
