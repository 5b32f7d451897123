/-
This file exchanges the characters that no category holds. They all look the same to the lexer, so
the lexemes of a text stay the same, and so do its malformed literals.
-/

import ExprLexer.Proofs.Lexeme.Extent
import Mathlib.Logic.Equiv.Basic

namespace ExprLexer

/-- No category holds a bare character, and it names no radix. -/
def Bare (c : Char) : Prop := Category.holding c = [] ∧ Radix.named? c = none

instance (c : Char) : Decidable (Bare c) := inferInstanceAs (Decidable (_ ∧ _))

theorem Bare.not_mem {c : Char} (bare : Bare c) (category : Category) : c ∉ category := by
  have everywhere : category ∈ Category.all := by cases category <;> decide
  simpa using List.filter_eq_nil_iff.mp bare.1 category everywhere

/-- A recoding exchanges bare characters for bare characters and leaves all others as they are.
Different characters stay different. -/
structure Recoding where
  map : Char → Char
  injective : Function.Injective map
  fixes : ∀ c, ¬ Bare c → map c = c
  bare : ∀ c, Bare c → Bare (map c)

namespace Recoding

/-- Two bare characters change places. -/
def swap {first second : Char} (firstBare : Bare first) (secondBare : Bare second) : Recoding where
  map := Equiv.swap first second
  injective := (Equiv.swap first second).injective
  fixes c other := by
    apply Equiv.swap_apply_of_ne_of_ne
    · rintro rfl
      exact other firstBare
    · rintro rfl
      exact other secondBare
  bare c bare := by
    rw [Equiv.swap_apply_def]
    split
    · exact secondBare
    · split
      · exact firstBare
      · exact bare

variable (recoding : Recoding) {c : Char} {category : Category}

/-- A defect names the recoded character. -/
def defect : Defect → Defect
  | .repeatedExponent marker => .repeatedExponent (recoding.map marker)
  | .strayExponent found => .strayExponent (recoding.map found)
  | .missingExponent => .missingExponent
  | .unclosedQuote quote => .unclosedQuote (recoding.map quote)

theorem map_of_mem (inside : c ∈ category) : recoding.map c = c :=
  recoding.fixes c fun bare => bare.not_mem category inside

@[simp] theorem map_mem_iff : recoding.map c ∈ category ↔ c ∈ category := by
  by_cases bare : Bare c
  · exact iff_of_false ((recoding.bare c bare).not_mem category) (bare.not_mem category)
  · rw [recoding.fixes c bare]

@[simp] theorem named?_map (c : Char) : Radix.named? (recoding.map c) = Radix.named? c := by
  by_cases bare : Bare c
  · rw [(recoding.bare c bare).2, bare.2]
  · rw [recoding.fixes c bare]

theorem map_indicator (radix : Radix) : recoding.map radix.indicator = radix.indicator := by
  apply recoding.fixes
  intro bare
  have named := Radix.named?_eq_some_iff.mpr (rfl : radix.indicator = radix.indicator)
  rw [bare.2] at named
  cases named

theorem map_leader : Radix.leader.toList.map recoding.map = Radix.leader.toList :=
  congrArg (· :: []) (recoding.map_of_mem (by decide : '0' ∈ Category.numberBody))

@[simp] theorem isPlain_map_iff : Lexeme.IsPlain (recoding.map c) ↔ Lexeme.IsPlain c := by
  simp [Lexeme.IsPlain]

end Recoding

namespace Lexeme

variable (recoding : Recoding) {cs body rest digits : List Char} {quote : Char}
  {origin : Token.Origin} {radix : Radix} {defect : Defect} {next : Option Char}

theorem mem_recode {category : Category} (inside : ∀ c ∈ digits, c ∈ category) :
    ∀ c ∈ digits.map recoding.map, c ∈ category :=
  List.forall_mem_map.mpr fun c member => recoding.map_mem_iff.mpr (inside c member)

theorem IsDigits.recode (shape : IsDigits body) : IsDigits (body.map recoding.map) :=
  ⟨by simpa using shape.nonempty, mem_recode recoding shape.inside⟩

theorem IsMarked.recode (shape : IsMarked body) : IsMarked (body.map recoding.map) := by
  obtain ⟨digits, marker, digitShape, marks, rfl⟩ := shape
  exact ⟨_, _, digitShape.recode recoding, recoding.map_mem_iff.mpr marks, List.map_append⟩

theorem IsScaled.recode (shape : IsScaled body) : IsScaled (body.map recoding.map) := by
  obtain ⟨marked, sign, digits, markedShape, signs, inside, rfl⟩ := shape
  have signs : recoding.map sign ∈ Category.numberBody ∨
      recoding.map sign ∈ Category.exponentSign := by simpa using signs
  exact ⟨_, _, _, markedShape.recode recoding, signs, mem_recode recoding inside, List.map_append⟩

theorem IsBased.recode (shape : IsBased radix body) : IsBased radix (body.map recoding.map) := by
  obtain ⟨digits, inside, rfl⟩ := shape
  have zero : recoding.map '0' = '0' := recoding.map_of_mem (by decide : _ ∈ Category.numberBody)
  refine ⟨digits.map recoding.map, mem_recode recoding inside, ?_⟩
  rw [List.map_cons, List.map_cons, zero, recoding.map_indicator]

theorem IsPlainRun.recode (shape : IsPlainRun body) : IsPlainRun (body.map recoding.map) := by
  obtain ⟨c, more, rfl, notQuote, inside⟩ := shape
  have plain : ∀ d ∈ (c :: more).map recoding.map, IsPlain d :=
    List.forall_mem_map.mpr fun d member => recoding.isPlain_map_iff.mpr (inside d member)
  exact ⟨_, _, List.map_cons, by simpa using notQuote, plain⟩

theorem escapesBefore_recode (cs : List Char) :
    escapesBefore (cs.map recoding.map) = escapesBefore cs := by
  induction cs using List.reverseRecOn with
  | nil => rfl
  | append_singleton cs c inductionHypothesis =>
      rw [List.map_append, List.map_singleton, escapesBefore_concat, escapesBefore_concat,
        inductionHypothesis]
      simp

/-- The search for the closing quote goes past the same characters. -/
theorem closeQuote_recode (quote : Char) (escapes : Nat) (cs : List Char) :
    closeQuote (recoding.map quote) escapes (cs.map recoding.map) =
      (closeQuote quote escapes cs).map
        fun parts => (parts.1.map recoding.map, parts.2.map recoding.map) := by
  induction cs generalizing escapes with
  | nil => rfl
  | cons c rest inductionHypothesis =>
      simp only [List.map_cons, closeQuote, recoding.injective.eq_iff, recoding.map_mem_iff,
        inductionHypothesis]
      split <;> simp [Function.comp_def]

theorem IsOpen.recode (shape : IsOpen quote body) :
    IsOpen (recoding.map quote) (body.map recoding.map) := by
  obtain ⟨inner, rfl, quotes, opened⟩ := shape
  refine ⟨inner.map recoding.map, List.map_cons, recoding.map_mem_iff.mpr quotes, ?_⟩
  rw [closeQuote_recode, opened]
  rfl

theorem Shape.recode (shape : Shape body origin) : Shape (body.map recoding.map) origin := by
  cases origin with
  | delimiter =>
      obtain ⟨c, delimits, rfl⟩ := shape
      exact ⟨c, delimits, congrArg (· :: []) (recoding.map_of_mem delimits)⟩
  | decimal => exact shape.imp (IsDigits.recode recoding) (IsScaled.recode recoding)
  | based radix => exact IsBased.recode recoding shape
  | quotation quote =>
      obtain ⟨opened, isOpen, even, rfl⟩ := shape
      have same := recoding.map_of_mem isOpen.quotes
      have again := isOpen.recode recoding
      rw [same] at again
      refine ⟨opened.map recoding.map, again, ?_, ?_⟩
      · rwa [escapesBefore_recode]
      · rw [List.map_append, List.map_singleton, same]
  | plain => exact IsPlainRun.recode recoding shape
  | plainHead => exact shape.elim
  | plainTail => exact shape.elim

theorem Stops.recode (stops : Stops body next origin) :
    Stops (body.map recoding.map) (next.map recoding.map) origin := by
  cases origin with
  | delimiter => trivial
  | decimal =>
      obtain ⟨stop, unnamed⟩ := stops
      refine ⟨by simpa using stop, fun leads => ?_⟩
      rw [← recoding.map_leader, List.map_inj_right recoding.injective] at leads
      simpa using unnamed leads
  | based radix => simpa [Stops] using stops
  | quotation quote => trivial
  | plain => simpa [Stops] using stops
  | plainHead => exact stops.elim
  | plainTail => exact stops.elim

theorem Flaw.recode (flaw : Flaw body next defect) :
    Flaw (body.map recoding.map) (next.map recoding.map) (recoding.defect defect) := by
  cases defect with
  | repeatedExponent marker =>
      obtain ⟨scaled, rfl, marks⟩ := flaw
      exact ⟨scaled.recode recoding, rfl, recoding.map_mem_iff.mpr marks⟩
  | strayExponent found =>
      obtain ⟨marked, rfl, stray⟩ := flaw
      exact ⟨marked.recode recoding, rfl, by simpa using stray⟩
  | missingExponent =>
      obtain ⟨marked, rfl⟩ := flaw
      exact ⟨marked.recode recoding, rfl⟩
  | unclosedQuote quote =>
      obtain ⟨opened, rfl⟩ := flaw
      exact ⟨opened.recode recoding, rfl⟩

/-- The recoded text starts with the recoded lexeme. -/
theorem Starts.recode (starts : Starts (body ++ rest) (.whole origin body rest)) :
    Starts (body.map recoding.map ++ rest.map recoding.map)
      (.whole origin (body.map recoding.map) (rest.map recoding.map)) := by
  rw [starts_whole_iff] at starts ⊢
  rw [List.head?_map]
  exact ⟨starts.1.recode recoding, starts.2.recode recoding⟩

/-- The recoded text starts with the same malformed literal. -/
theorem Starts.recode_broken (starts : Starts cs (.broken defect body)) :
    Starts (cs.map recoding.map) (.broken (recoding.defect defect) (body.map recoding.map)) := by
  rw [starts_broken_iff] at starts ⊢
  obtain ⟨rest, rfl, flaw⟩ := starts
  refine ⟨rest.map recoding.map, List.map_append, ?_⟩
  rw [List.head?_map]
  exact flaw.recode recoding

end Lexeme

end ExprLexer
