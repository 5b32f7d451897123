/-
This file says what the first lexeme of a text is, for each shape that the characters of a lexeme
can have. A text that starts with such characters has them as its lexeme if nothing after them
goes on.
-/

import ExprLexer.Proofs.Category
import ExprLexer.Proofs.Lexeme.Quotation

namespace ExprLexer.Lexeme

variable {cs body digits rest : List Char} {c : Char} {lexeme : Lexeme} {radix : Radix}

/-- A text starts with a lexeme that is neither empty nor blank. -/
def Starts (cs : List Char) (lexeme : Lexeme) : Prop :=
  ∃ c rest, cs = c :: rest ∧ c ∉ Category.whitespace ∧ read c rest = lexeme

theorem Starts.ne_nil (starts : Starts cs lexeme) : cs ≠ [] := by
  obtain ⟨c, rest, rfl, _⟩ := starts
  exact List.cons_ne_nil c rest

/-- These are one or more characters of a numeral without an exponent. -/
structure IsDigits (body : List Char) : Prop where
  nonempty : body ≠ []
  inside : ∀ c ∈ body, c ∈ Category.numberBody

/-- These are the digits of a numeral and its exponent marker. -/
def IsMarked (body : List Char) : Prop :=
  ∃ digits marker, IsDigits digits ∧ marker ∈ Category.exponent ∧ body = digits ++ [marker]

/-- These are a numeral up to its exponent marker and the exponent. -/
def IsScaled (body : List Char) : Prop :=
  ∃ marked sign digits, IsMarked marked ∧
    (sign ∈ Category.numberBody ∨ sign ∈ Category.exponentSign) ∧
    (∀ c ∈ digits, c ∈ Category.numberBody) ∧ body = marked ++ sign :: digits

/-- These are a numeral that names its radix. -/
def IsBased (radix : Radix) (body : List Char) : Prop :=
  ∃ digits, (∀ c ∈ digits, c ∈ radix.digits) ∧ body = '0' :: radix.indicator :: digits

/-- These are one or more plain characters of which the first is no quote. -/
def IsPlainRun (body : List Char) : Prop :=
  ∃ c rest, body = c :: rest ∧ c ∉ Category.quote ∧ ∀ d ∈ body, IsPlain d

/-- These are a quotation that is not closed yet. -/
def IsOpen (quote : Char) (body : List Char) : Prop :=
  ∃ inner, body = quote :: inner ∧ quote ∈ Category.quote ∧ closeQuote quote 0 inner = none

/-- The characters of a category end where a character outside it follows. -/
theorem span_digits {category : Category} (inside : ∀ c ∈ digits, c ∈ category)
    (stop : ∀ c ∈ rest.head?, c ∉ category) :
    (digits ++ rest).takeWhile (· ∈ category) = digits ∧
      (digits ++ rest).dropWhile (· ∈ category) = rest := by
  have inside : ∀ c ∈ digits, decide (c ∈ category) = true := by simpa using inside
  rw [List.takeWhile_append_of_pos inside, List.dropWhile_append_of_pos inside]
  cases rest with
  | nil => simp
  | cons c rest =>
      have outside : c ∉ category := stop c rfl
      simp [outside]

theorem IsDigits.head (shape : IsDigits digits) :
    ∃ c more, digits = c :: more ∧ c ∈ Category.numberBody := by
  obtain ⟨c, more, same⟩ := List.exists_cons_of_ne_nil shape.nonempty
  exact ⟨c, more, same, shape.inside c (by simp [same])⟩

theorem IsDigits.concat (shape : IsDigits body) (number : c ∈ Category.numberBody) :
    IsDigits (body ++ [c]) :=
  ⟨by simp, List.forall_mem_append.mpr ⟨shape.inside, List.forall_mem_singleton.mpr number⟩⟩

theorem IsScaled.concat (shape : IsScaled body) (number : c ∈ Category.numberBody) :
    IsScaled (body ++ [c]) := by
  obtain ⟨marked, sign, digits, markedShape, signs, inside, same⟩ := shape
  have longer := List.forall_mem_append.mpr ⟨inside, List.forall_mem_singleton.mpr number⟩
  exact ⟨marked, sign, digits ++ [c], markedShape, signs, longer, by simp [same]⟩

theorem IsBased.concat (shape : IsBased radix body) (digit : c ∈ radix.digits) :
    IsBased radix (body ++ [c]) := by
  obtain ⟨digits, inside, same⟩ := shape
  have longer := List.forall_mem_append.mpr ⟨inside, List.forall_mem_singleton.mpr digit⟩
  exact ⟨digits ++ [c], longer, by simp [same]⟩

theorem IsPlainRun.concat (shape : IsPlainRun body) (plain : IsPlain c) :
    IsPlainRun (body ++ [c]) := by
  obtain ⟨d, more, same, notQuote, inside⟩ := shape
  have longer := List.forall_mem_append.mpr ⟨inside, List.forall_mem_singleton.mpr plain⟩
  exact ⟨d, more ++ [c], by simp [same], notQuote, longer⟩

theorem IsOpen.quotes {quote : Char} (shape : IsOpen quote body) : quote ∈ Category.quote := by
  obtain ⟨inner, _, quotes, _⟩ := shape
  exact quotes

theorem IsOpen.escapesBefore {quote : Char} {inner : List Char} (quotes : quote ∈ Category.quote) :
    escapesBefore (quote :: inner) = escapesBefore inner :=
  escapesBefore_cons
    (Category.Apart.not_mem (by decide : Category.Apart .quote .escape) quotes) inner

/-- A quotation stays open over characters that do not close it. -/
theorem IsOpen.append {quote : Char} {more : List Char} (shape : IsOpen quote body)
    (opened : closeQuote quote (Lexeme.escapesBefore body) more = none) :
    IsOpen quote (body ++ more) := by
  obtain ⟨inner, same, quotes, before⟩ := shape
  rw [same, IsOpen.escapesBefore quotes] at opened
  have whole : closeQuote quote (Lexeme.escapesBefore []) (inner ++ more) = none := by
    rw [closeQuote_continue before, List.nil_append, opened]
    rfl
  exact ⟨inner ++ more, by simp [same], quotes, whole⟩

/-- A numeral is read by its radix, or as a decimal one if it names none. -/
theorem starts_numeral (first : c ∈ Category.numberBody) (rest : List Char) :
    Starts (c :: rest) ((radix? (c :: rest)).elim (ofDecimal (c :: rest))
      fun radix => ofBased radix (c :: rest)) := by
  have notBlank := Category.Apart.not_mem (by decide : Category.Apart .numberBody .whitespace) first
  have notStructural :=
    Category.Apart.not_mem (by decide : Category.Apart .numberBody .structural) first
  have notQuote := Category.Apart.not_mem (by decide : Category.Apart .numberBody .quote) first
  have found : read c rest = (radix? (c :: rest)).elim (ofDecimal (c :: rest))
      fun radix => ofBased radix (c :: rest) := by
    rw [read, if_neg notStructural, if_neg notQuote, if_pos first]
    cases radix? (c :: rest) <;> rfl
  exact ⟨c, rest, rfl, notBlank, found⟩

/-- Digits name a radix only if they are the leader and the indicator follows. -/
theorem radix?_digits (shape : IsDigits digits) :
    radix? (digits ++ rest) =
      if digits = Radix.leader.toList then rest.head?.bind Radix.named? else none := by
  obtain ⟨c, more, same, first⟩ := shape.head
  subst same
  have leader : Radix.leader.toList = ['0'] := rfl
  cases more with
  | nil => cases rest <;> simp [radix?]
  | cons d more =>
      have second : d ∈ Category.numberBody := shape.inside d (by simp)
      have unnamed : Radix.named? d = none :=
        Radix.named?_eq_none (fun radix => radix.indicator_not_numberBody) second
      simp [radix?, unnamed, leader]

/-- Digits that name no radix start a decimal numeral. -/
theorem starts_decimal (shape : IsDigits digits)
    (unnamed : digits = Radix.leader.toList → rest.head?.bind Radix.named? = none) :
    Starts (digits ++ rest) (ofDecimal (digits ++ rest)) := by
  have noRadix : radix? (digits ++ rest) = none := by
    rw [radix?_digits shape]
    split
    · next leads => exact unnamed leads
    · rfl
  obtain ⟨c, more, same, first⟩ := shape.head
  subst same
  have starts := starts_numeral first (more ++ rest)
  rw [← List.cons_append, noRadix] at starts
  exact starts

theorem starts_digits (shape : IsDigits digits)
    (unnamed : digits = Radix.leader.toList → rest.head?.bind Radix.named? = none)
    (stop : ∀ c ∈ rest.head?, c ∉ Category.numberBody ∧ c ∉ Category.exponent) :
    Starts (digits ++ rest) (.whole .decimal digits rest) := by
  have starts := starts_decimal shape unnamed
  obtain ⟨taken, dropped⟩ := span_digits shape.inside fun c head => (stop c head).1
  rw [ofDecimal, taken, dropped] at starts
  cases rest with
  | nil => exact starts
  | cons c rest => simpa only [(stop c rfl).2, if_false] using starts

/-- After an exponent marker the exponent decides. -/
theorem starts_marked (shape : IsMarked body) (rest : List Char) :
    Starts (body ++ rest) (ofExponent body rest) := by
  obtain ⟨digits, marker, digitShape, marks, same⟩ := shape
  have outside := Category.Apart.not_mem (by decide : Category.Apart .exponent .numberBody) marks
  have unnamed : Radix.named? marker = none :=
    Radix.named?_eq_none (fun radix => radix.indicator_not_exponent) marks
  have stop : ∀ c ∈ (marker :: rest).head?, c ∉ Category.numberBody := by simpa using outside
  have starts : Starts (digits ++ marker :: rest) (ofDecimal (digits ++ marker :: rest)) :=
    starts_decimal digitShape fun _ => unnamed
  obtain ⟨taken, dropped⟩ := span_digits digitShape.inside stop
  rw [ofDecimal, taken, dropped] at starts
  simpa only [same, marks, if_true, List.append_assoc, List.singleton_append] using starts

theorem starts_missing (shape : IsMarked body) : Starts body (.broken .missingExponent body) := by
  simpa [ofExponent] using starts_marked shape []

theorem starts_stray (shape : IsMarked body)
    (stray : ¬ (c ∈ Category.numberBody ∨ c ∈ Category.exponentSign)) :
    Starts (body ++ c :: rest) (.broken (.strayExponent c) body) := by
  have starts := starts_marked shape (c :: rest)
  rwa [ofExponent, if_neg stray] at starts

theorem starts_scaled (shape : IsScaled body)
    (stop : ∀ c ∈ rest.head?, c ∉ Category.numberBody ∧ c ∉ Category.exponent) :
    Starts (body ++ rest) (.whole .decimal body rest) := by
  obtain ⟨marked, sign, digits, markedShape, signs, inside, same⟩ := shape
  have starts := starts_marked markedShape (sign :: (digits ++ rest))
  obtain ⟨taken, dropped⟩ := span_digits inside fun c head => (stop c head).1
  rw [ofExponent, if_pos signs, taken, dropped] at starts
  rw [same, List.append_assoc, List.cons_append]
  cases rest with
  | nil => exact starts
  | cons c rest => simpa only [(stop c rfl).2, if_false] using starts

theorem starts_repeated (shape : IsScaled body) (marks : c ∈ Category.exponent) :
    Starts (body ++ c :: rest) (.broken (.repeatedExponent c) body) := by
  obtain ⟨marked, sign, digits, markedShape, signs, inside, same⟩ := shape
  have outside := Category.Apart.not_mem (by decide : Category.Apart .exponent .numberBody) marks
  have stop : ∀ d ∈ (c :: rest).head?, d ∉ Category.numberBody := by simpa using outside
  have starts := starts_marked markedShape (sign :: (digits ++ c :: rest))
  obtain ⟨taken, dropped⟩ := span_digits inside stop
  rw [ofExponent, if_pos signs, taken, dropped] at starts
  rw [same, List.append_assoc, List.cons_append]
  simpa only [marks, if_true] using starts

theorem starts_based (shape : IsBased radix body) (stop : ∀ c ∈ rest.head?, c ∉ radix.digits) :
    Starts (body ++ rest) (.whole (.based radix) body rest) := by
  obtain ⟨digits, inside, same⟩ := shape
  have named : radix? ('0' :: radix.indicator :: (digits ++ rest)) = some radix :=
    Radix.named?_eq_some_iff.mpr rfl
  have starts := starts_numeral (by decide : '0' ∈ Category.numberBody)
    (radix.indicator :: (digits ++ rest))
  obtain ⟨taken, dropped⟩ := span_digits inside stop
  rw [named, Option.elim_some, ofBased] at starts
  rw [same]
  simpa only [List.take_succ_cons, List.take_zero, List.drop_succ_cons, List.drop_zero, taken,
    dropped, List.cons_append, List.nil_append] using starts

theorem starts_delimiter (delimits : c ∈ Category.structural) :
    Starts ([c] ++ rest) (.whole .delimiter [c] rest) := by
  have notBlank :=
    Category.Apart.not_mem (by decide : Category.Apart .structural .whitespace) delimits
  exact ⟨c, rest, rfl, notBlank, if_pos delimits⟩

theorem starts_plain (shape : IsPlainRun body) (stop : ∀ c ∈ rest.head?, ¬ IsPlain c) :
    Starts (body ++ rest) (.whole .plain body rest) := by
  obtain ⟨c, more, same, notQuote, inside⟩ := shape
  subst same
  obtain ⟨notBlank, notStructural, notNumber⟩ := inside c (by simp)
  have inside : ∀ d ∈ more, decide (IsPlain d) = true := fun d member =>
    decide_eq_true (inside d (List.mem_cons_of_mem c member))
  have found : read c (more ++ rest) = .whole .plain (c :: more) rest := by
    rw [read, if_neg notStructural, if_neg notQuote, if_neg notNumber, ofPlain,
      List.takeWhile_append_of_pos inside, List.dropWhile_append_of_pos inside]
    cases rest with
    | nil => simp
    | cons d rest =>
        have outside : ¬ IsPlain d := stop d rfl
        simp [outside]
  exact ⟨c, more ++ rest, rfl, notBlank, found⟩

/-- A quote starts a quotation. -/
theorem starts_quote (quotes : c ∈ Category.quote) (rest : List Char) :
    Starts (c :: rest) (ofQuotation c rest) := by
  have notBlank := Category.Apart.not_mem (by decide : Category.Apart .quote .whitespace) quotes
  have notStructural :=
    Category.Apart.not_mem (by decide : Category.Apart .quote .structural) quotes
  have found : read c rest = ofQuotation c rest := by
    rw [read, if_neg notStructural, if_pos quotes]
  exact ⟨c, rest, rfl, notBlank, found⟩

theorem starts_quotation {quote : Char} (shape : IsOpen quote body)
    (even : escapesBefore body % 2 = 0) :
    Starts (body ++ quote :: rest) (.whole (.quotation quote) (body ++ [quote]) rest) := by
  obtain ⟨inner, same, quotes, opened⟩ := shape
  have notEscape := Category.Apart.not_mem (by decide : Category.Apart .quote .escape) quotes
  rw [same, escapesBefore_cons notEscape] at even
  have starts := starts_quote quotes (inner ++ quote :: rest)
  have closed : closeQuote quote 0 (inner ++ quote :: rest) = some (inner ++ [quote], rest) :=
    (closeQuote_eq_some_iff []).mpr ⟨inner, rfl, rfl, opened, even⟩
  rw [ofQuotation, closed] at starts
  rwa [same]

theorem starts_unclosed {quote : Char} (shape : IsOpen quote body) :
    Starts body (.broken (.unclosedQuote quote) body) := by
  obtain ⟨inner, same, quotes, opened⟩ := shape
  have starts := starts_quote quotes inner
  rw [ofQuotation, opened] at starts
  rwa [same]

end ExprLexer.Lexeme
