/-
This file says which texts are numerals. The lexer accepts such a text as one token, and it rejects
a text that begins with a numeral exactly if the exponent of that numeral is malformed.
-/

import ExprLexer.Proofs.Lexeme.Extent
import ExprLexer.Proofs.Run.Basic

namespace ExprLexer

namespace Lexeme

variable {cs body rest : List Char} {c : Char} {origin : Token.Origin} {defect : Defect}

/-- The grammar of numerals has three forms. -/
def IsNumeral (body : List Char) : Prop :=
  (∃ radix, IsBased radix body) ∨ IsDigits body ∨ IsScaled body

/-- A text begins with a numeral that has an exponent marker but no exponent after it, or an
exponent and then another marker. -/
inductive BadExponent : List Char → Defect → Prop where
  | missing {marked : List Char} (shape : IsMarked marked) : BadExponent marked .missingExponent
  | stray {marked : List Char} {found : Char} (shape : IsMarked marked)
      (notNumber : found ∉ Category.numberBody) (notSign : found ∉ Category.exponentSign)
      (rest : List Char) : BadExponent (marked ++ found :: rest) (.strayExponent found)
  | repeated {marked digits : List Char} {sign marker : Char} (shape : IsMarked marked)
      (signs : sign ∈ Category.numberBody ∨ sign ∈ Category.exponentSign)
      (inside : ∀ c ∈ digits, c ∈ Category.numberBody) (marks : marker ∈ Category.exponent)
      (rest : List Char) :
      BadExponent (marked ++ sign :: digits ++ marker :: rest) (.repeatedExponent marker)

/-- The numerals are the lexemes whose kind is a number. -/
theorem isNumeral_iff :
    IsNumeral body ↔ ∃ origin : Token.Origin, origin.kind = .number ∧ Shape body origin := by
  constructor
  · rintro (⟨radix, based⟩ | decimal)
    · exact ⟨.based radix, rfl, based⟩
    · exact ⟨.decimal, rfl, decimal⟩
  · rintro ⟨origin, number, shape⟩
    cases origin with
    | decimal => exact Or.inr shape
    | based radix => exact Or.inl ⟨radix, shape⟩
    | _ => cases number

/-- A text with a bad exponent starts with a malformed literal that is no quotation. -/
theorem badExponent_iff :
    BadExponent cs defect ↔
      ∃ body, Starts cs (.broken defect body) ∧ defect.literal 0 = .numeral 0 := by
  constructor
  · intro bad
    cases bad with
    | missing shape => exact ⟨cs, starts_missing shape, rfl⟩
    | stray shape notNumber notSign rest =>
        exact ⟨_, starts_stray shape (not_or.mpr ⟨notNumber, notSign⟩), rfl⟩
    | repeated shape signs inside marks rest =>
        have scaled : IsScaled _ := ⟨_, _, _, shape, signs, inside, rfl⟩
        exact ⟨_, starts_repeated scaled marks, rfl⟩
  · rintro ⟨body, starts, literal⟩
    obtain ⟨rest, rfl, flaw⟩ := starts.flaw
    cases defect with
    | repeatedExponent marker =>
        obtain ⟨⟨marked, sign, digits, shape, signs, inside, rfl⟩, next, marks⟩ := flaw
        obtain ⟨more, rfl⟩ := List.head?_eq_some_iff.mp next
        exact .repeated shape signs inside marks more
    | strayExponent found =>
        obtain ⟨shape, next, stray⟩ := flaw
        obtain ⟨more, rfl⟩ := List.head?_eq_some_iff.mp next
        obtain ⟨notNumber, notSign⟩ := not_or.mp stray
        exact .stray shape notNumber notSign more
    | missingExponent =>
        obtain ⟨shape, next⟩ := flaw
        rw [List.head?_eq_none_iff.mp next, List.append_nil]
        exact .missing shape
    | unclosedQuote quote => cases literal

/-- A text that starts with a number has a number as its first lexeme. -/
theorem Starts.number (starts : Starts (c :: rest) (.whole origin body cs))
    (number : c ∈ Category.numberBody) : origin.kind = .number := by
  obtain ⟨same, some⟩ := starts.append
  obtain ⟨d, more, rfl⟩ := List.exists_cons_of_ne_nil some
  obtain ⟨rfl, _⟩ := List.cons.inj same
  rw [← starts.shape.kind]
  exact Token.Kind.ofText_number number more

end Lexeme

variable {suffixes : Suffixes} {source : String} {run : Run} {c : Char} {defect : Defect}

/-- A numeral is accepted as one token. -/
theorem texts_of_isNumeral (lexed : lex suffixes source = .ok run)
    (numeral : Lexeme.IsNumeral source.toList) :
    ∃ tokens, run.result = .ok tokens ∧ Token.texts tokens = [source] := by
  obtain ⟨origin, _, shape⟩ := Lexeme.isNumeral_iff.mp numeral
  have starts : Lexeme.Starts (source.toList ++ []) (.whole origin source.toList []) :=
    shape.starts shape.stops
  have covers := Lexeme.Covers.single suffixes 0 starts
  rw [Lexeme.tokens_last, String.ofList_toList] at covers
  have known := lex_of_covers covers
  rw [lexed] at known
  cases known
  exact ⟨_, rfl, rfl⟩

/-- A text that starts with a number and is accepted as one token is a numeral. -/
theorem isNumeral_of_texts {tokens : List Token} (lexed : lex suffixes source = .ok run)
    (first : source.toList.head? = some c) (number : c ∈ Category.numberBody)
    (accepted : run.result = .ok tokens) (single : Token.texts tokens = [source]) :
    Lexeme.IsNumeral source.toList := by
  obtain ⟨rest, cut⟩ := List.head?_eq_some_iff.mp first
  have notBlank :=
    Category.Apart.not_mem (by decide : Category.Apart .numberBody .whitespace) number
  have starts : Lexeme.Starts (c :: rest) (Lexeme.read c rest) := ⟨c, rest, rfl, notBlank, rfl⟩
  have known := lex_eq_ok_iff.mp lexed
  rw [cut] at known
  rcases found : Lexeme.read c rest with ⟨origin, body, after⟩ | ⟨broken, body⟩
  · rw [found] at starts
    have kind := starts.number number
    have other : origin ≠ .plain := by
      rintro rfl
      cases kind
    rw [Lexeme.runFrom_whole starts, Lexeme.tokens_other other] at known
    have emitted := Run.result_eq_ok_iff.mp accepted
    rw [emitted] at known
    have tokens := congrArg Run.tokens known
    simp only [Run.prepend, List.singleton_append] at tokens
    rw [tokens, Token.texts, List.map_cons, List.cons.injEq] at single
    have same : body = source.toList := by
      rw [← single.1, String.toList_ofList]
    rw [← same]
    exact Lexeme.isNumeral_iff.mpr ⟨origin, kind, starts.shape⟩
  · rw [found] at starts
    rw [Lexeme.runFrom_broken starts] at known
    rw [known] at accepted
    cases accepted

/-- The literal at the front of a source is the one that a rejection at offset zero is about. -/
theorem rejects_numeral_iff (lexed : lex suffixes source = .ok run) :
    (∃ position, run.result = .error ⟨defect, position, .numeral 0⟩) ↔
      Lexeme.BadExponent source.toList defect := by
  rw [Lexeme.badExponent_iff]
  constructor
  · rintro ⟨position, rejected⟩
    obtain ⟨front, rest, other, body, cut, _, starts, same⟩ := covers_of_rejected lexed rejected
    obtain ⟨rfl, _, literal⟩ := Rejection.mk.inj same
    have place : (0 : Nat) = Text.byteLength front := by
      have start := congrArg Literal.start literal
      cases defect <;> exact start
    rw [Text.byteLength_eq_zero_iff.mp place.symm, List.nil_append] at cut
    rw [cut]
    exact ⟨body, starts, by rw [literal, place]⟩
  · rintro ⟨body, starts, literal⟩
    have covers : Lexeme.Covers suffixes 0 [] source.toList [] := .done 0 source.toList
    have known := lex_of_broken (List.nil_append _).symm covers starts
    rw [lexed] at known
    cases known
    refine ⟨Text.byteLength body, ?_⟩
    rw [Run.result_eq_error_iff]
    simp [Rejection.ofDefect, literal]

/-- The lexer accepts a text that starts like a numeral as one token exactly if the text is one. It
rejects a numeral at the front of the text exactly if the exponent is missing, stray or repeated,
and the rejection tells which of them it is. -/
theorem lex_numeral (suffixes : Suffixes) {source : String} {c : Char}
    (first : source.toList.head? = some c) (number : c ∈ Category.numberBody) :
    ∃ run, lex suffixes source = .ok run ∧
      ((∃ tokens, run.result = .ok tokens ∧ Token.texts tokens = [source]) ↔
        Lexeme.IsNumeral source.toList) ∧
      ∀ defect, (∃ position, run.result = .error ⟨defect, position, .numeral 0⟩) ↔
        Lexeme.BadExponent source.toList defect := by
  have lexed : lex suffixes source = .ok (Lexeme.runFrom suffixes 0 source.toList) :=
    lex_eq_ok_iff.mpr rfl
  refine ⟨_, lexed, ⟨?_, texts_of_isNumeral lexed⟩, fun defect => rejects_numeral_iff lexed⟩
  rintro ⟨tokens, accepted, single⟩
  exact isNumeral_of_texts lexed first number accepted single

/-- A sign stands for the exponent here, so the marker behind it is the second one. -/
theorem lex_numeral_repeated : ∃ run, lex .standard "1.E-e2" = .ok run ∧
    (∃ position, run.result = .error ⟨.repeatedExponent 'e', position, .numeral 0⟩) ∧
    ¬ Lexeme.IsNumeral "1.E-e2".toList := by
  obtain ⟨run, lexed, accepts, rejects⟩ :=
    @lex_numeral .standard "1.E-e2" '1' (by decide) (by decide)
  have inside : ∀ c ∈ ['1', '.'], c ∈ Category.numberBody :=
    List.forall_mem_cons.mpr ⟨by decide, List.forall_mem_singleton.mpr (by decide)⟩
  have digits : Lexeme.IsDigits ['1', '.'] := ⟨List.cons_ne_nil _ _, inside⟩
  have marked : Lexeme.IsMarked ['1', '.', 'E'] := ⟨_, 'E', digits, by decide, rfl⟩
  have bad : Lexeme.BadExponent (['1', '.', 'E'] ++ '-' :: [] ++ 'e' :: ['2'])
      (.repeatedExponent 'e') := by
    apply Lexeme.BadExponent.repeated marked (Or.inr (by decide)) _ (by decide)
    simp
  have rejected := (rejects _).mpr bad
  refine ⟨run, lexed, rejected, fun numeral => ?_⟩
  obtain ⟨position, refused⟩ := rejected
  obtain ⟨tokens, accepted, _⟩ := accepts.mpr numeral
  rw [refused] at accepted
  cases accepted

end ExprLexer
