/-
This file says which characters a whole lexeme has. Its origin decides the shape of its text, and
the first character of the text shows the kind that the origin belongs to.
-/

import ExprLexer.Proofs.Lexeme.Reading

namespace ExprLexer

/-- The kind of the tokens that have the origin. -/
def Token.Origin.kind : Token.Origin → Token.Kind
  | .delimiter => .delimiter
  | .decimal => .number
  | .based _ => .number
  | .quotation _ => .quotation
  | .plain => .plain
  | .plainHead => .plain
  | .plainTail => .plain

theorem Token.Kind.ofText_quote {c : Char} (quotes : c ∈ Category.quote) (rest : List Char) :
    ofText (String.ofList (c :: rest)) = .quotation := by
  rw [ofText, String.toList_ofList, List.head?_cons]
  exact if_pos quotes

theorem Token.Kind.ofText_number {c : Char} (number : c ∈ Category.numberBody)
    (rest : List Char) : ofText (String.ofList (c :: rest)) = .number := by
  have notQuote := Category.Apart.not_mem (by decide : Category.Apart .numberBody .quote) number
  rw [ofText, String.toList_ofList, List.head?_cons]
  simp only [notQuote, number, if_false, if_true]

theorem Token.Kind.ofText_delimiter {c : Char} (delimits : c ∈ Category.structural)
    (rest : List Char) : ofText (String.ofList (c :: rest)) = .delimiter := by
  have notQuote := Category.Apart.not_mem (by decide : Category.Apart .structural .quote) delimits
  have notNumber :=
    Category.Apart.not_mem (by decide : Category.Apart .structural .numberBody) delimits
  rw [ofText, String.toList_ofList, List.head?_cons]
  simp only [notQuote, notNumber, delimits, if_false, if_true]

theorem Token.Kind.ofText_plain {c : Char} (notQuote : c ∉ Category.quote)
    (plain : Lexeme.IsPlain c) (rest : List Char) :
    ofText (String.ofList (c :: rest)) = .plain := by
  obtain ⟨_, notStructural, notNumber⟩ := plain
  rw [ofText, String.toList_ofList, List.head?_cons]
  simp only [notQuote, notNumber, notStructural, if_false]

namespace Lexeme

variable {cs body rest : List Char} {c : Char} {origin : Token.Origin} {radix : Radix}

/-- The shape of a whole lexeme. A plain run is one lexeme, so no lexeme is a piece of it. -/
def Shape (body : List Char) : Token.Origin → Prop
  | .delimiter => ∃ c ∈ Category.structural.members, body = [c]
  | .decimal => IsDigits body ∨ IsScaled body
  | .based radix => IsBased radix body
  | .quotation quote =>
      ∃ opened, IsOpen quote opened ∧ escapesBefore opened % 2 = 0 ∧ body = opened ++ [quote]
  | .plain => IsPlainRun body
  | .plainHead => False
  | .plainTail => False

theorem mem_takeWhile {category : Category} :
    ∀ c ∈ cs.takeWhile (· ∈ category), c ∈ category := by
  intro c member
  simpa using List.mem_takeWhile_imp member

theorem radix?_shape (named : radix? cs = some radix) :
    ∃ after, cs = '0' :: radix.indicator :: after := by
  unfold radix? at named
  split at named
  · next zero c after =>
      split at named
      · next leads =>
          have zeros : [zero] = ['0'] := leads
          obtain ⟨rfl, _⟩ := List.cons.inj zeros
          exact ⟨after, by rw [Radix.named?_eq_some_iff.mp named]⟩
      · cases named
  · cases named

theorem ofBased_shape (named : radix? cs = some radix)
    (found : ofBased radix cs = .whole origin body rest) : Shape body origin := by
  obtain ⟨after, same⟩ := radix?_shape named
  subst same
  cases found
  exact ⟨_, mem_takeWhile, rfl⟩

theorem ofExponent_shape (marked : IsMarked cs)
    (found : ofExponent cs rest = .whole origin body after) : Shape body origin := by
  cases rest with
  | nil => cases found
  | cons sign rest =>
      rw [ofExponent] at found
      split at found
      · next signs =>
          have scaled : IsScaled (cs ++ sign :: rest.takeWhile (· ∈ Category.numberBody)) :=
            ⟨cs, sign, _, marked, signs, mem_takeWhile, rfl⟩
          split at found
          · cases found
            exact Or.inr scaled
          · split at found
            · cases found
            · cases found
              exact Or.inr scaled
      · cases found

theorem ofDecimal_shape (first : c ∈ Category.numberBody)
    (found : ofDecimal (c :: cs) = .whole origin body rest) : Shape body origin := by
  have digits : IsDigits ((c :: cs).takeWhile (· ∈ Category.numberBody)) :=
    ⟨by simp [first], mem_takeWhile⟩
  unfold ofDecimal at found
  split at found
  · cases found
    exact Or.inl digits
  · split at found
    · next marks => exact ofExponent_shape ⟨_, _, digits, marks, rfl⟩ found
    · cases found
      exact Or.inl digits

/-- The text of a whole lexeme has the shape of its origin. -/
theorem Starts.shape (starts : Starts cs (.whole origin body rest)) : Shape body origin := by
  obtain ⟨c, after, _, notBlank, found⟩ := starts
  unfold read at found
  split at found
  · next delimits =>
      cases found
      exact ⟨c, delimits, rfl⟩
  next notStructural =>
  split at found
  · next quotes =>
      unfold ofQuotation at found
      split at found
      · next parts closed =>
          cases found
          obtain ⟨inner, _, same, opened, even⟩ := (closeQuote_eq_some_iff []).mp closed
          have start : IsOpen c (c :: inner) := ⟨inner, rfl, quotes, opened⟩
          rw [← IsOpen.escapesBefore quotes, List.nil_append] at even
          exact ⟨c :: inner, start, even, by rw [same]; rfl⟩
      · cases found
  next notQuote =>
  split at found
  · next number =>
      split at found
      · next radix named => exact ofBased_shape named found
      · exact ofDecimal_shape number found
  · next notNumber =>
      cases found
      have plain : ∀ d ∈ c :: after.takeWhile IsPlain, IsPlain d := by
        intro d member
        rcases List.mem_cons.mp member with rfl | later
        · exact ⟨notBlank, notStructural, notNumber⟩
        · simpa using List.mem_takeWhile_imp later
      exact ⟨c, _, rfl, notQuote, plain⟩

theorem IsMarked.mem (shape : IsMarked body) :
    ∀ c ∈ body, c ∈ Category.numberBody ∨ c ∈ Category.exponent := by
  obtain ⟨digits, marker, digitShape, marks, rfl⟩ := shape
  intro c member
  rcases List.mem_append.mp member with digit | last
  · exact Or.inl (digitShape.inside c digit)
  · rw [List.mem_singleton.mp last]
    exact Or.inr marks

theorem IsScaled.mem (shape : IsScaled body) : ∀ c ∈ body,
    c ∈ Category.numberBody ∨ c ∈ Category.exponent ∨ c ∈ Category.exponentSign := by
  obtain ⟨marked, sign, digits, markedShape, signs, inside, rfl⟩ := shape
  intro c member
  rcases List.mem_append.mp member with before | behind
  · exact (markedShape.mem c before).imp_right Or.inl
  · rcases List.mem_cons.mp behind with rfl | digit
    · exact signs.imp_right Or.inr
    · exact Or.inl (inside c digit)

/-- Blanks and delimiters are no part of a lexeme, unless it is one of them or a quotation. -/
theorem Shape.solid (shape : Shape body origin) (notDelimiter : origin ≠ .delimiter)
    (notQuotation : ∀ quote, origin ≠ .quotation quote) :
    ∀ c ∈ body, c ∉ Category.whitespace ∧ c ∉ Category.structural := by
  intro c member
  cases origin with
  | delimiter => exact absurd rfl notDelimiter
  | decimal =>
      rcases shape with digits | scaled
      · exact Category.solid (by decide) (by decide) (digits.inside c member)
      · rcases scaled.mem c member with number | marks | signs
        · exact Category.solid (by decide) (by decide) number
        · exact Category.solid (by decide) (by decide) marks
        · exact Category.solid (by decide) (by decide) signs
  | based radix =>
      obtain ⟨digits, inside, rfl⟩ := shape
      rcases List.mem_cons.mp member with rfl | further
      · decide
      · rcases List.mem_cons.mp further with rfl | digit
        · cases radix <;> decide
        · have other : radix.digits ≠ .whitespace ∧ radix.digits ≠ .structural := by
            cases radix <;> decide
          exact Category.solid other.1 other.2 (inside c digit)
  | quotation quote => exact absurd rfl (notQuotation quote)
  | plain =>
      obtain ⟨_, _, _, _, inside⟩ := shape
      exact ⟨(inside c member).1, (inside c member).2.1⟩
  | plainHead => exact shape.elim
  | plainTail => exact shape.elim

/-- The first character of a whole lexeme shows its kind. -/
theorem Shape.kind (shape : Shape body origin) :
    Token.Kind.ofText (String.ofList body) = origin.kind := by
  have number (digits : List Char) (digitShape : IsDigits digits) (more : List Char) :
      Token.Kind.ofText (String.ofList (digits ++ more)) = .number := by
    obtain ⟨c, after, same, first⟩ := digitShape.head
    rw [same, List.cons_append]
    exact Token.Kind.ofText_number first _
  cases origin with
  | delimiter =>
      obtain ⟨c, delimits, rfl⟩ := shape
      exact Token.Kind.ofText_delimiter delimits []
  | decimal =>
      rcases shape with digits | scaled
      · have given := number body digits []
        rwa [List.append_nil] at given
      · obtain ⟨marked, sign, more, ⟨digits, marker, digitShape, _, rfl⟩, _, _, rfl⟩ := scaled
        rw [List.append_assoc]
        exact number digits digitShape _
  | based radix =>
      obtain ⟨digits, _, rfl⟩ := shape
      exact Token.Kind.ofText_number (by decide) _
  | quotation quote =>
      obtain ⟨opened, ⟨inner, rfl, quotes, _⟩, _, rfl⟩ := shape
      exact Token.Kind.ofText_quote quotes _
  | plain =>
      obtain ⟨c, more, rfl, notQuote, inside⟩ := shape
      exact Token.Kind.ofText_plain notQuote (inside c List.mem_cons_self) more
  | plainHead => exact shape.elim
  | plainTail => exact shape.elim

/-- A whole lexeme is plain exactly if its first character shows that. -/
theorem Shape.plain_iff (shape : Shape body origin) :
    Token.Kind.ofText (String.ofList body) = .plain ↔ origin = .plain := by
  rw [shape.kind]
  cases origin with
  | plainHead => exact shape.elim
  | plainTail => exact shape.elim
  | _ => simp [Token.Origin.kind]

end Lexeme

end ExprLexer
