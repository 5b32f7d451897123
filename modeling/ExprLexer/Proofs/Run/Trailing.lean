/-
This file compares the end of a source with a blank behind it. Both close the last token, but only
the blank cuts a suffix off a plain one. A literal that is open at the end of the source takes in
the blank or is rejected because of it.
-/

import ExprLexer.Proofs.Run.Extension
import ExprLexer.Proofs.Token.Layout

namespace ExprLexer

/-- The last character of a text is no blank. -/
def EndsVisible (text : List Char) : Prop := ∃ c ∈ text.getLast?, c ∉ Category.whitespace

/-- What a blank behind an accepted text makes of its tokens. -/
inductive Token.Closing (suffixes : Suffixes) (text : List Char) :
    List Token → List Token → Prop where
  /-- A plain token at the very end comes apart where the suffixes cut its text. -/
  | cut {before : List Token} {token : Token} {cut : Nat} {head tail : String}
      (visible : EndsVisible text) (plain : token.kind = .plain)
      (point : suffixes.cutPoint? token.text = some cut)
      (first : Text.slice token.text 0 cut = .ok head)
      (second : Text.slice token.text cut token.text.utf8ByteSize = .ok tail) :
      Closing suffixes text (before ++ [token])
        (before ++ [⟨head, token.start, .plainHead⟩, ⟨tail, token.start + cut, .plainTail⟩])
  /-- In every other text all tokens stay. -/
  | keep {tokens : List Token}
      (whole : EndsVisible text → ∀ token ∈ tokens.getLast?, token.kind = .plain →
        suffixes.cutPoint? token.text = none) :
      Closing suffixes text tokens tokens

/-- All tokens stay if the suffixes do not cut the last one. -/
theorem Token.Closing.keep_last {suffixes : Suffixes} {text : List Char} {before : List Token}
    {token : Token} (whole : token.kind = .plain → suffixes.cutPoint? token.text = none) :
    Token.Closing suffixes text (before ++ [token]) (before ++ [token]) := by
  apply Token.Closing.keep
  intro _ last found
  rw [List.getLast?_concat] at found
  cases found
  exact whole

/-- The rejection of the same source with a blank behind it. The blank stands where an exponent is
missing, and it only makes an open quotation longer. -/
def Rejection.before (c : Char) (rejection : Rejection) : Rejection :=
  match rejection.defect with
  | .repeatedExponent _ => rejection
  | .strayExponent _ => rejection
  | .missingExponent => { rejection with defect := .strayExponent c }
  | .unclosedQuote _ => { rejection with position := rejection.position + 1 }

namespace Lexeme

variable {suffixes : Suffixes} {start : Nat} {front body rest : List Char} {c : Char}
  {origin : Token.Origin} {defect : Defect} {given : List Token}

/-- A text that lexemes cover is empty, or it ends with a blank or with a lexeme. -/
inductive Ends (suffixes : Suffixes) (start : Nat) : List Char → List Token → Prop where
  | empty : Ends suffixes start [] []
  | blank {front : List Char} {c : Char} {given : List Token} (blank : c ∈ Category.whitespace)
      (covers : Covers suffixes start front [c] given) :
      Ends suffixes start (front ++ [c]) given
  | lexeme {front body : List Char} {origin : Token.Origin} {given : List Token}
      (covers : Covers suffixes start front body given) (shape : Shape body origin) :
      Ends suffixes start (front ++ body)
        (given ++ [⟨String.ofList body, start + Text.byteLength front, origin⟩])

theorem Covers.ends (covers : Covers suffixes start front [] given) :
    Ends suffixes start front given := by
  refine covers.whole_induction ?done ?blank ?last ?lexeme
  case done => exact fun _ => .empty
  case blank =>
    intro start c front given blank inductionHypothesis
    cases inductionHypothesis with
    | empty =>
        have nothing : Covers suffixes start [] [c] [] := .done start [c]
        exact Ends.blank blank nothing
    | blank last covers =>
        have longer := Covers.blank blank covers
        exact Ends.blank last longer
    | lexeme covers shape =>
        have longer := Covers.blank blank covers
        rw [Nat.add_assoc, ← Text.byteLength_cons]
        exact Ends.lexeme longer shape
  case last =>
    intro start origin body starts
    have nothing : Covers suffixes start [] body [] := .done start body
    exact Ends.lexeme nothing starts.shape
  case lexeme =>
    intro start origin body front given some starts inductionHypothesis
    cases inductionHypothesis with
    | empty => exact absurd rfl some
    | blank last covers =>
        have longer := Covers.lexeme starts covers
        rw [← List.append_assoc]
        exact Ends.blank last longer
    | lexeme covers shape =>
        have longer := Covers.lexeme starts covers
        rw [← List.append_assoc, ← List.append_assoc, Nat.add_assoc, ← Text.byteLength_append]
        exact Ends.lexeme longer shape

/-- A blank closes every lexeme, and the token of a plain run comes apart. -/
theorem Shape.closing (shape : Shape body origin) (suffixes : Suffixes) (front : List Char)
    (before : List Token) (place : Nat) (c : Char) :
    Token.Closing suffixes (front ++ body) (before ++ [⟨String.ofList body, place, origin⟩])
      (before ++ tokens suffixes place origin body [c]) := by
  by_cases plain : origin = .plain
  · subst plain
    rcases found : suffixes.find? (String.ofList body) with _ | suffix
    · rw [Suffixes.tokens_whole found]
      apply Token.Closing.keep_last
      intro _
      rw [Suffixes.cutPoint?, found]
      rfl
    · obtain ⟨head, _, after, same, point⟩ := Suffixes.find?_cut found
      obtain ⟨first, second⟩ := Suffixes.slice_cut same
      have visible : EndsVisible (front ++ body) := by
        obtain ⟨_, _, _, _, inside⟩ := shape
        have some : body ≠ [] := by
          rw [same]
          exact List.append_ne_nil_of_right_ne_nil head after
        have last := List.getLast?_eq_some_getLast some
        rw [EndsVisible, List.getLast?_append_of_ne_nil front some]
        exact ⟨_, last, (inside _ (List.getLast_mem some)).1⟩
      rw [Suffixes.tokens_cut found same place (List.cons_ne_nil c [])]
      exact .cut visible (shape.plain_iff.mpr rfl) point first second
  · rw [tokens_other plain]
    apply Token.Closing.keep_last
    intro kind
    exact absurd (shape.plain_iff.mp kind) plain

/-- A blank behind a text that lexemes cover is covered with it. -/
theorem Ends.push (ends : Ends suffixes start front given) (blank : c ∈ Category.whitespace) :
    ∃ later, Covers suffixes start (front ++ [c]) [] later ∧
      Token.Closing suffixes front given later := by
  have behind (place : Nat) : Covers suffixes place [c] [] [] := .blank blank (.done _ [])
  cases ends with
  | empty =>
      have nothing : Token.Closing suffixes [] [] [] := .keep fun _ _ last _ => nomatch last
      exact ⟨[], behind start, nothing⟩
  | @blank front d given isBlank covers =>
      have earlier := covers.append_rest (List.cons_ne_nil d []) [c]
      have whole := earlier.append_all (.blank isBlank (behind _))
      rw [List.append_nil, ← List.append_assoc] at whole
      refine ⟨given, whole, .keep fun visible => ?_⟩
      obtain ⟨last, found, notBlank⟩ := visible
      rw [List.getLast?_concat] at found
      cases found
      exact absurd isBlank notBlank
  | @lexeme front body origin given covers shape =>
      have alone : Starts (body ++ []) (.whole origin body []) := shape.starts shape.stops
      have earlier := covers.append_rest alone.append.2 [c]
      -- The blank ends the lexeme as the end of the text did, and now something follows it.
      have next : ∀ d ∈ [c].head?, d ∈ Category.whitespace ∨ d ∈ Category.structural := by
        simp [blank]
      have starts := shape.starts (shape.stops_closing next)
      have last := Reaction.covers_blank suffixes (start + Text.byteLength front) starts blank
      rw [List.append_assoc]
      exact ⟨_, earlier.append_all last, shape.closing suffixes front given _ c⟩

/-- A malformed literal is malformed as well if a blank follows the text. -/
theorem Starts.push (starts : Starts rest (.broken defect body)) (blank : c ∈ Category.whitespace) :
    ∃ other longer, Starts (rest ++ [c]) (.broken other longer) ∧ ∀ front,
      Rejection.ofDefect other (Text.byteLength (front ++ longer)) (Text.byteLength front) =
        (Rejection.ofDefect defect (Text.byteLength (front ++ body))
          (Text.byteLength front)).before c := by
  cases defect with
  | repeatedExponent marker => exact ⟨_, _, starts.extend id [c], fun _ => rfl⟩
  | strayExponent found => exact ⟨_, _, starts.extend id [c], fun _ => rfl⟩
  | missingExponent =>
      obtain ⟨after, rfl, marked, next⟩ := starts.flaw
      rw [List.head?_eq_none_iff.mp next, List.append_nil]
      have stray : ¬ (c ∈ Category.numberBody ∨ c ∈ Category.exponentSign) := by
        rw [not_or]
        exact ⟨Category.Apart.not_mem (by decide) blank, Category.Apart.not_mem (by decide) blank⟩
      exact ⟨_, _, starts_stray marked stray, fun _ => rfl⟩
  | unclosedQuote quote =>
      obtain ⟨after, rfl, isOpen, next⟩ := starts.flaw
      rw [List.head?_eq_none_iff.mp next, List.append_nil]
      have other : c ≠ quote := by
        rintro rfl
        exact Category.Apart.not_mem (by decide : Category.Apart .quote .whitespace)
          isOpen.quotes blank
      have opened : closeQuote quote (escapesBefore body) [c] = none :=
        closeQuote_eq_none_of_not_mem body (by simpa using other.symm)
      have narrow : c.utf8Size = 1 := Text.narrow_utf8Size (Category.narrow blank)
      refine ⟨_, _, starts_unclosed (isOpen.append opened), fun front => ?_⟩
      simp only [← List.append_assoc, Text.byteLength_append _ [c], Text.byteLength_cons,
        Text.byteLength_nil, narrow]
      rfl

end Lexeme

/-- A blank behind a source tells how its end differs from a blank. An accepted source keeps its
tokens, but for a plain one at the very end that the suffixes cut. A rejected source stays rejected
where it was, and only a literal that was open at the end makes a difference. -/
theorem lex_push (suffixes : Suffixes) (source : String) {c : Char}
    (blank : c ∈ Category.whitespace) :
    ∃ run pushed, lex suffixes source = .ok run ∧ lex suffixes (source.push c) = .ok pushed ∧
      (∀ tokens, run.result = .ok tokens → ∃ later, pushed.result = .ok later ∧
        Token.Closing suffixes source.toList tokens later) ∧
      ∀ rejection, run.result = .error rejection →
        pushed.result = .error (rejection.before c) ∧ pushed.tokens = run.tokens := by
  have longer : (source.push c).toList = source.toList ++ [c] := String.toList_push c
  rcases Lexeme.covers_cases suffixes 0 source.toList with
    ⟨given, covers⟩ | ⟨front, rest, given, defect, body, cut, covers, starts⟩
  · obtain ⟨later, whole, closing⟩ := covers.ends.push blank
    rw [← longer] at whole
    refine ⟨_, _, lex_of_covers covers, lex_of_covers whole, ?_, nofun⟩
    rintro tokens ⟨⟩
    exact ⟨later, rfl, closing⟩
  · obtain ⟨other, literal, breaks, same⟩ := starts.push blank
    have behind : (source.push c).toList = front ++ (rest ++ [c]) := by
      rw [longer, cut, List.append_assoc]
    have earlier := covers.append_rest starts.ne_nil [c]
    refine ⟨_, _, lex_of_broken cut covers starts, lex_of_broken behind earlier breaks, nofun, ?_⟩
    rintro rejection ⟨⟩
    rw [same front]
    exact ⟨rfl, rfl⟩

/-- The token at the very end comes apart, and the one before it has lost its suffix already. -/
theorem lex_push_cut : '\t' ∈ Category.whitespace ∧ ∃ run pushed tokens later,
    lex .standard "a: é:" = .ok run ∧ lex .standard ("a: é:".push '\t') = .ok pushed ∧
      run.result = .ok tokens ∧ pushed.result = .ok later ∧
      Token.Closing .standard "a: é:".toList tokens later ∧
      Token.texts tokens = ["a", ":", "é:"] ∧ Token.texts later = ["a", ":", "é", ":"] := by
  have blank : '\t' ∈ Category.whitespace := by decide
  have lexed : lex .standard "a: é:" = .ok
      ⟨[⟨"a", 0, .plainHead⟩, ⟨":", 1, .plainTail⟩, ⟨"é:", 3, .plain⟩], none⟩ := by
    decide +kernel
  have behind : lex .standard ("a: é:".push '\t') = .ok
      ⟨[⟨"a", 0, .plainHead⟩, ⟨":", 1, .plainTail⟩, ⟨"é", 3, .plainHead⟩, ⟨":", 5, .plainTail⟩],
        none⟩ := by decide +kernel
  obtain ⟨run, pushed, known, longer, accepts, _⟩ := lex_push .standard "a: é:" blank
  rw [lexed] at known
  cases known
  rw [behind] at longer
  cases longer
  obtain ⟨later, result, closing⟩ := accepts _ rfl
  cases result
  exact ⟨blank, _, _, _, _, lexed, behind, rfl, rfl, closing, rfl, rfl⟩

/-- A blank takes the place of a missing exponent and leaves a quotation open. -/
example : Rejection.before ' ' ⟨.missingExponent, 2, .numeral 0⟩ =
      ⟨.strayExponent ' ', 2, .numeral 0⟩ ∧
    lex .empty "1e " = .ok ⟨[], some ⟨.strayExponent ' ', 2, .numeral 0⟩⟩ ∧
    lex .empty "\x27 " = .ok ⟨[], some ⟨.unclosedQuote '\x27', 2, .quotation 0⟩⟩ := by
  decide +kernel

end ExprLexer
