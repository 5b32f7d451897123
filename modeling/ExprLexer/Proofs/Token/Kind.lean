/-
This file says which characters a token has. The kind that its first character shows is the one of
the mode that emitted it, and it tells the shape of the whole text.
-/

import ExprLexer.Proofs.Lexeme.Locality
import ExprLexer.Proofs.Machine.Emission
import ExprLexer.Proofs.Run.Basic

namespace ExprLexer

/-- No suffix starts with a quote. -/
def Suffixes.Unquoted (suffixes : Suffixes) : Prop :=
  ∀ suffix ∈ suffixes.entries, ∀ c ∈ suffix.toList.head?, c ∉ Category.quote

instance (suffixes : Suffixes) : Decidable suffixes.Unquoted :=
  let first (suffix : String) : Decidable (∀ c ∈ suffix.toList.head?, c ∉ Category.quote) :=
    Option.decidableForallMem suffix.toList.head?
  @List.decidableBAll _ _ first suffixes.entries

theorem Suffixes.unquoted_standard : Suffixes.standard.Unquoted := by
  decide

namespace Token

/-- A suffix was split off that starts with a quote, so the token looks like a quotation. -/
def QuotedTail (token : Token) : Prop :=
  token.origin = .plainTail ∧ ∃ c ∈ token.text.toList.head?, c ∈ Category.quote

/-- The origin that the text of a token has when it is read alone. A piece of a plain run is a plain
run then. -/
def Origin.alone : Origin → Origin
  | .plainHead => .plain
  | .plainTail => .plain
  | origin => origin

theorem Origin.kind_alone (origin : Origin) : origin.alone.kind = origin.kind := by
  cases origin <;> rfl

/-- What the kind of a token says about its text. -/
def Kind.Shape (body : List Char) : Kind → Prop
  | .number =>
      (Lexeme.IsDigits body ∨ Lexeme.IsScaled body ∨ ∃ radix, Lexeme.IsBased radix body) ∧
        ∀ c ∈ body, c ∉ Category.whitespace ∧ c ∉ Category.structural ∧
          c ∉ Category.quote ∧ c ∉ Category.escape
  | .quotation =>
      ∃ quote inner, quote ∈ Category.quote ∧ body = quote :: inner ++ [quote] ∧
        Lexeme.escapesBefore (quote :: inner) % 2 = 0 ∧
        ∀ before after, inner = before ++ quote :: after →
          Lexeme.escapesBefore (quote :: before) % 2 = 1
  | .delimiter => ∃ c ∈ Category.structural.members, body = [c]
  | .plain => body ≠ [] ∧ ∀ c ∈ body, Lexeme.IsPlain c

/-- The kind of a token is the one of the mode that emitted it. A delimiter can end a plain run, so
there its origin tells that it is no piece of the run. -/
structure Reflects (token : Token) (mode : Mode) : Prop where
  number : token.kind = .number ↔
    (∃ span, mode = .numeral span) ∨ ∃ radix span, mode = .based radix span
  delimiter : token.kind = .delimiter ↔ token.origin = .delimiter
  quotation : ¬ token.QuotedTail →
    (token.kind = .quotation ↔ ∃ quote span, mode = .quotation quote span)
  plain : ¬ token.QuotedTail →
    (token.kind = .plain ↔ token.origin ≠ .delimiter ∧ ∃ span, mode = .plain span)
  quotedTail : token.QuotedTail → token.kind = .quotation

theorem QuotedTail.kind {token : Token} (tail : token.QuotedTail) : token.kind = .quotation := by
  obtain ⟨_, c, first, quotes⟩ := tail
  obtain ⟨rest, same⟩ := List.head?_eq_some_iff.mp first
  rw [Token.kind, ← String.ofList_toList (s := token.text), same]
  exact Kind.ofText_quote quotes rest

/-- A token reflects the mode that can emit its origin if it shows the kind of the origin. -/
theorem reflects {token : Token} {mode : Mode} (emitted : token.origin ∈ mode.origins)
    (shows : ¬ token.QuotedTail → token.kind = token.origin.kind) : token.Reflects mode := by
  by_cases tail : token.QuotedTail
  · have kind := tail.kind
    have origin := tail.1
    rw [origin] at emitted
    cases mode <;> simp [Mode.origins] at emitted
    constructor <;> simp [kind, origin, tail]
  · have kind := shows tail
    rcases mode with _ | span | span | ⟨radix, span⟩ | span | ⟨quote, span⟩
    all_goals
      simp only [Mode.origins, List.mem_cons, List.not_mem_nil, or_false] at emitted
    case between => constructor <;> simp [kind, emitted, Origin.kind, tail]
    case numeral => constructor <;> simp [kind, emitted, Origin.kind, tail]
    case based => constructor <;> simp [kind, emitted, Origin.kind, tail]
    case quotation => constructor <;> simp [kind, emitted, Origin.kind, tail]
    case plain =>
      rcases emitted with origin | origin | origin | origin
      all_goals constructor <;> simp [kind, origin, Origin.kind, tail]

end Token

namespace Lexeme

variable {suffixes : Suffixes} {start : Nat} {front body rest : List Char} {origin : Token.Origin}
  {given : List Token} {token : Token}

/-- No character of a numeral is a quote or an escape. -/
theorem Shape.unquoted (shape : Shape body origin) (number : origin.kind = .number) :
    ∀ c ∈ body, c ∉ Category.quote ∧ c ∉ Category.escape := by
  intro c member
  cases origin with
  | decimal =>
      rcases shape with digits | scaled
      · exact Category.unquoted (by decide) (by decide) (digits.inside c member)
      · rcases scaled.mem c member with number | marks | signs
        · exact Category.unquoted (by decide) (by decide) number
        · exact Category.unquoted (by decide) (by decide) marks
        · exact Category.unquoted (by decide) (by decide) signs
  | based radix =>
      obtain ⟨digits, inside, rfl⟩ := shape
      rcases List.mem_cons.mp member with rfl | further
      · decide
      · rcases List.mem_cons.mp further with rfl | digit
        · cases radix <;> decide
        · have other : radix.digits ≠ .quote ∧ radix.digits ≠ .escape := by
            cases radix <;> decide
          exact Category.unquoted other.1 other.2 (inside c digit)
  | _ => simp [Token.Origin.kind] at number

/-- The shape of a whole lexeme is one that its kind allows. -/
theorem Shape.kind_shape (shape : Shape body origin) : origin.kind.Shape body := by
  have number (kind : origin.kind = .number) : ∀ c ∈ body, c ∉ Category.whitespace ∧
      c ∉ Category.structural ∧ c ∉ Category.quote ∧ c ∉ Category.escape := by
    intro c member
    have solid := shape.solid (by rintro rfl; cases kind) (by rintro quote rfl; cases kind) c member
    exact ⟨solid.1, solid.2, shape.unquoted kind c member⟩
  cases origin with
  | delimiter => exact shape
  | decimal =>
      have digits : IsDigits body ∨ IsScaled body ∨ ∃ radix, IsBased radix body :=
        shape.imp_right Or.inl
      exact ⟨digits, number rfl⟩
  | based radix => exact ⟨Or.inr (Or.inr ⟨radix, shape⟩), number rfl⟩
  | quotation quote =>
      obtain ⟨opened, ⟨inner, rfl, quotes, isOpen⟩, even, rfl⟩ := shape
      refine ⟨quote, inner, quotes, rfl, even, fun before after cut => ?_⟩
      rw [IsOpen.escapesBefore quotes]
      exact (closeQuote_eq_none_iff []).mp isOpen before after cut
  | plain =>
      obtain ⟨c, more, rfl, _, inside⟩ := shape
      exact ⟨List.cons_ne_nil c more, inside⟩
  | plainHead => exact shape.elim
  | plainTail => exact shape.elim

/-- Only a piece of a lexeme would be read as something else when it stands alone. -/
theorem Shape.alone (shape : Shape body origin) : origin.alone = origin := by
  cases origin with
  | plainHead => exact shape.elim
  | plainTail => exact shape.elim
  | _ => rfl

/-- A part of a plain run that starts with no quote is a plain run. -/
theorem IsPlainRun.part {part : List Char} (shape : IsPlainRun body) (within : part ⊆ body)
    (some : part ≠ []) (first : ∀ c ∈ part.head?, c ∉ Category.quote) : IsPlainRun part := by
  obtain ⟨_, _, _, _, inside⟩ := shape
  obtain ⟨c, more, rfl⟩ := List.exists_cons_of_ne_nil some
  exact ⟨c, more, rfl, first c rfl, fun d member => inside d (within member)⟩

/-- The text of each token of a lexeme has the shape of a lexeme of its own, unless it is a suffix
that starts with a quote. -/
theorem Starts.tokens_shape (starts : Starts (body ++ rest) (.whole origin body rest)) :
    ∀ token ∈ tokens suffixes start origin body rest, ¬ token.QuotedTail →
      Shape token.text.toList token.origin.alone := by
  intro token member unquoted
  have shape := starts.shape
  rcases Suffixes.tokens_cases suffixes start origin body rest with
    whole | ⟨head, suffix, rfl, before, after, same, pieces⟩
  · rw [whole, List.mem_singleton] at member
    rw [member, String.toList_ofList, shape.alone]
    exact shape
  · rw [pieces, List.mem_pair] at member
    rcases member with rfl | rfl
    · rw [String.toList_ofList]
      apply IsPlainRun.part shape (by simp [same]) before
      obtain ⟨c, more, whole, notQuote, _⟩ := shape
      rw [← List.head?_append_of_ne_nil head before, ← same, whole]
      simpa using notQuote
    · apply IsPlainRun.part shape (by simp [same]) after
      intro c first quotes
      exact unquoted ⟨rfl, c, first, quotes⟩

/-- The tail of a plain run is one of the suffixes. -/
theorem Starts.tail_mem (starts : Starts (body ++ rest) (.whole origin body rest))
    (member : token ∈ tokens suffixes start origin body rest)
    (tail : token.origin = .plainTail) : token.text ∈ suffixes.entries := by
  have whole : token ≠ ⟨String.ofList body, start, origin⟩ := by
    rintro rfl
    have shape := starts.shape
    rw [show origin = .plainTail from tail] at shape
    exact shape
  unfold tokens at member
  split at member
  · split at member
    · next suffix found =>
        rcases List.mem_pair.mp member with rfl | rfl
        · cases tail
        · exact List.mem_of_find?_eq_some found
    · exact absurd (List.mem_singleton.mp member) whole
  · exact absurd (List.mem_singleton.mp member) whole

theorem Covers.tokens_shape (covers : Covers suffixes start front rest given) :
    ∀ token ∈ given, ¬ token.QuotedTail → Shape token.text.toList token.origin.alone := by
  induction covers with
  | done => exact nofun
  | blank _ _ inductionHypothesis => exact inductionHypothesis
  | lexeme starts _ inductionHypothesis =>
      exact List.forall_mem_append.mpr ⟨starts.tokens_shape, inductionHypothesis⟩

/-- Without a suffix that starts with a quote, no token looks like a quotation that it is not. -/
theorem Starts.not_quotedTail (starts : Starts (body ++ rest) (.whole origin body rest))
    (unquoted : suffixes.Unquoted) :
    ∀ token ∈ tokens suffixes start origin body rest, ¬ token.QuotedTail := by
  rintro token member ⟨origin, c, first, quotes⟩
  exact unquoted _ (starts.tail_mem member origin) c first quotes

theorem Covers.not_quotedTail (covers : Covers suffixes start front rest given)
    (unquoted : suffixes.Unquoted) : ∀ token ∈ given, ¬ token.QuotedTail := by
  induction covers with
  | done => exact nofun
  | blank _ _ inductionHypothesis => exact inductionHypothesis
  | lexeme starts _ inductionHypothesis =>
      exact List.forall_mem_append.mpr ⟨starts.not_quotedTail unquoted, inductionHypothesis⟩

end Lexeme

/-- A token that is no quoted tail shows the kind of its origin. -/
theorem Token.kind_of_shape {token : Token}
    (shape : Lexeme.Shape token.text.toList token.origin.alone) :
    token.kind = token.origin.kind := by
  have kind := shape.kind
  rwa [String.ofList_toList, Origin.kind_alone] at kind

/-- The kind that the first character of a token shows is the one of the mode that emitted it, and
it tells the shape of the token. Only a suffix that starts with a quote looks like something
else. -/
theorem lex_kind {suffixes : Suffixes} {source : String} {run : Run} {tokens : List Token}
    {token : Token} (lexed : lex suffixes source = .ok run)
    (accepted : run.result = .ok tokens) (member : token ∈ tokens) :
    (∃ machine, Machine.Reaches suffixes (Machine.start source) machine ∧
        machine.Emits suffixes token) ∧
      (∀ machine : Machine, machine.Emits suffixes token → token.Reflects machine.mode) ∧
      (suffixes.Unquoted ∨ ¬ token.QuotedTail → token.kind.Shape token.text.toList) := by
  have covers := covers_of_accepted lexed accepted
  have shape := covers.tokens_shape token member
  have inRun : token ∈ run.tokens := by
    rwa [Run.result_eq_ok_iff.mp accepted]
  refine ⟨lex_emits lexed inRun, fun machine emits => ?_, fun plain => ?_⟩
  · exact Token.reflects emits.origin fun notTail => Token.kind_of_shape (shape notTail)
  · have notTail : ¬ token.QuotedTail :=
      plain.elim (fun unquoted => covers.not_quotedTail unquoted token member) id
    rw [Token.kind_of_shape (shape notTail), ← Token.Origin.kind_alone]
    exact (shape notTail).kind_shape

/-- A quotation with an escaped quote in it stands between a cut run and a numeral. -/
theorem lex_kind_quotation : ∃ run tokens,
    lex .standard "é: \x22a \x5c\x22 b\x221e-" = .ok run ∧ run.result = .ok tokens ∧
      (⟨"\x22a \x5c\x22 b\x22", 4, .quotation '\x22'⟩ : Token) ∈ tokens ∧
      (∃ machine, Machine.Reaches .standard (Machine.start "é: \x22a \x5c\x22 b\x221e-") machine ∧
        machine.Emits .standard ⟨"\x22a \x5c\x22 b\x22", 4, .quotation '\x22'⟩ ∧
        ∃ quote span, machine.mode = .quotation quote span) ∧
      Token.Kind.Shape "\x22a \x5c\x22 b\x22".toList .quotation := by
  have lexed : lex .standard "é: \x22a \x5c\x22 b\x221e-" = .ok
      ⟨[⟨"é", 0, .plainHead⟩, ⟨":", 2, .plainTail⟩,
        ⟨"\x22a \x5c\x22 b\x22", 4, .quotation '\x22'⟩, ⟨"1e-", 12, .decimal⟩], none⟩ := by
    decide +kernel
  obtain ⟨⟨machine, reached, emits⟩, reflects, shape⟩ := lex_kind lexed rfl
    (by simp : (⟨"\x22a \x5c\x22 b\x22", 4, .quotation '\x22'⟩ : Token) ∈ _)
  have mode := ((reflects machine emits).quotation (by rintro ⟨origin, _⟩; cases origin)).mp
    (by decide)
  have shaped := shape (Or.inl Suffixes.unquoted_standard)
  exact ⟨_, _, lexed, rfl, by simp, ⟨machine, reached, emits, mode⟩, shaped⟩

/-- A suffix that starts with a quote looks like a quotation. -/
example : lex ⟨["\x27"]⟩ "a\x27 b" =
      .ok ⟨[⟨"a", 0, .plainHead⟩, ⟨"\x27", 1, .plainTail⟩, ⟨"b", 3, .plain⟩], none⟩ ∧
    Token.Kind.ofText "\x27" = .quotation := by
  decide +kernel

end ExprLexer
