/-
This file says what a machine in a mode can do at a character. A token starts or grows, it is closed
and emitted, or a literal is rejected.
-/

import ExprLexer.Lexeme.Basic
import ExprLexer.Proofs.Machine.Step

namespace ExprLexer

namespace Mode

/-- A token starts at a character or grows by it. -/
inductive Grows (reader : Reader) (c : Char) : Mode → Mode → Prop where
  | opens (quotes : c ∈ Category.quote) :
      Grows reader c .between (.quotation c (.ofChar reader c))
  | counts (number : c ∈ Category.numberBody) :
      Grows reader c .between (.numeral (.ofChar reader c))
  | runs (unquoted : c ∉ Category.quote) (plain : Lexeme.IsPlain c) :
      Grows reader c .between (.plain (.ofChar reader c))
  | radix {radix : Radix} {span longer : Span} {text : String}
      (read : reader.slice span.start span.stop = .ok text)
      (named : Reaction.namedRadix? text c = some radix)
      (extended : span.extend reader c = .ok longer) :
      Grows reader c (.numeral span) (.based radix longer)
  | number {span longer : Span} (number : c ∈ Category.numberBody)
      (extended : span.extend reader c = .ok longer) :
      Grows reader c (.numeral span) (.numeral longer)
  | marker {span longer : Span} (marks : c ∈ Category.exponent)
      (extended : span.extend reader c = .ok longer) :
      Grows reader c (.numeral span) (.exponent longer)
  | sign {span longer : Span} (signs : c ∈ Category.numberBody ∨ c ∈ Category.exponentSign)
      (extended : span.extend reader c = .ok longer) :
      Grows reader c (.exponent span) (.numeral longer)
  | digit {radix : Radix} {span longer : Span} (digit : c ∈ radix.digits)
      (extended : span.extend reader c = .ok longer) :
      Grows reader c (.based radix span) (.based radix longer)
  | plain {span longer : Span} (plain : Lexeme.IsPlain c)
      (extended : span.extend reader c = .ok longer) :
      Grows reader c (.plain span) (.plain longer)
  | quoted {quote : Char} {span longer : Span} (extended : span.extend reader c = .ok longer) :
      Grows reader c (.quotation quote span) (.quotation quote longer)

/-- The origins of the tokens that a machine emits in a mode. A plain run ends at a delimiter, which
is then a token of the same turn. -/
def origins : Mode → List Token.Origin
  | .between => [.delimiter]
  | .numeral _ => [.decimal]
  | .exponent _ => []
  | .based radix _ => [.based radix]
  | .plain _ => [.plain, .plainHead, .plainTail, .delimiter]
  | .quotation quote _ => [.quotation quote]

/-- In these modes the machine moves past every character. -/
def Steady : Mode → Prop
  | .between => True
  | .quotation _ _ => True
  | _ => False

/-- These are all the reactions that a mode leads to. -/
inductive Leads (reader : Reader) (c : Char) (mode : Mode) : Reaction → Prop where
  | grow {next : Mode} (grows : mode.Grows reader c next) : Leads reader c mode (.past next [])
  | close {tokens : List Token} (origins : ∀ token ∈ tokens, token.origin ∈ mode.origins) :
      Leads reader c mode (.past .between tokens)
  | reread {tokens : List Token} (unsteady : ¬ mode.Steady)
      (origins : ∀ token ∈ tokens, token.origin ∈ mode.origins) :
      Leads reader c mode (.again .between tokens)
  | reject {rejection : Rejection} (unsteady : ¬ mode.Steady) :
      Leads reader c mode (.reject rejection)

end Mode

theorem Span.token_origin {span : Span} {reader : Reader} {origin : Token.Origin} {token : Token}
    (read : span.token reader origin = .ok token) : token.origin = origin := by
  obtain ⟨text, _, made⟩ := Fault.bind_eq_ok_iff.mp read
  split at made
  · cases made
  · cases made
    rfl

theorem Span.token_from {span : Span} {reader : Reader} {origin : Token.Origin} {token : Token}
    (read : span.token reader origin = .ok token) {origins : List Token.Origin}
    (among : origin ∈ origins) : ∀ given ∈ [token], given.origin ∈ origins := by
  intro given member
  rwa [List.mem_singleton.mp member, token_origin read]

namespace Reaction

/-- The tokens that a reaction emits. -/
def tokens : Reaction → List Token
  | .past _ tokens => tokens
  | .again _ tokens => tokens
  | .reject _ => []

/-- All tokens that a reaction emits have one of the origins. -/
def From (origins : List Token.Origin) (reaction : Reaction) : Prop :=
  ∀ token ∈ reaction.tokens, token.origin ∈ origins

variable {suffixes : Suffixes} {reader : Reader} {span : Span} {c : Char} {mode : Mode}
  {reaction : Reaction} {tokens : List Token}

theorem between_leads (reacted : between reader c = .ok reaction) :
    Mode.Leads reader c .between reaction := by
  unfold between at reacted
  split at reacted
  · cases reacted
    exact .close nofun
  next solid =>
  split at reacted
  · obtain ⟨token, read, made⟩ := Fault.bind_eq_ok_iff.mp reacted
    cases made
    exact .close (Span.token_from read (List.mem_singleton_self _))
  next inside =>
  split at reacted
  · next quotes =>
      cases reacted
      exact .grow (.opens quotes)
  next unquoted =>
  split at reacted
  · next number =>
      cases reacted
      exact .grow (.counts number)
  · next other =>
      cases reacted
      exact .grow (.runs unquoted ⟨solid, inside, other⟩)

/-- A token that only grows is not emitted. -/
theorem extend_leads {next : Span → Mode}
    (reacted : (do
      let span ← span.extend reader c
      return Reaction.past (next span) []) = Except.ok reaction)
    (grows : ∀ longer, span.extend reader c = .ok longer → mode.Grows reader c (next longer)) :
    mode.Leads reader c reaction := by
  obtain ⟨longer, extended, made⟩ := Fault.bind_eq_ok_iff.mp reacted
  cases made
  exact .grow (grows longer extended)

theorem closeNumeral_leads {origin : Token.Origin} (among : origin ∈ mode.origins)
    (unsteady : ¬ mode.Steady) (reacted : closeNumeral reader span origin c = .ok reaction) :
    mode.Leads reader c reaction := by
  obtain ⟨token, read, made⟩ := Fault.bind_eq_ok_iff.mp reacted
  split at made
  · cases made
    exact .close (Span.token_from read among)
  · cases made
    exact .reread unsteady (Span.token_from read among)

theorem numeral_leads (reacted : numeral reader span c = .ok reaction) :
    Mode.Leads reader c (.numeral span) reaction := by
  obtain ⟨text, read, made⟩ := Fault.bind_eq_ok_iff.mp reacted
  split at made
  · next named => exact extend_leads made fun _ extended => .radix read named extended
  split at made
  · next number => exact extend_leads made fun _ extended => .number number extended
  split at made
  · next marks =>
      split at made
      · cases made
        exact .reject id
      · exact extend_leads made fun _ extended => .marker marks extended
  · exact closeNumeral_leads (List.mem_singleton_self _) id made

theorem exponent_leads (reacted : exponent reader span c = .ok reaction) :
    Mode.Leads reader c (.exponent span) reaction := by
  unfold exponent at reacted
  split at reacted
  · next signs => exact extend_leads reacted fun _ extended => .sign signs extended
  · cases reacted
    exact .reject id

theorem based_leads {radix : Radix} (reacted : based reader radix span c = .ok reaction) :
    Mode.Leads reader c (.based radix span) reaction := by
  unfold based at reacted
  split at reacted
  · next digit => exact extend_leads reacted fun _ extended => .digit digit extended
  · exact closeNumeral_leads (List.mem_singleton_self _) id reacted

/-- The pieces of a plain run are the run itself or its head and tail. -/
theorem cutPlain_from (cut : cutPlain suffixes reader span = .ok tokens) :
    ∀ token ∈ tokens, token.origin ∈ [Token.Origin.plain, .plainHead, .plainTail] := by
  obtain ⟨text, _, made⟩ := Fault.bind_eq_ok_iff.mp cut
  split at made
  · obtain ⟨head, headRead, made⟩ := Fault.bind_eq_ok_iff.mp made
    obtain ⟨tail, tailRead, made⟩ := Fault.bind_eq_ok_iff.mp made
    cases made
    simp [Span.token_origin headRead, Span.token_origin tailRead]
  · obtain ⟨token, read, made⟩ := Fault.bind_eq_ok_iff.mp made
    cases made
    simp [Span.token_origin read]

theorem plain_leads (reacted : plain suffixes reader span c = .ok reaction) :
    Mode.Leads reader c (.plain span) reaction := by
  have widen : ∀ origin ∈ [Token.Origin.plain, .plainHead, .plainTail],
      origin ∈ [Token.Origin.plain, .plainHead, .plainTail, .delimiter] := by decide
  unfold plain at reacted
  split at reacted
  · obtain ⟨pieces, cut, made⟩ := Fault.bind_eq_ok_iff.mp reacted
    cases made
    exact .close fun token member => widen _ (cutPlain_from cut token member)
  next solid =>
  split at reacted
  · obtain ⟨pieces, cut, made⟩ := Fault.bind_eq_ok_iff.mp reacted
    obtain ⟨delimiter, read, made⟩ := Fault.bind_eq_ok_iff.mp made
    cases made
    apply Mode.Leads.close
    intro token member
    rcases List.mem_append.mp member with piece | last
    · exact widen _ (cutPlain_from cut token piece)
    · exact Span.token_from read (by simp [Mode.origins]) token last
  next inside =>
  split at reacted
  · obtain ⟨pieces, cut, made⟩ := Fault.bind_eq_ok_iff.mp reacted
    cases made
    exact .reread id fun token member => widen _ (cutPlain_from cut token member)
  · next other =>
      exact extend_leads reacted fun _ extended => .plain ⟨solid, inside, other⟩ extended

theorem quotation_leads {quote : Char} (reacted : quotation reader quote span c = .ok reaction) :
    Mode.Leads reader c (.quotation quote span) reaction := by
  obtain ⟨longer, extended, made⟩ := Fault.bind_eq_ok_iff.mp reacted
  split at made
  · obtain ⟨text, _, made⟩ := Fault.bind_eq_ok_iff.mp made
    split at made
    · cases made
    split at made
    · obtain ⟨token, read, made⟩ := Fault.bind_eq_ok_iff.mp made
      cases made
      exact .close (Span.token_from read (List.mem_singleton_self _))
    · cases made
      exact .grow (.quoted extended)
  · cases made
    exact .grow (.quoted extended)

end Reaction

namespace Mode

variable {suffixes : Suffixes} {reader : Reader} {c : Char} {mode : Mode} {reaction : Reaction}

theorem react_leads (reacted : mode.react suffixes reader c = .ok reaction) :
    mode.Leads reader c reaction := by
  cases mode with
  | between => exact Reaction.between_leads reacted
  | numeral span => exact Reaction.numeral_leads reacted
  | exponent span => exact Reaction.exponent_leads reacted
  | based radix span => exact Reaction.based_leads reacted
  | plain span => exact Reaction.plain_leads reacted
  | quotation quote span => exact Reaction.quotation_leads reacted

/-- The tokens of a reaction have the origins of its mode. -/
theorem react_from (reacted : mode.react suffixes reader c = .ok reaction) :
    reaction.From mode.origins := by
  cases react_leads reacted with
  | grow => exact nofun
  | close origins => exact origins
  | reread _ origins => exact origins
  | reject => exact nofun

/-- Between tokens and inside a quotation every character is moved past. -/
theorem react_past (steady : mode.Steady)
    (reacted : mode.react suffixes reader c = .ok reaction) :
    ∃ next tokens, reaction = .past next tokens := by
  cases react_leads reacted with
  | grow => exact ⟨_, _, rfl⟩
  | close => exact ⟨_, _, rfl⟩
  | reread unsteady => exact absurd steady unsteady
  | reject unsteady => exact absurd steady unsteady

end Mode

end ExprLexer
