/-
This file traces every token to the turn of the loop that emits it. The mode that the machine is in
at that turn decides which origins the token can have.
-/

import ExprLexer.Proofs.Machine.Step
import ExprLexer.Proofs.Machine.Transition

namespace ExprLexer

namespace Machine

/-- The tokens that were emitted by the end of a turn. -/
def Turn.tokens : Turn → List Token
  | .more machine => machine.emitted.toList
  | .done run => run.tokens

/-- The next turn of a machine emits a token. -/
def Emits (suffixes : Suffixes) (machine : Machine) (token : Token) : Prop :=
  ∃ turn given, machine.turn suffixes = .ok turn ∧
    turn.tokens = machine.emitted.toList ++ given ∧ token ∈ given

variable {suffixes : Suffixes} {machine next first last : Machine} {turn : Turn} {run : Run}
  {token : Token}

/-- A jump inside a quotation emits nothing and stays in the quotation. -/
theorem skipQuoted_origins (skipped : machine.skipQuoted = .ok next) :
    next.emitted = machine.emitted ∧ next.mode.origins = machine.mode.origins := by
  rcases skipQuoted_cases skipped with
    ⟨_, rfl⟩ | ⟨quote, span, longer, _, inside, _, stays, emitted⟩
  · exact ⟨rfl, rfl⟩
  · rw [inside, stays]
    exact ⟨emitted, rfl⟩

/-- At the end of the source at most the token that was being read is emitted. -/
theorem conclude_tokens (ended : machine.conclude = .ok run) :
    ∃ given, run.tokens = machine.emitted.toList ++ given ∧
      ∀ token ∈ given, token.origin ∈ machine.mode.origins := by
  have last {span : Span} {origin : Token.Origin} (among : origin ∈ machine.mode.origins)
      (closed : (do
        let token ← span.token machine.reader origin
        return Run.mk (machine.emitted.toList ++ [token]) none) = Except.ok run) :
      ∃ given, run.tokens = machine.emitted.toList ++ given ∧
        ∀ token ∈ given, token.origin ∈ machine.mode.origins := by
    obtain ⟨token, read, made⟩ := Fault.bind_eq_ok_iff.mp closed
    cases made
    exact ⟨[token], rfl, Span.token_from read among⟩
  have nothing : ∃ given, machine.emitted.toList = machine.emitted.toList ++ given ∧
      ∀ token ∈ given, token.origin ∈ machine.mode.origins :=
    ⟨[], (List.append_nil _).symm, nofun⟩
  unfold conclude at ended
  split at ended
  · rcases mode : machine.mode with _ | span | span | ⟨radix, span⟩ | span | ⟨quote, span⟩
    all_goals simp only [mode] at ended last nothing ⊢
    case between =>
      cases ended
      exact nothing
    case numeral => exact last List.mem_cons_self ended
    case exponent =>
      cases ended
      exact nothing
    case based => exact last List.mem_cons_self ended
    case plain => exact last List.mem_cons_self ended
    case quotation =>
      cases ended
      exact nothing
  · cases ended

/-- A turn adds tokens that have the origins of its mode. -/
theorem turn_tokens (turned : machine.turn suffixes = .ok turn) :
    ∃ given, turn.tokens = machine.emitted.toList ++ given ∧
      ∀ token ∈ given, token.origin ∈ machine.mode.origins := by
  have reaction {here : Machine} {c : Char} {reaction : Reaction}
      (reacts : machine.Reacts suffixes here c reaction) :
      here.emitted = machine.emitted ∧ reaction.From machine.mode.origins := by
    obtain ⟨emitted, origins⟩ := skipQuoted_origins reacts.skipped
    exact ⟨emitted, origins ▸ Mode.react_from reacts.reacted⟩
  cases turn_eq_ok_iff.mp turned with
  | ended skipped _ concluded =>
      obtain ⟨emitted, origins⟩ := skipQuoted_origins skipped
      rw [← emitted, ← origins]
      exact conclude_tokens concluded
  | @past here c mode tokens reacts =>
      obtain ⟨emitted, origins⟩ := reaction reacts
      exact ⟨tokens, by simp [Turn.tokens, emitted], origins⟩
  | @again here c mode tokens reacts =>
      obtain ⟨emitted, origins⟩ := reaction reacts
      exact ⟨tokens, by simp [Turn.tokens, emitted], origins⟩
  | reject reacts =>
      obtain ⟨emitted, _⟩ := reaction reacts
      exact ⟨[], by simp [Turn.tokens, emitted], nofun⟩

/-- The mode of a machine tells the origin of what it emits. -/
theorem Emits.origin (emits : machine.Emits suffixes token) :
    token.origin ∈ machine.mode.origins := by
  obtain ⟨turn, given, turned, tokens, member⟩ := emits
  obtain ⟨others, same, origins⟩ := turn_tokens turned
  rw [tokens] at same
  rw [List.append_cancel_left same] at member
  exact origins token member

/-- Outside a quotation, what a turn emits is part of a reaction or of the end of the run. -/
theorem Emits.cases (emits : machine.Emits suffixes token)
    (outside : ∀ quote span, machine.mode ≠ .quotation quote span) :
    (∃ run given, machine.conclude = .ok run ∧
        run.tokens = machine.emitted.toList ++ given ∧ token ∈ given) ∨
      ∃ c reaction, machine.mode.react suffixes machine.reader c = .ok reaction ∧
        token ∈ reaction.tokens := by
  obtain ⟨turn, given, turned, tokens, member⟩ := emits
  have stays {here : Machine} (skipped : machine.skipQuoted = .ok here) : machine = here :=
    Except.ok.inj ((skipQuoted_outside outside).symm.trans skipped)
  cases turn_eq_ok_iff.mp turned with
  | ended skipped _ concluded =>
      cases stays skipped
      exact .inl ⟨_, given, concluded, tokens, member⟩
  | @past here c mode added reacts =>
      cases stays reacts.skipped
      have same : added = given := by simpa [Turn.tokens] using tokens
      exact .inr ⟨c, _, reacts.reacted, same ▸ member⟩
  | @again here c mode added reacts =>
      cases stays reacts.skipped
      have same : added = given := by simpa [Turn.tokens] using tokens
      exact .inr ⟨c, _, reacts.reacted, same ▸ member⟩
  | reject reacts =>
      cases stays reacts.skipped
      have nothing : given = [] := by simpa [Turn.tokens] using tokens
      cases nothing ▸ member

/-- What a turn leaves was emitted before it or by it. -/
theorem emits_of_turn (turned : machine.turn suffixes = .ok turn) (member : token ∈ turn.tokens) :
    token ∈ machine.emitted.toList ∨ machine.Emits suffixes token := by
  obtain ⟨given, tokens, _⟩ := turn_tokens turned
  rw [tokens] at member
  exact (List.mem_append.mp member).imp_right fun inside => ⟨turn, given, turned, tokens, inside⟩

/-- A machine emits some of its tokens on the way to it, if it did not start with them. -/
theorem Reaches.emits (reached : Reaches suffixes first last)
    (member : token ∈ last.emitted.toList) :
    token ∈ first.emitted.toList ∨
      ∃ machine, Reaches suffixes first machine ∧ machine.Emits suffixes token := by
  induction reached with
  | refl => exact Or.inl member
  | turn before turned inductionHypothesis =>
      rcases emits_of_turn turned member with earlier | now
      · exact inductionHypothesis earlier
      · exact Or.inr ⟨_, before, now⟩

/-- A run ends at the last turn of a machine that it reaches. -/
theorem run_ends (ran : first.run suffixes = .ok run) :
    ∃ last, Reaches suffixes first last ∧ last.turn suffixes = .ok (.done run) := by
  fun_induction Machine.run suffixes first with
  | case1 => cases ran
  | case2 first ended turned =>
      cases ran
      exact ⟨first, .refl first, turned⟩
  | case3 first next turned inductionHypothesis =>
      obtain ⟨last, reached, done⟩ := inductionHypothesis ran
      exact ⟨last, reached.head turned, done⟩

end Machine

/-- Every token of a run was emitted by a machine on the way. -/
theorem lex_emits {suffixes : Suffixes} {source : String} {run : Run} {token : Token}
    (lexed : lex suffixes source = .ok run) (member : token ∈ run.tokens) :
    ∃ machine, Machine.Reaches suffixes (Machine.start source) machine ∧
      machine.Emits suffixes token := by
  obtain ⟨last, reached, done⟩ := Machine.run_ends lexed
  rcases Machine.emits_of_turn done member with before | now
  · exact (reached.emits before).resolve_left nofun
  · exact ⟨last, reached, now⟩

end ExprLexer
