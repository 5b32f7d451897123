/-
This file shows that a turn of the loop keeps the machine in step with the lexemes of its source. A
turn that ends the loop gives their run.
-/

import ExprLexer.Proofs.Machine.Reaction
import ExprLexer.Proofs.Machine.Step

namespace ExprLexer

namespace Machine

variable {suffixes : Suffixes} {source : String} {machine : Machine} {front body rest : List Char}

/-- The run over the source is what was emitted and then the run from the body on. -/
theorem Divides.runFrom (divides : machine.Divides suffixes source front body rest) :
    Lexeme.runFrom suffixes 0 source.toList =
      (Lexeme.runFrom suffixes (Text.byteLength front) (body ++ rest)).prepend
        machine.emitted.toList := by
  rw [divides.cut, List.append_assoc, Lexeme.runFrom_covers divides.covers, Nat.zero_add]

/-- A jump inside a quotation moves the characters before the next quote from the rest to the
body. -/
theorem Divides.skipQuoted_inside (divides : machine.Divides suffixes source front body rest)
    {quote : Char} {span : Span} (inside : machine.mode = .quotation quote span) :
    ∃ here, machine.skipQuoted = .ok here ∧ here.emitted = machine.emitted ∧
      here.mode = .quotation quote (.ofBody front (body ++ rest.takeWhile (· ≠ quote))) ∧
      here.Divides suffixes source front (body ++ rest.takeWhile (· ≠ quote))
        (rest.dropWhile (· ≠ quote)) := by
  have shape := divides.shape
  rw [inside] at shape
  obtain ⟨rfl, opened⟩ := shape
  have narrow := Category.narrow opened.quotes
  obtain ⟨later, jumped, text, stands⟩ := divides.reader.skipUntil narrow
  have absent := Text.not_mem_takeWhile quote rest
  have shape := opened.append (Lexeme.closeQuote_eq_none_of_not_mem body absent)
  have covers := divides.covers
  rw [← List.takeWhile_append_dropWhile (p := (· ≠ quote)) (l := rest), ← List.append_assoc]
    at covers
  rw [List.append_assoc] at stands
  have place : Span.mk (Text.byteLength front) later.position =
      .ofBody front (body ++ rest.takeWhile (· ≠ quote)) :=
    congrArg (Span.mk _) stands.position
  rw [Machine.skipQuoted, inside]
  simp only [jumped, bind, Except.bind, pure, Except.pure]
  split
  · exact ⟨_, rfl, rfl, congrArg _ place, text.trans divides.text, stands, covers, place, shape⟩
  · next still =>
      have nothing : rest.takeWhile (· ≠ quote) = [] := by
        rw [← Text.byteLength_eq_zero_iff]
        omega
      rw [nothing, List.append_nil] at stands covers shape ⊢
      exact ⟨_, rfl, rfl, rfl, text.trans divides.text, stands, covers, rfl, shape⟩

/-- A jump moves characters from the rest to the body, if it moves any. -/
theorem Divides.skipQuoted (divides : machine.Divides suffixes source front body rest) :
    ∃ next body rest, machine.skipQuoted = .ok next ∧
      next.Divides suffixes source front body rest := by
  by_cases inside : ∃ quote span, machine.mode = .quotation quote span
  · obtain ⟨quote, span, inside⟩ := inside
    obtain ⟨here, skipped, _, _, divides⟩ := divides.skipQuoted_inside inside
    exact ⟨here, _, _, skipped, divides⟩
  · have still := skipQuoted_outside fun quote span mode => inside ⟨quote, span, mode⟩
    exact ⟨machine, body, rest, still, divides⟩

/-- At the end of the source the run is that of the lexemes. -/
theorem Divides.conclude (divides : machine.Divides suffixes source front body []) :
    machine.conclude = .ok (Lexeme.runFrom suffixes 0 source.toList) := by
  have atEnd : machine.reader.atEnd = true := divides.reader.atEnd_iff.mpr rfl
  have size : machine.reader.size = Text.byteLength (front ++ body) := by
    simpa using divides.reader.size
  have cut : machine.reader.text.toList = front ++ body ++ [] := divides.reader.cut
  have shape := divides.shape
  have whole {origin : Token.Origin} (starts : Lexeme.Starts (body ++ []) (.whole origin body [])) :
      Lexeme.runFrom suffixes (Text.byteLength front) (body ++ []) =
        ⟨[⟨String.ofList body, Text.byteLength front, origin⟩], none⟩ := by
    rw [Lexeme.runFrom_whole starts, Lexeme.runFrom_nil, Lexeme.tokens_last]
    rfl
  rw [Machine.conclude, if_pos atEnd, divides.runFrom]
  rcases mode : machine.mode with _ | span | span | ⟨radix, span⟩ | span | ⟨quote, span⟩
  all_goals rw [mode] at shape
  case between =>
    subst shape
    rw [List.append_nil, Lexeme.runFrom_nil]
    simp [Run.prepend, pure, Except.pure]
  case numeral =>
    obtain ⟨rfl, shape⟩ := shape
    have starts : Lexeme.Starts (body ++ []) (.whole .decimal body []) := by
      rcases shape with digits | scaled
      · exact Lexeme.starts_digits digits (fun _ => rfl) (by simp)
      · exact Lexeme.starts_scaled scaled (by simp)
    simp only [Span.ofBody_token cut starts.append.2, whole starts]
    rfl
  case exponent =>
    obtain ⟨rfl, shape⟩ := shape
    have starts := Lexeme.starts_missing shape
    rw [List.append_nil, Lexeme.runFrom_broken starts, size]
    simp [Run.prepend, pure, Except.pure, Span.ofBody]
  case based =>
    obtain ⟨rfl, shape⟩ := shape
    have starts : Lexeme.Starts (body ++ []) (.whole (.based radix) body []) :=
      Lexeme.starts_based shape (by simp)
    simp only [Span.ofBody_token cut starts.append.2, whole starts]
    rfl
  case plain =>
    obtain ⟨rfl, shape⟩ := shape
    have starts : Lexeme.Starts (body ++ []) (.whole .plain body []) :=
      Lexeme.starts_plain shape (by simp)
    simp only [Span.ofBody_token cut starts.append.2, whole starts]
    rfl
  case quotation =>
    obtain ⟨rfl, shape⟩ := shape
    have starts := Lexeme.starts_unclosed shape
    rw [List.append_nil, Lexeme.runFrom_broken starts, size]
    simp [Run.prepend, pure, Except.pure, Span.ofBody]

/-- A turn keeps the machine in step with the lexemes, or it gives their run. -/
inductive Turn.Fits (suffixes : Suffixes) (source : String) : Turn → Prop where
  | more {next : Machine} {front body rest : List Char}
      (divides : next.Divides suffixes source front body rest) : Fits suffixes source (.more next)
  | done {run : Run} (same : run = Lexeme.runFrom suffixes 0 source.toList) :
      Fits suffixes source (.done run)

/-- The lexemes that a reaction gives are covered too. -/
theorem Divides.emit {piece : List Char} {given : List Token}
    (divides : machine.Divides suffixes source front body rest) {after : List Char}
    (covers : Lexeme.Covers suffixes (Text.byteLength front) piece after given)
    (same : piece ++ after = body ++ rest) :
    Lexeme.Covers suffixes 0 (front ++ piece) after (machine.emitted ++ given).toList := by
  have before := divides.covers
  rw [← same] at before
  have whole := before.append (by simpa using covers)
  simpa using whole

/-- A machine whose token grows by a character is in step with the lexemes. -/
theorem Divides.grow {c : Char} (divides : machine.Divides suffixes source front body (c :: rest))
    {mode : Mode} (shape : mode.Shape front (body ++ [c])) :
    Machine.Divides
      ⟨{ machine.reader with position := machine.reader.position + c.utf8Size }, mode,
        machine.emitted ++ ([] : List Token)⟩ suffixes source front (body ++ [c]) rest where
  text := divides.text
  reader := by simpa using divides.reader.past
  covers := by simpa using divides.covers
  shape := shape

/-- Every turn comes without a fault and keeps the machine in step with the lexemes. -/
theorem Divides.turn (divides : machine.Divides suffixes source front body rest) :
    ∃ turn, machine.turn suffixes = .ok turn ∧ turn.Fits suffixes source := by
  obtain ⟨here, body, rest, skipped, divides⟩ := divides.skipQuoted
  cases rest with
  | nil =>
      have turns : machine.Turns suffixes (.done (Lexeme.runFrom suffixes 0 source.toList)) :=
        .ended skipped divides.reader.peek divides.conclude
      exact ⟨_, turn_eq_ok_iff.mpr turns, .done rfl⟩
  | cons c rest =>
      obtain ⟨reaction, reacted, fits⟩ :=
        Mode.react_fits suffixes divides.reader divides.shape
      have reacts : machine.Reacts suffixes here c reaction :=
        ⟨skipped, divides.reader.peek, reacted⟩
      cases fits with
      | grow shape => exact ⟨_, turn_eq_ok_iff.mpr (.past reacts), .more (divides.grow shape)⟩
      | close covers =>
          have stands := divides.reader.past
          have emitted := divides.emit covers (by simp)
          exact ⟨_, turn_eq_ok_iff.mpr (.past reacts),
            .more ⟨divides.text, by simpa using stands, emitted, rfl⟩⟩
      | reread covers =>
          have emitted := divides.emit covers rfl
          exact ⟨_, turn_eq_ok_iff.mpr (.again reacts),
            .more ⟨divides.text, by simpa using divides.reader, emitted, rfl⟩⟩
      | reject starts =>
          have run := divides.runFrom
          rw [Lexeme.runFrom_broken starts, ← Text.byteLength_append] at run
          exact ⟨_, turn_eq_ok_iff.mpr (.reject reacts), .done (by simp [run, Run.prepend])⟩

/-- Every machine that a run reaches is in step with the lexemes. -/
theorem divides_of_reaches (reached : Reaches suffixes (Machine.start source) machine) :
    ∃ front body rest, machine.Divides suffixes source front body rest := by
  induction reached with
  | refl => exact ⟨[], [], source.toList, Divides.start suffixes source⟩
  | turn _ turned inductionHypothesis =>
      obtain ⟨front, body, rest, divides⟩ := inductionHypothesis
      obtain ⟨turn, same, fits⟩ := divides.turn
      rw [turned] at same
      cases same
      cases fits with
      | more divides => exact ⟨_, _, _, divides⟩

/-- The run of a machine that is in step with the lexemes is their run. -/
theorem Divides.run (divides : machine.Divides suffixes source front body rest) :
    machine.run suffixes = .ok (Lexeme.runFrom suffixes 0 source.toList) := by
  induction size : machine.remaining using Nat.strong_induction_on
    generalizing machine front body rest with
  | _ size inductionHypothesis =>
      obtain ⟨turn, turned, fits⟩ := divides.turn
      rw [run_turn, turned]
      cases fits with
      | more divides =>
          have fewer := turn_remaining turned
          exact inductionHypothesis _ (size ▸ fewer) divides rfl
      | done same => rw [same]

end Machine

/-- The lexer always comes to a run, which is that of the lexemes. -/
theorem lex_eq_ok_iff {suffixes : Suffixes} {source : String} {run : Run} :
    lex suffixes source = .ok run ↔ run = Lexeme.runFrom suffixes 0 source.toList := by
  have known : lex suffixes source = _ := (Machine.Divides.start suffixes source).run
  rw [known, Except.ok.injEq, eq_comm]

/-- The lexer reads one lexeme after the other. It needs no memory beyond the offset. -/
theorem lex_eq_runFrom (suffixes : Suffixes) (source : String) :
    lex suffixes source = .ok (Lexeme.runFrom suffixes 0 source.toList) :=
  lex_eq_ok_iff.mpr rfl

end ExprLexer
