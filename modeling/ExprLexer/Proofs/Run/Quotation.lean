/-
This file follows the machine through a quotation. The machine jumps from quote to quote and counts
escapes backwards, and it closes the quotation where a pass over all characters finds the first
quote that is not escaped.
-/

import ExprLexer.Proofs.Lexeme.Escaping
import ExprLexer.Proofs.Run.Rejection

namespace ExprLexer

namespace Machine

/-- Turns that start inside one quotation lead from a machine to another. -/
inductive Scans (suffixes : Suffixes) (quote : Char) (start : Nat) : Machine → Machine → Prop where
  | refl (machine : Machine) : Scans suffixes quote start machine machine
  | turn {first next last : Machine} {stop : Nat}
      (inside : first.mode = .quotation quote ⟨start, stop⟩)
      (turned : first.turn suffixes = .ok (.more next))
      (later : Scans suffixes quote start next last) : Scans suffixes quote start first last

/-- The next turn of a machine opens a quotation, and the turns inside it lead to the machine that
has closed it. -/
def Closes (suffixes : Suffixes) (machine : Machine) (quote : Char) (closed : Machine) : Prop :=
  ∃ opened stop, machine.turn suffixes = .ok (.more opened) ∧
    opened.mode = .quotation quote ⟨machine.reader.position, stop⟩ ∧
    Scans suffixes quote machine.reader.position opened closed ∧ closed.mode = .between

variable {suffixes : Suffixes} {source : String} {quote : Char} {start : Nat} {span : Span}
  {machine first last other closed : Machine} {front body inner after rest : List Char}

theorem Scans.reaches (scans : Scans suffixes quote start first last) :
    Reaches suffixes first last := by
  induction scans with
  | refl machine => exact .refl machine
  | turn _ turned _ inductionHypothesis => exact inductionHypothesis.head turned

/-- The scan of a quotation ends at one machine only. -/
theorem Scans.unique (scans : Scans suffixes quote start first last)
    (also : Scans suffixes quote start first other) (ends : last.mode = .between)
    (stops : other.mode = .between) : last = other := by
  induction scans with
  | refl machine =>
      cases also with
      | refl => rfl
      | turn inside => cases inside.symm.trans ends
  | turn inside turned _ inductionHypothesis =>
      cases also with
      | refl => cases inside.symm.trans stops
      | turn _ again later =>
          cases turned.symm.trans again
          exact inductionHypothesis later ends

theorem Closes.unique (closes : machine.Closes suffixes quote closed)
    (also : machine.Closes suffixes quote other) : closed = other := by
  obtain ⟨opened, _, turned, _, scans, ends⟩ := closes
  obtain ⟨twin, _, again, _, twinScans, twinEnds⟩ := also
  cases turned.symm.trans again
  exact scans.unique twinScans ends twinEnds

theorem Divides.position (divides : machine.Divides suffixes source front [] rest) :
    machine.reader.position = Text.byteLength front := by
  simpa using divides.reader.position

/-- Between tokens a quote opens a quotation. -/
theorem Divides.opens (divides : machine.Divides suffixes source front [] (quote :: rest))
    (between : machine.mode = .between) (quotes : quote ∈ Category.quote) :
    ∃ opened, machine.turn suffixes = .ok (.more opened) ∧ opened.emitted = machine.emitted ∧
      opened.mode = .quotation quote (.ofBody front [quote]) ∧
      opened.Divides suffixes source front [quote] rest := by
  have stands := divides.reader
  rw [List.append_nil] at stands
  have notBlank := Category.Apart.not_mem (by decide : Category.Apart .quote .whitespace) quotes
  have notStructural :=
    Category.Apart.not_mem (by decide : Category.Apart .quote .structural) quotes
  have reacted : machine.mode.react suffixes machine.reader quote =
      .ok (.past (.quotation quote (.ofBody front [quote])) []) := by
    rw [between, Mode.react, Reaction.between, if_neg notBlank, if_neg notStructural,
      if_pos quotes, Span.ofChar_eq_ofBody stands]
    rfl
  have reacts : machine.Reacts suffixes machine quote _ :=
    ⟨skipQuoted_between between, stands.peek, reacted⟩
  have shape : Mode.Shape front ([] ++ [quote]) (.quotation quote (.ofBody front [quote])) :=
    ⟨rfl, [], rfl, quotes, rfl⟩
  exact ⟨_, turn_eq_ok_iff.mpr (.past reacts), by simp, rfl, divides.grow shape⟩

/-- Inside a quotation the machine reacts to the next quote. The quote closes the quotation if an
even number of escapes stands right before it. -/
theorem Divides.reacts_quote
    (divides : machine.Divides suffixes source front body (inner ++ quote :: after))
    (inside : machine.mode = .quotation quote span) (absent : quote ∉ inner) :
    ∃ here, here.emitted = machine.emitted ∧
      here.mode = .quotation quote (.ofBody front (body ++ inner)) ∧
      here.Divides suffixes source front (body ++ inner) (quote :: after) ∧
      machine.Reacts suffixes here quote
        (if Lexeme.escapesBefore (body ++ inner) % 2 = 0 then
          .past .between
            [⟨String.ofList (body ++ inner ++ [quote]), Text.byteLength front, .quotation quote⟩]
        else
          .past (.quotation quote (.ofBody front (body ++ inner ++ [quote]))) []) := by
  have differ : ∀ c ∈ inner, decide (c ≠ quote) = true := by
    intro c member
    exact decide_eq_true fun same => absent (same ▸ member)
  obtain ⟨here, skipped, emitted, mode, divides⟩ := divides.skipQuoted_inside inside
  rw [List.takeWhile_append_of_pos differ, List.takeWhile_cons_of_neg (by simp), List.append_nil]
    at mode divides
  rw [List.dropWhile_append_of_pos differ, List.dropWhile_cons_of_neg (by simp)] at divides
  have shape := divides.shape
  rw [mode] at shape
  have reacted := Reaction.quotation_eq divides.reader shape.2.quotes
  simp only [true_and] at reacted
  refine ⟨here, emitted, mode, divides, skipped, divides.reader.peek, ?_⟩
  rw [mode]
  exact reacted

/-- A quote with an odd number of escapes right before it leaves the machine in the quotation. -/
theorem Divides.turn_escaped
    (divides : machine.Divides suffixes source front body (inner ++ quote :: after))
    (inside : machine.mode = .quotation quote span) (absent : quote ∉ inner)
    (odd : ¬ Lexeme.escapesBefore (body ++ inner) % 2 = 0) :
    ∃ next, machine.turn suffixes = .ok (.more next) ∧ next.emitted = machine.emitted ∧
      next.mode = .quotation quote (.ofBody front (body ++ inner ++ [quote])) ∧
      next.Divides suffixes source front (body ++ inner ++ [quote]) after := by
  obtain ⟨here, emitted, mode, divides, reacts⟩ := divides.reacts_quote inside absent
  have shape := divides.shape
  rw [mode] at shape
  have opened : Lexeme.closeQuote quote (Lexeme.escapesBefore (body ++ inner)) [quote] = none := by
    rw [Lexeme.closeQuote_cons, if_neg fun closes => odd closes.2]
    rfl
  have longer : Mode.Shape front (body ++ inner ++ [quote])
      (.quotation quote (.ofBody front (body ++ inner ++ [quote]))) :=
    ⟨rfl, shape.2.append opened⟩
  rw [if_neg odd] at reacts
  exact ⟨_, turn_eq_ok_iff.mpr (.past reacts), by simp [emitted], rfl, divides.grow longer⟩

/-- A quote with an even number of escapes right before it closes the quotation. -/
theorem Divides.turn_closing
    (divides : machine.Divides suffixes source front body (inner ++ quote :: after))
    (inside : machine.mode = .quotation quote span) (absent : quote ∉ inner)
    (even : Lexeme.escapesBefore (body ++ inner) % 2 = 0) :
    ∃ closed, machine.turn suffixes = .ok (.more closed) ∧ closed.mode = .between ∧
      closed.reader.position = Text.byteLength (front ++ (body ++ inner ++ [quote])) ∧
      closed.emitted = machine.emitted.push
        ⟨String.ofList (body ++ inner ++ [quote]), Text.byteLength front, .quotation quote⟩ := by
  obtain ⟨here, emitted, _, divides, reacts⟩ := divides.reacts_quote inside absent
  rw [if_pos even] at reacts
  have place := divides.reader.past.position
  rw [List.append_assoc front] at place
  exact ⟨_, turn_eq_ok_iff.mpr (.past reacts), rfl, place, by simp [emitted]⟩

/-- The machine scans the quotation up to the quote behind a list that stays open, if an even number
of escapes stands right before that quote. -/
theorem Divides.scans
    (divides : machine.Divides suffixes source front body (inner ++ quote :: after))
    (inside : machine.mode = .quotation quote span)
    (opened : Lexeme.closeQuote quote (Lexeme.escapesBefore body) inner = none)
    (even : Lexeme.escapesBefore (body ++ inner) % 2 = 0) :
    ∃ closed, Scans suffixes quote (Text.byteLength front) machine closed ∧
      closed.mode = .between ∧
      closed.reader.position = Text.byteLength (front ++ (body ++ inner ++ [quote])) ∧
      closed.emitted = machine.emitted.push
        ⟨String.ofList (body ++ inner ++ [quote]), Text.byteLength front, .quotation quote⟩ := by
  -- Each turn goes to the next quote, so the induction is on the characters that are left.
  induction size : inner.length using Nat.strong_induction_on
    generalizing machine body inner span with
  | _ length inductionHypothesis =>
      have shape := divides.shape
      rw [inside] at shape
      obtain ⟨rfl, _⟩ := shape
      by_cases absent : quote ∉ inner
      · obtain ⟨closed, turned, mode, place, emitted⟩ := divides.turn_closing inside absent even
        exact ⟨closed, .turn inside turned (.refl closed), mode, place, emitted⟩
      · obtain ⟨before, more, rfl, first⟩ := List.eq_append_cons_of_mem (not_not.mp absent)
        rw [Lexeme.closeQuote_eq_none_iff] at opened
        have odd := opened before more rfl
        rw [List.append_assoc, List.cons_append] at divides
        obtain ⟨next, turned, emitted, mode, divides⟩ :=
          divides.turn_escaped inside first (by omega)
        have later : Lexeme.closeQuote quote
            (Lexeme.escapesBefore (body ++ before ++ [quote])) more = none := by
          rw [Lexeme.closeQuote_eq_none_iff]
          intro within behind cut
          simpa using opened (before ++ quote :: within) behind (by simp [cut])
        have whole : body ++ before ++ [quote] ++ more = body ++ (before ++ quote :: more) := by
          simp
        have fewer : more.length < length := by
          rw [← size, List.length_append, List.length_cons]
          omega
        obtain ⟨closed, scans, ends⟩ :=
          inductionHypothesis more.length fewer divides mode later (whole ▸ even) rfl
        rw [whole, emitted] at ends
        exact ⟨closed, .turn inside turned scans, ends⟩

/-- What is wrong with a source behind an offset where the machine is between tokens starts there or
later. -/
theorem Divides.literal_start (divides : machine.Divides suffixes source front [] rest)
    {rejection : Rejection}
    (rejects : (Lexeme.runFrom suffixes 0 source.toList).rejection = some rejection) :
    Text.byteLength front ≤ rejection.literal.start := by
  rw [divides.runFrom, List.nil_append] at rejects
  rcases Lexeme.runFrom_cases suffixes (Text.byteLength front) rest with
    ⟨given, _, finished⟩ | ⟨_, _, _, defect, _, _, _, _, broken⟩
  · rw [finished] at rejects
    cases rejects
  · rw [broken] at rejects
    cases rejects
    rw [Rejection.ofDefect, defect.literal_start]
    exact Nat.le_add_right _ _

/-- If the machine closes a quotation, then what is wrong with the source starts behind its
opening. -/
theorem Closes.literal_start (reached : Reaches suffixes (Machine.start source) machine)
    (closes : machine.Closes suffixes quote closed) {rejection : Rejection}
    (rejects : (Lexeme.runFrom suffixes 0 source.toList).rejection = some rejection) :
    machine.reader.position < rejection.literal.start := by
  obtain ⟨opened, stop, turned, inside, scans, ends⟩ := closes
  obtain ⟨front, body, _, divides⟩ := divides_of_reaches (.turn reached turned)
  have shape := divides.shape
  rw [inside] at shape
  obtain ⟨span, inner, rfl, _⟩ := shape
  have start : machine.reader.position = Text.byteLength front := congrArg Span.start span
  have wide : 0 < Text.byteLength (quote :: inner) :=
    Text.byteLength_pos_iff.mpr (List.cons_ne_nil quote inner)
  have further := scans.reaches.position_le
  obtain ⟨whole, body, _, later⟩ :=
    divides_of_reaches ((Reaches.turn reached turned).trans scans.reaches)
  cases later.body_eq_nil ends
  have behind := later.literal_start rejects
  rw [divides.reader.position, later.reader.position, List.append_nil, Text.byteLength_append]
    at further
  omega

/-- The machine closes a quotation at the quote behind a list that stays open, if an even number of
escapes stands right before that quote. -/
theorem Divides.closes
    (divides : machine.Divides suffixes source front [] (quote :: (inner ++ quote :: after)))
    (between : machine.mode = .between) (quotes : quote ∈ Category.quote)
    (opened : Lexeme.closeQuote quote (Lexeme.escapesBefore [quote]) inner = none)
    (even : Lexeme.escapesBefore ([quote] ++ inner) % 2 = 0) :
    ∃ closed, machine.Closes suffixes quote closed ∧
      closed.reader.position = Text.byteLength (front ++ ([quote] ++ inner ++ [quote])) ∧
      closed.emitted = machine.emitted.push
        ⟨String.ofList ([quote] ++ inner ++ [quote]), Text.byteLength front,
          .quotation quote⟩ := by
  have start := divides.position
  obtain ⟨first, turned, emitted, inside, later⟩ := divides.opens between quotes
  obtain ⟨closed, scans, ends, place, given⟩ := later.scans inside opened even
  have opening : first.mode =
      .quotation quote ⟨machine.reader.position, Text.byteLength (front ++ [quote])⟩ := by
    rw [inside, start]
    rfl
  rw [emitted] at given
  rw [← start] at scans
  exact ⟨closed, ⟨first, _, turned, opening, scans, ends⟩, place, given⟩

/-- The machine rejects a quotation that stays open. -/
theorem Divides.unclosed (divides : machine.Divides suffixes source front [] (quote :: rest))
    (quotes : quote ∈ Category.quote)
    (opened : Lexeme.closeQuote quote (Lexeme.escapesBefore [quote]) rest = none) :
    (Lexeme.runFrom suffixes 0 source.toList).rejection =
      some ⟨.unclosedQuote quote, source.utf8ByteSize, .quotation (Text.byteLength front)⟩ := by
  have notEscape := Category.Apart.not_mem (by decide : Category.Apart .quote .escape) quotes
  rw [Lexeme.escapesBefore_cons notEscape] at opened
  have starts := Lexeme.starts_unclosed ⟨rest, rfl, quotes, opened⟩
  have size : source.utf8ByteSize = Text.byteLength front + Text.byteLength (quote :: rest) := by
    have cut := divides.cut
    rw [List.append_nil] at cut
    exact Text.utf8ByteSize_cut cut
  rw [divides.runFrom, List.nil_append, Lexeme.runFrom_broken starts, size]
  rfl

/-- The machine closes a quotation or rejects it, and never both. -/
theorem Divides.unclosed_iff (reached : Reaches suffixes (Machine.start source) machine)
    (divides : machine.Divides suffixes source front [] (quote :: rest))
    (between : machine.mode = .between) (quotes : quote ∈ Category.quote) :
    Lexeme.closeQuote quote (Lexeme.escapesBefore [quote]) rest = none ↔
      (Lexeme.runFrom suffixes 0 source.toList).rejection =
        some ⟨.unclosedQuote quote, source.utf8ByteSize,
          .quotation machine.reader.position⟩ := by
  rw [divides.position]
  constructor
  · exact divides.unclosed quotes
  · intro rejects
    rw [Option.eq_none_iff_forall_ne_some]
    intro parts found
    obtain ⟨inner, rfl, _, opened, even⟩ := (Lexeme.closeQuote_eq_some_iff [quote]).mp found
    obtain ⟨closed, closes, _⟩ := divides.closes between quotes opened even
    have behind := closes.literal_start reached rejects
    rw [divides.position] at behind
    exact Nat.lt_irrefl _ behind

/-- A quotation that the machine closes ends at the first quote that has an even number of escapes
right before it. -/
theorem Closes.ending (closes : machine.Closes suffixes quote closed)
    (reached : Reaches suffixes (Machine.start source) machine)
    (divides : machine.Divides suffixes source front [] (quote :: rest))
    (between : machine.mode = .between) (quotes : quote ∈ Category.quote) :
    ∃ inner after, rest = inner ++ quote :: after ∧
      Lexeme.closeQuote quote (Lexeme.escapesBefore [quote]) inner = none ∧
      Lexeme.escapesBefore ([quote] ++ inner) % 2 = 0 ∧
      closed.reader.position = Text.byteLength (front ++ ([quote] ++ inner ++ [quote])) ∧
      closed.emitted = machine.emitted.push
        ⟨String.ofList ([quote] ++ inner ++ [quote]), Text.byteLength front,
          .quotation quote⟩ := by
  have start := divides.position
  rcases found : Lexeme.closeQuote quote (Lexeme.escapesBefore [quote]) rest with _ | parts
  · have behind := closes.literal_start reached (divides.unclosed quotes found)
    rw [start] at behind
    exact absurd behind (Nat.lt_irrefl _)
  · obtain ⟨inner, rfl, _, opened, even⟩ := (Lexeme.closeQuote_eq_some_iff [quote]).mp found
    obtain ⟨twin, also, facts⟩ := divides.closes between quotes opened even
    rw [closes.unique also]
    exact ⟨inner, parts.2, rfl, opened, even, facts⟩

/-- The machine closes a quotation at the quote where the pass over the characters behind the first
quote stops. -/
theorem Divides.closes_iff (divides : machine.Divides suffixes source front [] (quote :: rest))
    (reached : Reaches suffixes (Machine.start source) machine)
    (between : machine.mode = .between) (quotes : quote ∈ Category.quote) {place : Nat} :
    Lexeme.unescapedQuote? quote (machine.reader.position + quote.utf8Size)
        (decide (Lexeme.escapesBefore [quote] % 2 = 1)) rest = some place ↔
      ∃ closed, machine.Closes suffixes quote closed ∧
        closed.reader.position = place + quote.utf8Size := by
  have start := divides.position
  rw [Lexeme.unescapedQuote?_eq_some_iff]
  constructor
  · rintro ⟨inner, after, rfl, opened, even, rfl⟩
    obtain ⟨closed, closes, place, _⟩ := divides.closes between quotes opened even
    exact ⟨closed, closes, by simp [place, start, Nat.add_assoc]⟩
  · rintro ⟨closed, closes, place⟩
    obtain ⟨inner, after, same, opened, even, ending, _⟩ :=
      closes.ending reached divides between quotes
    refine ⟨inner, after, same, opened, even, ?_⟩
    rw [place] at ending
    simp only [Text.byteLength_append, Text.byteLength_cons, Text.byteLength_nil] at ending
    omega

/-- The token of a quotation is all of the source from its first quote to its last. -/
theorem Closes.token (closes : machine.Closes suffixes quote closed)
    (reached : Reaches suffixes (Machine.start source) machine)
    (divides : machine.Divides suffixes source front [] (quote :: rest))
    (between : machine.mode = .between) (quotes : quote ∈ Category.quote) :
    ∃ text, Text.slice source machine.reader.position closed.reader.position = .ok text ∧
      closed.emitted = machine.emitted.push
        ⟨text, machine.reader.position, .quotation quote⟩ := by
  obtain ⟨inner, after, rfl, _, _, ending, emitted⟩ :=
    closes.ending reached divides between quotes
  have whole : source.toList = front ++ ([quote] ++ inner ++ [quote]) ++ after := by
    simpa using divides.cut
  rw [divides.position, ending]
  exact ⟨_, Text.slice_cut whole, emitted⟩

end Machine

/-- Where the machine meets a quote between tokens, it closes the quotation at the first quote that
a pass over the characters behind it finds unescaped. The token is all of the source from the one
quote to the other. The machine rejects the quotation exactly if the pass finds nothing. -/
theorem lex_quotation {suffixes : Suffixes} {source : String} {machine : Machine} {quote : Char}
    (reached : Machine.Reaches suffixes (Machine.start source) machine)
    (between : machine.mode = .between) (meets : machine.reader.peek = .ok (some quote))
    (quotes : quote ∈ Category.quote) :
    ∃ run behind, lex suffixes source = .ok run ∧
      Text.slice source (machine.reader.position + quote.utf8Size) source.utf8ByteSize =
        .ok behind ∧
      (∀ place, Lexeme.unescapedQuote? quote (machine.reader.position + quote.utf8Size) false
          behind.toList = some place ↔
        ∃ closed, machine.Closes suffixes quote closed ∧
          closed.reader.position = place + quote.utf8Size) ∧
      (∀ closed, machine.Closes suffixes quote closed →
        ∃ text, Text.slice source machine.reader.position closed.reader.position = .ok text ∧
          closed.emitted = machine.emitted.push
            ⟨text, machine.reader.position, .quotation quote⟩) ∧
      (Lexeme.unescapedQuote? quote (machine.reader.position + quote.utf8Size) false
          behind.toList = none ↔
        run.rejection = some ⟨.unclosedQuote quote, source.utf8ByteSize,
          .quotation machine.reader.position⟩) := by
  obtain ⟨front, body, rest, divides⟩ := Machine.divides_of_reaches reached
  cases divides.body_eq_nil between
  obtain ⟨behind, rfl⟩ := divides.reader.of_peek meets
  have sliced : Text.slice source (machine.reader.position + quote.utf8Size) source.utf8ByteSize =
      .ok (String.ofList behind) := by
    have cut : source.toList = front ++ [quote] ++ behind := by simpa using divides.cut
    have second : machine.reader.position + quote.utf8Size =
        Text.byteLength (front ++ [quote]) := by simp [divides.position]
    rw [second]
    exact Text.slice_behind cut
  -- The first quote is no escape, so the pass starts with its flag down.
  have flag : false = decide (Lexeme.escapesBefore [quote] % 2 = 1) := by
    have notEscape := Category.Apart.not_mem (by decide : Category.Apart .quote .escape) quotes
    rw [Lexeme.escapesBefore_cons notEscape]
    rfl
  refine ⟨_, _, lex_eq_ok_iff.mpr rfl, sliced, fun place => ?_, fun closed closes => ?_, ?_⟩
  · rw [String.toList_ofList, flag]
    exact divides.closes_iff reached between quotes
  · exact closes.token reached divides between quotes
  · rw [String.toList_ofList, flag, Lexeme.unescapedQuote?_eq_none_iff]
    exact divides.unclosed_iff reached between quotes

/-- The second quote is escaped, and the third one is of the other sort. -/
theorem lex_quotation_mixed : ∃ closed,
    (Machine.start "\x27\x5c\x27é\x22\x27 b").Closes .standard '\x27' closed ∧
      closed.reader.position = 7 ∧
      closed.emitted = #[⟨"\x27\x5c\x27é\x22\x27", 0, .quotation '\x27'⟩] := by
  have meets : (Machine.start "\x27\x5c\x27é\x22\x27 b").reader.peek = .ok (some '\x27') := by
    decide +kernel
  obtain ⟨run, behind, _, sliced, closing, emits, _⟩ :=
    @lex_quotation .standard _ _ _ (.refl _) rfl meets (by decide)
  have known : Text.slice "\x27\x5c\x27é\x22\x27 b" 1 9 = .ok "\x5c\x27é\x22\x27 b" := by
    decide +kernel
  have same : behind = "\x5c\x27é\x22\x27 b" := Except.ok.inj (sliced.symm.trans known)
  rw [same] at closing
  obtain ⟨closed, closes, place⟩ := (closing 6).mp (by decide)
  obtain ⟨text, piece, emitted⟩ := emits closed closes
  rw [place] at piece
  have known : Text.slice "\x27\x5c\x27é\x22\x27 b" 0 7 = .ok "\x27\x5c\x27é\x22\x27" := by
    decide +kernel
  have same : text = "\x27\x5c\x27é\x22\x27" := Except.ok.inj (piece.symm.trans known)
  rw [same] at emitted
  exact ⟨closed, closes, place, emitted⟩

end ExprLexer
