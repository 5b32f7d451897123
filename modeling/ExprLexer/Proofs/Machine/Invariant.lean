/-
This file gives the invariant of a run. The emitted tokens use up the source before the token that
is being read, and the text of that token has the shape that its mode stands for.
-/

import ExprLexer.Proofs.Machine.Soundness
import ExprLexer.Proofs.Machine.Transition

namespace ExprLexer

/-- The text of a span holds an exponent marker. -/
def Span.Marked (span : Span) (source : String) : Prop :=
  ∃ text, Text.slice source span.start span.stop = .ok text ∧
    ∃ c ∈ text.toList, c ∈ Category.exponent

theorem Span.extend_eq_ok_iff {span longer : Span} {reader : Reader} {c : Char} :
    span.extend reader c = .ok longer ↔
      span.stop = reader.position ∧ longer = ⟨span.start, span.stop + c.utf8Size⟩ := by
  rw [extend]
  split
  · next same => simp [same, eq_comm]
  · next other => simp [other]

namespace Mode

/-- What a mode says about the text that was read in it. -/
def Reads (text : List Char) : Mode → Prop
  | .between => text = []
  | .numeral _ => Lexeme.IsDigits text ∨ Lexeme.IsScaled text
  | .exponent _ => Lexeme.IsMarked text
  | .based radix _ => Lexeme.IsBased radix text
  | .plain _ => Lexeme.IsPlainRun text
  | .quotation quote _ =>
      -- Every quote behind the first has an odd number of escapes right before it.
      ∃ inner, text = quote :: inner ∧ quote ∈ Category.quote ∧
        ∀ before after, inner = before ++ quote :: after → Lexeme.escapesBefore before % 2 = 1

theorem Shape.reads {front body : List Char} {mode : Mode} (shape : mode.Shape front body) :
    mode.Reads body := by
  cases mode with
  | between => exact shape
  | numeral => exact shape.2
  | exponent => exact shape.2
  | based => exact shape.2
  | plain => exact shape.2
  | quotation quote span =>
      obtain ⟨_, inner, same, quotes, opened⟩ := shape
      exact ⟨inner, same, quotes, (Lexeme.closeQuote_eq_none_iff []).mp opened⟩

/-- A numeral without a radix starts at its first character, or it was one before, or it waited for
its exponent. -/
theorem react_numeral {suffixes : Suffixes} {reader : Reader} {c : Char} {mode : Mode} {span : Span}
    {tokens : List Token}
    (reacted : mode.react suffixes reader c = .ok (.past (.numeral span) tokens)) :
    (mode = .between ∧ c ∈ Category.numberBody ∧ span = .ofChar reader c) ∨
      (∃ shorter, mode = .numeral shorter ∧ c ∈ Category.numberBody ∧
        shorter.extend reader c = .ok span) ∨
      ∃ shorter, mode = .exponent shorter ∧ shorter.extend reader c = .ok span := by
  cases react_leads reacted with
  | grow grows =>
      cases grows with
      | counts number => exact .inl ⟨rfl, number, rfl⟩
      | number number extended => exact .inr (.inl ⟨_, rfl, number, extended⟩)
      | sign _ extended => exact .inr (.inr ⟨_, rfl, extended⟩)

end Mode

namespace Machine

/-- All emitted tokens lie before this offset, and the token that is being read starts there. -/
def settled (machine : Machine) : Nat :=
  match machine.mode.span? with
  | none => machine.reader.position
  | some span => span.start

/-- On its way to a machine a run waited for the exponent of the numeral at an offset. -/
def Awaited (machine : Machine) (suffixes : Suffixes) (source : String) (start : Nat) : Prop :=
  ∃ earlier stop, Reaches suffixes (Machine.start source) earlier ∧
    Reaches suffixes earlier machine ∧ earlier.mode = .exponent ⟨start, stop⟩

/-- The invariant of the loop. -/
structure Invariant (machine : Machine) (suffixes : Suffixes) (source : String) : Prop where
  text : machine.reader.text = source
  emitted : Token.Partition source 0 machine.settled machine.emitted.toList
  /-- The token that is being read ends at the reader, and its text has the shape of the mode. -/
  reading : ∀ span ∈ machine.mode.span?, span.start < span.stop ∧
    span.stop = machine.reader.position ∧
    ∃ text, Text.slice source span.start span.stop = .ok text ∧ machine.mode.Reads text.toList
  /-- The text tells whether an exponent was awaited, so no flag is kept. -/
  exponent : ∀ span, machine.mode = .numeral span →
    (span.Marked source ↔ machine.Awaited suffixes source span.start)

variable {suffixes : Suffixes} {source : String} {machine here next : Machine} {span : Span}
  {front body rest : List Char} {c : Char}

theorem Awaited.turn {start : Nat} (awaited : machine.Awaited suffixes source start)
    (turned : machine.turn suffixes = .ok (.more next)) : next.Awaited suffixes source start := by
  obtain ⟨earlier, stop, reached, further, waits⟩ := awaited
  exact ⟨earlier, stop, reached, further.turn turned, waits⟩

theorem Divides.settled_eq (divides : machine.Divides suffixes source front body rest) :
    machine.settled = Text.byteLength front := by
  rw [settled]
  split
  · next nothing =>
      have between : machine.mode = .between := by
        cases mode : machine.mode <;> rw [mode] at nothing <;> trivial
      cases divides.body_eq_nil between
      simpa using divides.reader.position
  · next span reading =>
      obtain ⟨rfl, _⟩ := divides.shape.span span reading
      rfl

/-- The text of the token that is being read. -/
theorem Divides.slice_eq (divides : machine.Divides suffixes source front body rest)
    (reading : span ∈ machine.mode.span?) :
    Text.slice source span.start span.stop = .ok (String.ofList body) := by
  obtain ⟨rfl, _⟩ := divides.shape.span span reading
  exact Text.slice_cut divides.cut

/-- A token that grows has the text that it had before and the next character. -/
theorem Divides.slice_longer (divides : machine.Divides suffixes source front body rest)
    (found : machine.reader.peek = .ok (some c)) {shorter : Span}
    (reading : shorter ∈ machine.mode.span?)
    (extended : shorter.extend machine.reader c = .ok span) :
    span.start = shorter.start ∧
      Text.slice source span.start span.stop = .ok ((String.ofList body).push c) := by
  obtain ⟨stop, rfl⟩ := Span.extend_eq_ok_iff.mp extended
  rw [Reader.peek, divides.text, ← stop] at found
  exact ⟨rfl, Text.slice_push (divides.slice_eq reading) found⟩

/-- A token starts with the text of its first character. -/
theorem Divides.slice_ofChar (divides : machine.Divides suffixes source front body rest)
    (between : machine.mode = .between) (found : machine.reader.peek = .ok (some c)) :
    Text.slice source (Span.ofChar machine.reader c).start (Span.ofChar machine.reader c).stop =
      .ok (String.ofList [c]) := by
  cases divides.body_eq_nil between
  have stands := divides.reader
  obtain ⟨after, rfl⟩ := stands.of_peek found
  have cut : source.toList = front ++ [c] ++ after := by simpa using divides.cut
  rw [List.append_nil] at stands
  rw [Span.ofChar_eq_ofBody stands]
  exact Text.slice_cut cut

/-- A numeral that holds an exponent marker held it before the last turn, unless that turn read what
follows the marker. -/
theorem Divides.marked_before (divides : machine.Divides suffixes source front body rest)
    (turned : machine.turn suffixes = .ok (.more next)) (inside : next.mode = .numeral span)
    (marked : span.Marked source) :
    (∃ shorter, machine.mode = .numeral shorter ∧ shorter.start = span.start ∧
        shorter.Marked source) ∨
      ∃ stop, machine.mode = .exponent ⟨span.start, stop⟩ := by
  obtain ⟨text, sliced, marker, member, marks⟩ := marked
  have unmarked : marker ∉ Category.numberBody := fun number =>
    Category.Apart.not_mem (by decide : Category.Apart .numberBody .exponent) number marks
  cases turn_eq_ok_iff.mp turned with
  | again reacts => cases inside.symm.trans (Mode.react_again reacts.reacted).1
  | @past here c mode tokens reacts =>
      subst inside
      have origins := Mode.react_numeral reacts.reacted
      have stays : here = machine := by
        apply skipQuoted_eq reacts.skipped
        intro quote span quotation
        simp [quotation] at origins
      subst stays
      rcases origins with ⟨between, number, rfl⟩ | ⟨shorter, numeral, number, extended⟩ |
        ⟨shorter, exponent, extended⟩
      · cases sliced.symm.trans (divides.slice_ofChar between reacts.found)
        rw [String.toList_ofList, List.mem_singleton] at member
        exact absurd (member ▸ number) unmarked
      · have reading : shorter ∈ here.mode.span? := by
          rw [numeral]
          rfl
        obtain ⟨start, longer⟩ := divides.slice_longer reacts.found reading extended
        cases sliced.symm.trans longer
        rw [String.toList_push, List.mem_append, List.mem_singleton] at member
        rcases member with before | same
        · have earlier : shorter.Marked source :=
            ⟨_, divides.slice_eq reading, marker, before, marks⟩
          exact .inl ⟨shorter, numeral, start.symm, earlier⟩
        · exact absurd (same ▸ number) unmarked
      · obtain ⟨_, rfl⟩ := Span.extend_eq_ok_iff.mp extended
        exact .inr ⟨shorter.stop, exponent⟩

/-- A numeral that holds an exponent marker waited for its exponent. -/
theorem Reaches.awaited (reached : Reaches suffixes (Machine.start source) machine)
    (inside : machine.mode = .numeral span) (marked : span.Marked source) :
    machine.Awaited suffixes source span.start := by
  induction reached generalizing span with
  | refl => cases inside
  | @turn middle last reached turned inductionHypothesis =>
      obtain ⟨front, body, rest, divides⟩ := divides_of_reaches reached
      rcases divides.marked_before turned inside marked with
        ⟨shorter, numeral, start, before⟩ | ⟨stop, exponent⟩
      · rw [← start]
        exact (inductionHypothesis numeral before).turn turned
      · exact ⟨middle, stop, reached, .turn (.refl middle) turned, exponent⟩

/-- A numeral that waited for its exponent holds an exponent marker. -/
theorem Awaited.marked (awaited : machine.Awaited suffixes source span.start)
    (reached : Reaches suffixes (Machine.start source) machine)
    (inside : machine.mode = .numeral span) : span.Marked source := by
  obtain ⟨earlier, stop, before, further, waits⟩ := awaited
  obtain ⟨front, body, rest, divides⟩ := divides_of_reaches reached
  obtain ⟨frontWaiting, bodyWaiting, restWaiting, waiting⟩ := divides_of_reaches before
  have reading : span ∈ machine.mode.span? := by
    rw [inside]
    rfl
  have shape := waiting.shape
  rw [waits] at shape
  obtain ⟨_, digits, marker, _, marks, rfl⟩ := shape
  -- The two texts start at one offset, and the reader only went forward in between.
  obtain ⟨middle, cut, _⟩ := waiting.rest_eq divides further.position_le
  have start : Text.byteLength front = Text.byteLength frontWaiting := by
    rw [← waiting.settled_eq, ← divides.settled_eq, settled, settled, inside, waits]
    rfl
  rw [List.append_assoc frontWaiting] at cut
  obtain ⟨_, longer⟩ := Text.cut_eq cut start
  exact ⟨_, divides.slice_eq reading, marker, by simp [longer], marks⟩

end Machine

/-- Every machine that a run reaches keeps the invariant, also on the way to a defect. -/
theorem lex_invariant {suffixes : Suffixes} {source : String} {machine : Machine}
    (reached : Machine.Reaches suffixes (Machine.start source) machine) :
    machine.Invariant suffixes source := by
  obtain ⟨front, body, rest, divides⟩ := Machine.divides_of_reaches reached
  constructor
  case text => exact divides.text
  case emitted =>
    have whole : source.toList = [] ++ front ++ (body ++ rest) := by simpa using divides.cut
    rw [divides.settled_eq]
    exact divides.covers.partition whole rfl
  case reading =>
    intro span reading
    obtain ⟨ordered, stop, _⟩ := divides.sound.span span reading
    refine ⟨ordered, stop, _, divides.slice_eq reading, ?_⟩
    rw [String.toList_ofList]
    exact divides.shape.reads
  case exponent =>
    intro span inside
    exact ⟨reached.awaited inside, fun awaited => awaited.marked reached inside⟩

/-- The second marker is a defect. Before it the numeral has one marker, so the machine waited for
its exponent. -/
theorem lex_invariant_scaled : ∃ machine,
    Machine.Reaches .standard (Machine.start "a1e2e") machine ∧
      machine.mode = .numeral ⟨1, 4⟩ ∧
      Token.Partition "a1e2e" 0 1 machine.emitted.toList ∧
      machine.Awaited .standard "a1e2e" 1 := by
  have plain : (Machine.start "a1e2e").turn .standard =
      .ok (.more ⟨⟨"a1e2e", 1⟩, .plain ⟨0, 1⟩, #[]⟩) := by decide +kernel
  have closed : Machine.turn .standard ⟨⟨"a1e2e", 1⟩, .plain ⟨0, 1⟩, #[]⟩ =
      .ok (.more ⟨⟨"a1e2e", 1⟩, .between, #[⟨"a", 0, .plain⟩]⟩) := by decide +kernel
  have digit : Machine.turn .standard ⟨⟨"a1e2e", 1⟩, .between, #[⟨"a", 0, .plain⟩]⟩ =
      .ok (.more ⟨⟨"a1e2e", 2⟩, .numeral ⟨1, 2⟩, #[⟨"a", 0, .plain⟩]⟩) := by decide +kernel
  have marker : Machine.turn .standard ⟨⟨"a1e2e", 2⟩, .numeral ⟨1, 2⟩, #[⟨"a", 0, .plain⟩]⟩ =
      .ok (.more ⟨⟨"a1e2e", 3⟩, .exponent ⟨1, 3⟩, #[⟨"a", 0, .plain⟩]⟩) := by decide +kernel
  have scaled : Machine.turn .standard ⟨⟨"a1e2e", 3⟩, .exponent ⟨1, 3⟩, #[⟨"a", 0, .plain⟩]⟩ =
      .ok (.more ⟨⟨"a1e2e", 4⟩, .numeral ⟨1, 4⟩, #[⟨"a", 0, .plain⟩]⟩) := by decide +kernel
  have reached := ((((Machine.Reaches.refl _).turn plain).turn closed).turn digit).turn marker
  have reached := reached.turn scaled
  have invariant := lex_invariant reached
  have sliced : Text.slice "a1e2e" 1 4 = .ok "1e2" := by decide +kernel
  have marked : (Span.mk 1 4).Marked "a1e2e" := ⟨"1e2", sliced, 'e', by decide, by decide⟩
  exact ⟨_, reached, rfl, invariant.emitted, (invariant.exponent _ rfl).mp marked⟩

end ExprLexer
