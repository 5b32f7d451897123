/-
This file shows that the machine keeps its own assumptions. No run meets a fault, whatever the
source and the suffixes are.
-/

import ExprLexer.Proofs.Token.Partition

namespace ExprLexer

namespace Mode

/-- The span of the token that is being read. -/
def span? : Mode → Option Span
  | .between => none
  | .numeral span => some span
  | .exponent span => some span
  | .based _ span => some span
  | .plain span => some span
  | .quotation _ span => some span

/-- A token that is being read has some characters. -/
theorem Shape.span {front body : List Char} {mode : Mode} (shape : mode.Shape front body) :
    ∀ span ∈ mode.span?, span = .ofBody front body ∧ body ≠ [] := by
  intro span reading
  cases mode with
  | between => cases reading
  | numeral here =>
      cases reading
      obtain ⟨same, digits | scaled⟩ := shape
      · exact ⟨same, digits.nonempty⟩
      · obtain ⟨before, sign, digits, _, _, _, rfl⟩ := scaled
        exact ⟨same, by simp⟩
  | exponent here =>
      cases reading
      obtain ⟨same, digits, marker, _, _, rfl⟩ := shape
      exact ⟨same, by simp⟩
  | based radix here =>
      cases reading
      obtain ⟨same, digits, _, rfl⟩ := shape
      exact ⟨same, by simp⟩
  | plain here =>
      cases reading
      obtain ⟨same, c, more, rfl, _⟩ := shape
      exact ⟨same, by simp⟩
  | quotation quote here =>
      cases reading
      obtain ⟨same, inner, rfl, _⟩ := shape
      exact ⟨same, by simp⟩

end Mode

namespace Machine

/-- The offsets that a machine keeps are usable in the source, and its tokens are pieces of it. -/
structure Sound (machine : Machine) (source : String) : Prop where
  text : machine.reader.text = source
  position : (Text.boundary? source machine.reader.position).isSome ∧
    machine.reader.position ≤ source.utf8ByteSize
  ending : machine.reader.peek = .ok none → machine.reader.atEnd = true
  /-- The next character is added right behind the span. -/
  span : ∀ span ∈ machine.mode.span?, span.start < span.stop ∧
    span.stop = machine.reader.position ∧ (Text.boundary? source span.start).isSome
  /-- The search inside a quotation is for a character of one byte. -/
  needle : ∀ quote span, machine.mode = .quotation quote span → quote.toNat < 128
  emitted : ∀ token ∈ machine.emitted.toList, token.text ≠ "" ∧
    Text.slice source token.start token.stop = .ok token.text

variable {suffixes : Suffixes} {source : String} {machine : Machine} {front body rest : List Char}

/-- A machine that is in step with the lexemes is sound. -/
theorem Divides.sound (divides : machine.Divides suffixes source front body rest) :
    machine.Sound source := by
  have cut := divides.cut
  constructor
  case text => exact divides.text
  case position =>
    exact ⟨divides.standsIn.boundary, divides.standsIn.position_le⟩
  case ending =>
    intro nothing
    rw [divides.reader.peek] at nothing
    apply divides.reader.atEnd_iff.mpr
    exact List.head?_eq_none_iff.mp (Except.ok.inj nothing)
  case span =>
    intro span reading
    obtain ⟨rfl, some⟩ := divides.shape.span span reading
    have wide : 0 < Text.byteLength body := Text.byteLength_pos_iff.mpr some
    have size := Text.byteLength_append front body
    have longer : Text.byteLength front < Text.byteLength (front ++ body) := by omega
    have boundary : (Text.boundary? source (Text.byteLength front)).isSome := by
      apply Text.boundary?_isSome_iff_cut.mpr
      exact ⟨front, body ++ rest, by rw [cut, List.append_assoc], rfl⟩
    rw [divides.reader.position]
    exact ⟨longer, rfl, boundary⟩
  case needle =>
    intro quote span mode
    have shape := divides.shape
    rw [mode] at shape
    exact Category.narrow shape.2.quotes
  case emitted =>
    rw [List.append_assoc] at cut
    have whole : source.toList = [] ++ front ++ (body ++ rest) := cut
    have partition := divides.covers.partition whole rfl
    intro token member
    exact ⟨partition.text_ne member, partition.texts token member⟩

end Machine

/-- Every run comes to an answer and emits no empty token. Every machine on the way is sound, also
after a jump inside a quotation, and its next turn comes without a fault. -/
theorem lex_sound (suffixes : Suffixes) (source : String) :
    (∃ run, lex suffixes source = .ok run ∧ ∀ token ∈ run.tokens, token.text ≠ "") ∧
      ∀ machine, Machine.Reaches suffixes (Machine.start source) machine →
        machine.Sound source ∧
          (∃ here, machine.skipQuoted = .ok here ∧ here.Sound source) ∧
          ∃ turn, machine.turn suffixes = .ok turn := by
  constructor
  · obtain ⟨last, partition⟩ := Lexeme.runFrom_partition suffixes source
    exact ⟨_, lex_eq_ok_iff.mpr rfl, fun _ member => partition.text_ne member⟩
  · intro machine reached
    obtain ⟨front, body, rest, divides⟩ := Machine.divides_of_reaches reached
    obtain ⟨here, _, _, skipped, after⟩ := divides.skipQuoted
    obtain ⟨turn, turned, _⟩ := divides.turn
    exact ⟨divides.sound, ⟨here, skipped, after.sound⟩, turn, turned⟩

end ExprLexer
