/-
This file runs the machine over a whole source text. Every turn of the loop spends some of the
machine's remaining turns, so the loop ends.
-/

import ExprLexer.Machine.Reaction

namespace ExprLexer

namespace Machine

/-- Inside a quotation the reader jumps to the next quote that could close it. -/
def skipQuoted (machine : Machine) : Except Fault Machine :=
  match machine.mode with
  | .quotation quote span => do
      let (skipped, reader) ← machine.reader.skipUntil quote
      if 0 < skipped then
        return { machine with
          reader := reader
          mode := .quotation quote { span with stop := reader.position } }
      else
        return { machine with reader := reader }
  | _ => return machine

/-- At the end of the source the last token stays whole, and an open literal is a defect. -/
def conclude (machine : Machine) : Except Fault Run :=
  let closed (span : Span) (origin : Token.Origin) : Except Fault Run := do
    let token ← span.token machine.reader origin
    return ⟨machine.emitted.toList ++ [token], none⟩
  let broken (defect : Defect) (start : Nat) : Run :=
    ⟨machine.emitted.toList, some (.ofDefect defect machine.reader.size start)⟩
  if machine.reader.atEnd then
    match machine.mode with
    | .between => return ⟨machine.emitted.toList, none⟩
    | .numeral span => closed span .decimal
    | .based radix span => closed span (.based radix)
    | .plain span => closed span .plain
    | .exponent span => return broken .missingExponent span.start
    | .quotation quote span => return broken (.unclosedQuote quote) span.start
  else
    .error (.unread machine.reader.position)

/-- A turn of the loop leaves a machine to go on with, or the finished run. -/
inductive Turn where
  | more (machine : Machine)
  | done (run : Run)
  deriving DecidableEq

/-- One turn of the loop. -/
def turn (suffixes : Suffixes) (machine : Machine) : Except Fault Turn := do
  let machine ← machine.skipQuoted
  match ← machine.reader.peek with
  | none =>
      let run ← machine.conclude
      return .done run
  | some c =>
      match ← machine.mode.react suffixes machine.reader c with
      | .past mode tokens =>
          let reader ← machine.reader.next
          return .more ⟨reader, mode, machine.emitted ++ tokens⟩
      | .again mode tokens => return .more ⟨machine.reader, mode, machine.emitted ++ tokens⟩
      | .reject rejection => return .done ⟨machine.emitted.toList, some rejection⟩

theorem skipQuoted_reader {machine next : Machine} (skipped : machine.skipQuoted = .ok next) :
    next.reader.text = machine.reader.text ∧
      machine.reader.position ≤ next.reader.position ∧
      (next.mode = .between ↔ machine.mode = .between) := by
  unfold skipQuoted at skipped
  split at skipped
  · next quote span inside =>
      rcases jump : machine.reader.skipUntil quote with fault | ⟨count, reader⟩
      · rw [jump] at skipped
        nomatch skipped
      · have text := Reader.skipUntil_text jump
        have position := Reader.skipUntil_position jump
        rw [jump] at skipped
        simp only [bind, Except.bind, pure, Except.pure] at skipped
        split at skipped
        · cases skipped
          exact ⟨text, by simp only [position]; omega, by simp [inside]⟩
        · cases skipped
          exact ⟨text, by simp only [position]; omega, by simp⟩
  · cases skipped
    exact ⟨rfl, Nat.le_refl _, Iff.rfl⟩

/-- A turn that goes on leaves fewer turns. -/
theorem turn_remaining {suffixes : Suffixes} {machine next : Machine}
    (more : machine.turn suffixes = .ok (.more next)) : next.remaining < machine.remaining := by
  unfold turn at more
  rcases skipped : machine.skipQuoted with fault | here
  · rw [skipped] at more
    nomatch more
  rw [skipped] at more
  obtain ⟨text, position, between⟩ := skipQuoted_reader skipped
  rcases read : here.reader.peek with fault | _ | c
  · simp only [read, bind, Except.bind] at more
    nomatch more
  · simp only [read, bind, Except.bind] at more
    split at more <;> nomatch more
  have inside := Reader.peek_inside read
  have wide := c.utf8Size_pos
  simp only [read, bind, Except.bind] at more
  split at more
  · nomatch more
  · next reaction reacted =>
      split at more
      · rw [Reader.next_of_peek read] at more
        cases more
        simp only [remaining, Reader.size, text] at inside ⊢
        split <;> split <;> omega
      · cases more
        obtain ⟨after, before⟩ := Mode.react_again reacted
        have pending : ¬ machine.mode = .between := fun h => before (between.mpr h)
        simp only [remaining, Reader.size, text, after, pending, if_true, if_false]
        omega
      · nomatch more

/-- The run from a machine on. -/
def run (suffixes : Suffixes) (machine : Machine) : Except Fault Run :=
  match _turned : machine.turn suffixes with
  | .error fault => .error fault
  | .ok (.done run) => .ok run
  | .ok (.more next) => next.run suffixes
termination_by machine.remaining
decreasing_by exact turn_remaining _turned

/-- The run of a machine is the run of the machine after one turn. -/
theorem run_turn (suffixes : Suffixes) (machine : Machine) :
    machine.run suffixes =
      match machine.turn suffixes with
      | .error fault => .error fault
      | .ok (.done run) => .ok run
      | .ok (.more next) => next.run suffixes := by
  rw [run]
  split <;> simp_all

/-- One machine reaches another if turns of the loop lead from the one to the other. -/
inductive Reaches (suffixes : Suffixes) : Machine → Machine → Prop where
  | refl (machine : Machine) : Reaches suffixes machine machine
  | turn {first middle last : Machine} (reached : Reaches suffixes first middle)
      (turned : middle.turn suffixes = .ok (.more last)) : Reaches suffixes first last

end Machine

end ExprLexer
