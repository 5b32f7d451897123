/-
This file takes a turn of the loop apart. A turn reacts to one character or ends the run, and the
reader never goes back.
-/

import ExprLexer.Lexer

namespace ExprLexer

/-- A computation with two parts comes without a fault if both parts do. -/
theorem Fault.bind_eq_ok_iff {First Last : Type} {first : Except Fault First}
    {later : First → Except Fault Last} {result : Last} :
    (first >>= later) = .ok result ↔ ∃ value, first = .ok value ∧ later value = .ok result := by
  cases first <;> simp [bind, Except.bind]

namespace Machine

/-- In its next turn a machine reacts to a character. Inside a quotation it jumps to the character
first, so the reaction is that of the machine behind the jump. -/
structure Reacts (suffixes : Suffixes) (machine here : Machine) (c : Char)
    (reaction : Reaction) : Prop where
  skipped : machine.skipQuoted = .ok here
  found : here.reader.peek = .ok (some c)
  reacted : here.mode.react suffixes here.reader c = .ok reaction

/-- A turn ends at the end of the source, or it does what the reaction to a character says. -/
inductive Turns (suffixes : Suffixes) (machine : Machine) : Turn → Prop where
  | ended {here : Machine} {run : Run} (skipped : machine.skipQuoted = .ok here)
      (nothing : here.reader.peek = .ok none) (concluded : here.conclude = .ok run) :
      Turns suffixes machine (.done run)
  | past {here : Machine} {c : Char} {mode : Mode} {tokens : List Token}
      (reacts : machine.Reacts suffixes here c (.past mode tokens)) :
      Turns suffixes machine (.more
        ⟨{ here.reader with position := here.reader.position + c.utf8Size }, mode,
          here.emitted ++ tokens⟩)
  | again {here : Machine} {c : Char} {mode : Mode} {tokens : List Token}
      (reacts : machine.Reacts suffixes here c (.again mode tokens)) :
      Turns suffixes machine (.more ⟨here.reader, mode, here.emitted ++ tokens⟩)
  | reject {here : Machine} {c : Char} {rejection : Rejection}
      (reacts : machine.Reacts suffixes here c (.reject rejection)) :
      Turns suffixes machine (.done ⟨here.emitted.toList, some rejection⟩)

variable {suffixes : Suffixes} {machine here next first last : Machine} {c : Char}
  {reaction : Reaction} {turn : Turn}

/-- A turn that finds a character does what the reaction to it says. -/
theorem turn_react (skipped : machine.skipQuoted = .ok here)
    (found : here.reader.peek = .ok (some c))
    (reacted : here.mode.react suffixes here.reader c = .ok reaction) :
    machine.turn suffixes =
      match reaction with
      | .past mode tokens => do
          let reader ← here.reader.next
          return .more ⟨reader, mode, here.emitted ++ tokens⟩
      | .again mode tokens => return .more ⟨here.reader, mode, here.emitted ++ tokens⟩
      | .reject rejection => return .done ⟨here.emitted.toList, some rejection⟩ := by
  rw [Machine.turn, skipped]
  simp only [bind, Except.bind, found, reacted]
  cases reaction <;> rfl

/-- These are all the turns that there are. -/
theorem turn_eq_ok_iff : machine.turn suffixes = .ok turn ↔ machine.Turns suffixes turn := by
  constructor
  · intro turned
    obtain ⟨here, skipped, made⟩ := Fault.bind_eq_ok_iff.mp turned
    obtain ⟨found, read, made⟩ := Fault.bind_eq_ok_iff.mp made
    split at made
    · obtain ⟨run, concluded, made⟩ := Fault.bind_eq_ok_iff.mp made
      cases made
      exact .ended skipped read concluded
    · obtain ⟨reaction, reacted, made⟩ := Fault.bind_eq_ok_iff.mp made
      split at made
      · rw [Reader.next_of_peek read] at made
        cases made
        exact .past ⟨skipped, read, reacted⟩
      · cases made
        exact .again ⟨skipped, read, reacted⟩
      · cases made
        exact .reject ⟨skipped, read, reacted⟩
  · intro turns
    cases turns with
    | ended skipped nothing concluded =>
        rw [Machine.turn, skipped]
        simp only [bind, Except.bind, nothing, concluded]
        rfl
    | past reacts =>
        rw [turn_react reacts.skipped reacts.found reacts.reacted,
          Reader.next_of_peek reacts.found]
        rfl
    | again reacts => exact turn_react reacts.skipped reacts.found reacts.reacted
    | reject reacts => exact turn_react reacts.skipped reacts.found reacts.reacted

/-- A machine has only one reaction in its next turn. -/
theorem Reacts.unique {other : Machine} {d : Char} {twin : Reaction}
    (reacts : machine.Reacts suffixes here c reaction)
    (also : machine.Reacts suffixes other d twin) : here = other ∧ c = d ∧ reaction = twin := by
  have same : here = other := Except.ok.inj (reacts.skipped.symm.trans also.skipped)
  subst same
  have found := Except.ok.inj (reacts.found.symm.trans also.found)
  cases found
  exact ⟨rfl, rfl, Except.ok.inj (reacts.reacted.symm.trans also.reacted)⟩

/-- Outside a quotation there is nothing to jump over. -/
theorem skipQuoted_outside (outside : ∀ quote span, machine.mode ≠ .quotation quote span) :
    machine.skipQuoted = .ok machine := by
  unfold skipQuoted
  split
  · next quote span inside => exact absurd inside (outside quote span)
  · rfl

theorem skipQuoted_between (between : machine.mode = .between) :
    machine.skipQuoted = .ok machine :=
  skipQuoted_outside fun _ _ inside => by cases between.symm.trans inside

/-- A jump inside a quotation moves the reader. It emits nothing and stays in the quotation. -/
theorem skipQuoted_cases (skipped : machine.skipQuoted = .ok here) :
    ((∀ quote span, machine.mode ≠ .quotation quote span) ∧ here = machine) ∨
      ∃ quote span longer count, machine.mode = .quotation quote span ∧
        machine.reader.skipUntil quote = .ok (count, here.reader) ∧
        here.mode = .quotation quote longer ∧ here.emitted = machine.emitted := by
  unfold skipQuoted at skipped
  split at skipped
  · next quote span inside =>
      obtain ⟨⟨count, reader⟩, jumped, made⟩ := Fault.bind_eq_ok_iff.mp skipped
      dsimp only at made
      split at made
      · cases made
        exact .inr ⟨quote, span, _, count, inside, jumped, rfl, rfl⟩
      · cases made
        exact .inr ⟨quote, span, span, count, inside, jumped, inside, rfl⟩
  · next outside =>
      cases skipped
      exact .inl ⟨outside, rfl⟩

theorem skipQuoted_eq (skipped : machine.skipQuoted = .ok here)
    (outside : ∀ quote span, here.mode ≠ .quotation quote span) : here = machine := by
  rcases skipQuoted_cases skipped with ⟨_, same⟩ | ⟨quote, _, longer, _, _, _, inside, _⟩
  · exact same
  · exact absurd inside (outside quote longer)

theorem Turns.position_le (turns : machine.Turns suffixes (.more next)) :
    machine.reader.position ≤ next.reader.position := by
  cases turns with
  | past reacts =>
      have jumped := (skipQuoted_reader reacts.skipped).2.1
      exact Nat.le_trans jumped (Nat.le_add_right _ _)
  | again reacts => exact (skipQuoted_reader reacts.skipped).2.1

theorem Reaches.position_le (reached : Reaches suffixes first last) :
    first.reader.position ≤ last.reader.position := by
  induction reached with
  | refl => exact Nat.le_refl _
  | turn _ turned inductionHypothesis =>
      exact Nat.le_trans inductionHypothesis (turn_eq_ok_iff.mp turned).position_le

theorem Reaches.trans (reached : Reaches suffixes first next)
    (further : Reaches suffixes next last) : Reaches suffixes first last := by
  induction further with
  | refl => exact reached
  | turn _ turned inductionHypothesis => exact .turn inductionHypothesis turned

theorem Reaches.head (turned : first.turn suffixes = .ok (.more next))
    (reached : Reaches suffixes next last) : Reaches suffixes first last :=
  (Reaches.turn (.refl first) turned).trans reached

end Machine

end ExprLexer
