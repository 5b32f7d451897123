/-
This file shows that the loop gets on. A character is looked at twice at most, and the second look
always moves past it, so a run takes at most two reactions for each character of its source.
-/

import ExprLexer.Proofs.Machine.Transition
import ExprLexer.Proofs.Machine.Turn

namespace ExprLexer

namespace Machine

/-- A machine takes some number of reactions until its run ends. The end of the source takes none,
and a rejection takes one. -/
inductive Takes (suffixes : Suffixes) : Machine → Nat → Run → Prop where
  | ended {machine here : Machine} {run : Run} (skipped : machine.skipQuoted = .ok here)
      (nothing : here.reader.peek = .ok none) (concluded : here.conclude = .ok run) :
      Takes suffixes machine 0 run
  | reject {machine here : Machine} {c : Char} {rejection : Rejection}
      (reacts : machine.Reacts suffixes here c (.reject rejection)) :
      Takes suffixes machine 1 ⟨here.emitted.toList, some rejection⟩
  | react {machine here next : Machine} {c : Char} {reaction : Reaction} {count : Nat} {run : Run}
      (reacts : machine.Reacts suffixes here c reaction)
      (turned : machine.turn suffixes = .ok (.more next))
      (later : Takes suffixes next count run) : Takes suffixes machine (count + 1) run

/-- A reachable machine gets on. Only a character that closes a token is looked at again, and then
it is moved past. -/
structure Progresses (machine : Machine) (suffixes : Suffixes) (source : String) : Prop where
  position : machine.reader.position ≤ source.utf8ByteSize
  /-- A jump inside a quotation goes forward by what it skips, and not beyond the end. -/
  skip : ∀ quote span, machine.mode = .quotation quote span →
    ∃ skipped here, machine.reader.skipUntil quote = .ok (skipped, here.reader) ∧
      machine.skipQuoted = .ok here ∧
      here.reader.position = machine.reader.position + skipped ∧
      here.reader.position ≤ source.utf8ByteSize
  past : ∀ here c mode tokens, machine.Reacts suffixes here c (.past mode tokens) →
    ∃ next, machine.turn suffixes = .ok (.more next) ∧
      here.reader.position < next.reader.position ∧
      next.reader.position ≤ source.utf8ByteSize
  again : ∀ here c mode tokens, machine.Reacts suffixes here c (.again mode tokens) →
    ∃ next, machine.turn suffixes = .ok (.more next) ∧ next.mode = .between ∧
      next.reader = machine.reader ∧
      (∃ mode tokens, next.Reacts suffixes next c (.past mode tokens)) ∧
      ∀ there d mode tokens, ¬ next.Reacts suffixes there d (.again mode tokens)

/-- Two reactions for each character that is unread, and one more for a token that is being read. -/
def allowance (machine : Machine) (rest : List Char) : Nat :=
  2 * rest.length + if machine.mode = .between then 0 else 1

variable {suffixes : Suffixes} {source : String} {machine here next : Machine}
  {front body rest frontLast bodyLast restLast : List Char} {c : Char} {reaction : Reaction}
  {run : Run} {count : Nat}

theorem Takes.run_eq (takes : machine.Takes suffixes count run) :
    machine.run suffixes = .ok run := by
  induction takes with
  | ended skipped nothing concluded =>
      rw [run_turn, turn_eq_ok_iff.mpr (.ended skipped nothing concluded)]
  | reject reacts => rw [run_turn, turn_eq_ok_iff.mpr (.reject reacts)]
  | react _ turned _ inductionHypothesis =>
      rw [run_turn, turned]
      exact inductionHypothesis

/-- A machine reacts only to a character that is left. -/
theorem Divides.rest_of_reacts (divides : machine.Divides suffixes source front body rest)
    (reacts : machine.Reacts suffixes here c reaction) : rest ≠ [] := by
  rintro rfl
  have inside := Reader.peek_inside reacts.found
  obtain ⟨text, jumped, _⟩ := skipQuoted_reader reacts.skipped
  have size : here.reader.size = machine.reader.position := by
    rw [Reader.size, text, ← Reader.size, divides.reader.size, List.append_nil,
      divides.reader.position]
  have wide := c.utf8Size_pos
  omega

/-- A turn that goes on uses up some of the allowance. -/
theorem Divides.allowance_lt (divides : machine.Divides suffixes source front body rest)
    (further : next.Divides suffixes source frontLast bodyLast restLast)
    (turned : machine.turn suffixes = .ok (.more next)) :
    next.allowance restLast < machine.allowance rest := by
  have turns := turn_eq_ok_iff.mp turned
  obtain ⟨middle, cut, rfl⟩ := divides.rest_eq further turns.position_le
  cases turns with
  | @past here c mode tokens reacts =>
      -- The reader went past a character, so some characters lie between the two positions.
      have some : middle ≠ [] := by
        rintro rfl
        have place := further.reader.position
        have jumped := (skipQuoted_reader reacts.skipped).2.1
        have wide := c.utf8Size_pos
        rw [cut, List.append_nil, ← divides.reader.position] at place
        dsimp only at place
        omega
      have longer := List.length_pos_iff.mpr some
      simp only [allowance, List.length_append]
      split <;> split <;> omega
  | again reacts =>
      obtain ⟨after, before⟩ := Mode.react_again reacts.reacted
      have between := (skipQuoted_reader reacts.skipped).2.2
      have pending : machine.mode ≠ .between := fun same => before (between.mpr same)
      simp only [allowance, after, pending, if_true, if_false, List.length_append]
      omega

/-- A machine that is in step with the lexemes takes no more reactions than it is allowed. -/
theorem Divides.takes (divides : machine.Divides suffixes source front body rest) :
    ∃ count run, machine.Takes suffixes count run ∧ count ≤ machine.allowance rest := by
  induction size : machine.allowance rest using Nat.strong_induction_on
    generalizing machine front body rest with
  | _ allowed inductionHypothesis =>
      obtain ⟨turn, turned, fits⟩ := divides.turn
      have reaction {here : Machine} {c : Char} {reaction : Reaction} {next : Machine}
          (reacts : machine.Reacts suffixes here c reaction)
          (turned : machine.turn suffixes = .ok (.more next))
          (fits : Turn.Fits suffixes source (.more next)) :
          ∃ count run, machine.Takes suffixes count run ∧ count ≤ allowed := by
        cases fits with
        | more further =>
            have less := divides.allowance_lt further turned
            obtain ⟨count, run, takes, bound⟩ :=
              inductionHypothesis _ (size ▸ less) further rfl
            exact ⟨count + 1, run, .react reacts turned takes, by omega⟩
      cases turn_eq_ok_iff.mp turned with
      | ended skipped nothing concluded =>
          exact ⟨0, _, .ended skipped nothing concluded, Nat.zero_le _⟩
      | past reacts => exact reaction reacts turned fits
      | again reacts => exact reaction reacts turned fits
      | reject reacts =>
          have some := List.length_pos_iff.mpr (divides.rest_of_reacts reacts)
          rw [allowance] at size
          exact ⟨1, _, .reject reacts, by omega⟩

/-- A machine that looks at a character again was not inside a quotation, so it did not jump. -/
theorem Reacts.stays {mode : Mode} {tokens : List Token}
    (reacts : machine.Reacts suffixes here c (.again mode tokens)) : here = machine := by
  apply skipQuoted_eq reacts.skipped
  intro quote span inside
  have steady : here.mode.Steady := by
    rw [inside]
    trivial
  obtain ⟨_, _, other⟩ := Mode.react_past steady reacts.reacted
  cases other

/-- Between tokens a machine moves past the next character. -/
theorem Divides.reacts_between (divides : machine.Divides suffixes source front body rest)
    (between : machine.mode = .between) (found : machine.reader.peek = .ok (some c)) :
    ∃ mode tokens, machine.Reacts suffixes machine c (.past mode tokens) := by
  obtain ⟨after, rfl⟩ := divides.reader.of_peek found
  obtain ⟨reaction, reacted, _⟩ := Mode.react_fits suffixes divides.reader divides.shape
  have steady : machine.mode.Steady := by
    rw [between]
    trivial
  obtain ⟨mode, tokens, rfl⟩ := Mode.react_past steady reacted
  exact ⟨mode, tokens, skipQuoted_between between, found, reacted⟩

/-- Every machine that a run reaches gets on. -/
theorem Reaches.progresses (reached : Reaches suffixes (Machine.start source) machine) :
    machine.Progresses suffixes source := by
  obtain ⟨front, body, rest, divides⟩ := divides_of_reaches reached
  constructor
  case position => exact divides.standsIn.position_le
  case skip =>
    intro quote span inside
    obtain ⟨here, skipped, _, _, after⟩ := divides.skipQuoted_inside inside
    rcases skipQuoted_cases skipped with ⟨outside, _⟩ | ⟨_, _, _, count, mode, jumped, _, _⟩
    · exact absurd inside (outside quote span)
    · cases inside.symm.trans mode
      exact ⟨count, here, jumped, skipped, Reader.skipUntil_position jumped,
        after.standsIn.position_le⟩
  case past =>
    intro here c mode tokens reacts
    have turned := turn_eq_ok_iff.mpr (.past reacts)
    obtain ⟨_, _, _, after⟩ := divides_of_reaches (reached.turn turned)
    exact ⟨_, turned, Nat.lt_add_of_pos_right c.utf8Size_pos, after.standsIn.position_le⟩
  case again =>
    intro here c mode tokens reacts
    have turned := turn_eq_ok_iff.mpr (.again reacts)
    obtain ⟨_, _, _, after⟩ := divides_of_reaches (reached.turn turned)
    obtain ⟨between, _⟩ := Mode.react_again reacts.reacted
    have same := reacts.stays
    subst same
    obtain ⟨later, given, reactsPast⟩ := after.reacts_between between reacts.found
    refine ⟨_, turned, between, rfl, ⟨later, given, reactsPast⟩, ?_⟩
    intro there d other emitted reactsAgain
    cases (reactsPast.unique reactsAgain).2.2

end Machine

/-- A run ends after at most two reactions for each character of the source. On the way every jump
and every move past a character goes forward, and no character is looked at again twice. -/
theorem lex_progress (suffixes : Suffixes) (source : String) :
    (∃ count run, (Machine.start source).Takes suffixes count run ∧
      lex suffixes source = .ok run ∧ count ≤ 2 * source.length) ∧
      ∀ machine, Machine.Reaches suffixes (Machine.start source) machine →
        machine.Progresses suffixes source := by
  constructor
  · obtain ⟨count, run, takes, bound⟩ := (Machine.Divides.start suffixes source).takes
    have allowed : (Machine.start source).allowance source.toList = 2 * source.length := by
      simp [Machine.allowance, Machine.start, String.length_toList]
    exact ⟨count, run, takes, takes.run_eq, allowed ▸ bound⟩
  · exact fun machine reached => reached.progresses

end ExprLexer
