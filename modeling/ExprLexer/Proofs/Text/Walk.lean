/-
This file walks through a text one character at a time. A walk passes over the characters that lie
between its two ends, and a jump to a byte is a walk as well, since no byte of a longer character is
that of a needle.
-/

import ExprLexer.Proofs.Text.Between

namespace ExprLexer.Reader

/-- The reader passes over the characters one by one on its way to a later place. -/
inductive Walks : Reader → List Char → Reader → Prop where
  | stay (reader : Reader) : Walks reader [] reader
  | step {reader next last : Reader} {c : Char} {passed : List Char}
      (found : reader.peek = .ok (some c)) (moved : reader.next = .ok next)
      (walks : Walks next passed last) : Walks reader (c :: passed) last

variable {reader ahead middle last : Reader} {text : String} {c needle : Char}
  {before after passed later rest : List Char}

/-- A step over a character leaves less of the text to be read. -/
theorem next_remaining (found : reader.peek = .ok (some c)) (moved : reader.next = .ok ahead) :
    ahead.size - ahead.position < reader.size - reader.position := by
  have inside := peek_inside found
  have wide := c.utf8Size_pos
  rw [next_of_peek found] at moved
  cases moved
  simp only [size] at inside ⊢
  omega

/-- The reader at the next character that is the needle, or at the end, after one step for each
character in front of it. -/
def stepUntil (reader : Reader) (needle : Char) : Except Fault Reader :=
  match _found : reader.peek with
  | .error fault => .error fault
  | .ok none => .ok reader
  | .ok (some c) =>
      if c = needle then
        .ok reader
      else
        match _moved : reader.next with
        | .error fault => .error fault
        | .ok next => next.stepUntil needle
termination_by reader.size - reader.position
decreasing_by exact next_remaining _found _moved

/-- The steps stop at the needle and at the end. -/
theorem stepUntil_stop {found : Option Char} (read : reader.peek = .ok found)
    (stops : ∀ c ∈ found, c = needle) : reader.stepUntil needle = .ok reader := by
  rw [stepUntil]
  split
  · next fault failed => cases read.symm.trans failed
  · rfl
  · next c here =>
      cases read.symm.trans here
      rw [if_pos (stops c rfl)]

/-- A character that differs from the needle is stepped over. -/
theorem stepUntil_step (found : reader.peek = .ok (some c)) (other : c ≠ needle)
    (moved : reader.next = .ok ahead) : reader.stepUntil needle = ahead.stepUntil needle := by
  rw [stepUntil]
  split
  · next fault failed => cases found.symm.trans failed
  · next nothing => cases found.symm.trans nothing
  · next d here =>
      cases found.symm.trans here
      rw [if_neg other]
      split
      · next fault failed => cases moved.symm.trans failed
      · next further stepped =>
          cases moved.symm.trans stepped
          rfl

theorem Walks.trans (first : reader.Walks passed middle) (second : middle.Walks later last) :
    reader.Walks (passed ++ later) last := by
  induction first with
  | stay => exact second
  | step found moved _ inductionHypothesis => exact .step found moved (inductionHypothesis second)

/-- A walk moves the characters that it passes over to the front. -/
theorem Walks.between (walks : reader.Walks passed last) (stands : reader.Between before after) :
    ∃ rest, after = passed ++ rest ∧ last.text = reader.text ∧
      last.Between (before ++ passed) rest := by
  induction walks generalizing before after with
  | stay => exact ⟨after, rfl, rfl, by rwa [List.append_nil]⟩
  | step found moved _ inductionHypothesis =>
      obtain ⟨behind, rfl⟩ := stands.of_peek found
      rw [next_of_peek found] at moved
      cases moved
      obtain ⟨rest, rfl, text, between⟩ := inductionHypothesis stands.past
      exact ⟨rest, rfl, text, by simpa using between⟩

/-- The piece of the text between the ends of a walk has the characters that it passes over. -/
theorem Walks.slice (walks : reader.Walks passed last) (stands : reader.StandsIn text) :
    last.StandsIn text ∧ reader.position ≤ last.position ∧
      Text.slice text reader.position last.position = .ok (String.ofList passed) := by
  obtain ⟨before, after, between⟩ := stands.between
  obtain ⟨rest, rfl, same, further⟩ := walks.between between
  have cut : text.toList = before ++ passed ++ rest := by
    rw [← stands.source, between.cut, List.append_assoc]
  refine ⟨further.standsIn (same.trans stands.source), ?_, ?_⟩
  · rw [between.position, further.position, Text.byteLength_append]
    exact Nat.le_add_right _ _
  · rw [between.position, further.position]
    exact Text.slice_cut cut

namespace Between

/-- Any characters behind the reader can be walked over. -/
theorem walks (stands : reader.Between before (passed ++ rest)) :
    ∃ last, reader.Walks passed last ∧ last.text = reader.text ∧
      last.Between (before ++ passed) rest := by
  induction passed generalizing reader before with
  | nil => exact ⟨reader, .stay reader, rfl, by rwa [List.append_nil]⟩
  | cons c passed inductionHypothesis =>
      have found : reader.peek = .ok (some c) := stands.peek
      obtain ⟨last, walks, text, between⟩ := inductionHypothesis stands.past
      exact ⟨last, .step found (next_of_peek found) walks, text, by simpa using between⟩

/-- The single steps pass over the characters that differ from the needle. -/
theorem stepUntil (stands : reader.Between before after) (needle : Char) :
    ∃ last, reader.stepUntil needle = .ok last ∧ last.text = reader.text ∧
      last.Between (before ++ after.takeWhile (· ≠ needle)) (after.dropWhile (· ≠ needle)) := by
  -- The induction is on what is left to be read, and each step moves one character to the front.
  induction after generalizing reader before with
  | nil => exact ⟨reader, stepUntil_stop stands.peek nofun, rfl, by simpa using stands⟩
  | cons c after inductionHypothesis =>
      have found : reader.peek = .ok (some c) := stands.peek
      by_cases same : c = needle
      · subst same
        exact ⟨reader, stepUntil_stop found (by simp), rfl, by simpa using stands⟩
      · obtain ⟨last, stepped, text, between⟩ := inductionHypothesis stands.past
        rw [← stepUntil_step found same (next_of_peek found)] at stepped
        exact ⟨last, stepped, text, by simpa [same] using between⟩

end Between

namespace StandsIn

/-- A step is a walk over one character, or over none at the end. -/
theorem next (stands : reader.StandsIn text) :
    ∃ last passed, reader.next = .ok last ∧ reader.Walks passed last := by
  obtain ⟨before, after, between⟩ := stands.between
  rcases after with _ | ⟨c, after⟩
  · have moved : reader.next = .ok reader := by
      rw [Reader.next, between.peek]
      rfl
    exact ⟨reader, [], moved, .stay reader⟩
  · have moved := next_of_peek between.peek
    exact ⟨_, [c], moved, .step between.peek moved (.stay _)⟩

/-- A jump is a walk over the characters in front of the needle. -/
theorem skipUntil (stands : reader.StandsIn text) (narrow : needle.toNat < 128) :
    ∃ skipped last passed, reader.skipUntil needle = .ok (skipped, last) ∧
      reader.Walks passed last ∧ needle ∉ passed := by
  obtain ⟨before, after, between⟩ := stands.between
  obtain ⟨last, jumped, text, there⟩ := between.skipUntil narrow
  rw [← List.takeWhile_append_dropWhile (p := (· ≠ needle)) (l := after)] at between
  obtain ⟨arrived, walks, same, also⟩ := between.walks
  obtain rfl := also.eq there (same.trans text.symm)
  exact ⟨_, _, _, jumped, walks, Text.not_mem_takeWhile needle after⟩

end StandsIn

end ExprLexer.Reader
