/-
This file follows a bookmark through its text. Every motion leaves it on a character boundary, and
motions that do not return to the saved place walk over the characters in between.
-/

import ExprLexer.Proofs.Text.Walk
import ExprLexer.Text.Bookmark

namespace ExprLexer.Bookmark

/-- A motion is narrow unless it looks for a character of several bytes. -/
def Motion.Narrow : Motion → Prop
  | .skipUntil needle => needle.toNat < 128
  | _ => True

instance : DecidablePred Motion.Narrow
  | .skipUntil needle => inferInstanceAs (Decidable (needle.toNat < 128))
  | .next | .save | .restore => .isTrue trivial

/-- Narrow motions of a fresh bookmark of the text lead to the reader. -/
def Visits (text : String) (reader : Reader) : Prop :=
  ∃ motions bookmark, (∀ motion ∈ motions, Motion.Narrow motion) ∧
    (start text).moveAll motions = .ok bookmark ∧ bookmark.here = reader

/-- Both the reader and the saved one stand on a boundary of the text. -/
structure StandsIn (bookmark : Bookmark) (text : String) : Prop where
  here : bookmark.here.StandsIn text
  saved : bookmark.saved.StandsIn text

variable {bookmark later : Bookmark} {reader last : Reader} {text : String} {motion : Motion}
  {motions : List Motion} {skipped : Nat} {needle : Char} {passed : List Char}

theorem StandsIn.start (text : String) : (Bookmark.start text).StandsIn text :=
  ⟨.start text, .start text⟩

theorem moveAll_cons (moved : bookmark.move motion = .ok (skipped, later)) (rest : List Motion) :
    bookmark.moveAll (motion :: rest) = later.moveAll rest := by
  rw [moveAll, moved]
  rfl

/-- A narrow motion never faults and keeps to the boundaries. Unless it goes back it is a walk. -/
theorem StandsIn.move (stands : bookmark.StandsIn text) (narrow : motion.Narrow) :
    ∃ skipped later, bookmark.move motion = .ok (skipped, later) ∧ later.StandsIn text ∧
      (motion ≠ .restore → ∃ passed, bookmark.here.Walks passed later.here) := by
  cases motion with
  | next =>
      obtain ⟨last, passed, moved, walks⟩ := stands.here.next
      refine ⟨0, { bookmark with here := last }, ?_, ?_, fun _ => ⟨passed, walks⟩⟩
      · rw [Bookmark.move, moved]
        rfl
      · exact ⟨(walks.slice stands.here).1, stands.saved⟩
  | skipUntil needle =>
      obtain ⟨skipped, last, passed, jumped, walks, _⟩ := stands.here.skipUntil narrow
      refine ⟨skipped, { bookmark with here := last }, ?_, ?_, fun _ => ⟨passed, walks⟩⟩
      · rw [Bookmark.move, jumped]
        rfl
      · exact ⟨(walks.slice stands.here).1, stands.saved⟩
  | save => exact ⟨0, _, rfl, ⟨stands.here, stands.here⟩, fun _ => ⟨[], .stay bookmark.here⟩⟩
  | restore => exact ⟨0, _, rfl, ⟨stands.saved, stands.saved⟩, fun onward => (onward rfl).elim⟩

/-- Narrow motions never fault and keep to the boundaries. Unless one goes back they are a walk. -/
theorem StandsIn.moveAll (stands : bookmark.StandsIn text)
    (narrow : ∀ motion ∈ motions, Motion.Narrow motion) :
    ∃ later, bookmark.moveAll motions = .ok later ∧ later.StandsIn text ∧
      (.restore ∉ motions → ∃ passed, bookmark.here.Walks passed later.here) := by
  induction motions generalizing bookmark with
  | nil => exact ⟨bookmark, rfl, stands, fun _ => ⟨[], .stay bookmark.here⟩⟩
  | cons motion rest inductionHypothesis =>
      obtain ⟨first, others⟩ := List.forall_mem_cons.mp narrow
      obtain ⟨skipped, middle, moved, between, step⟩ := stands.move first
      obtain ⟨later, arrived, there, walk⟩ := inductionHypothesis between others
      refine ⟨later, (moveAll_cons moved rest).trans arrived, there, fun onward => ?_⟩
      obtain ⟨passed, walks⟩ := step (List.ne_of_not_mem_cons onward).symm
      obtain ⟨further, more⟩ := walk (List.not_mem_of_not_mem_cons onward)
      exact ⟨passed ++ further, walks.trans more⟩

/-- A bookmark follows a walk by one step for each character. -/
theorem moveAll_next (walks : reader.Walks passed last) (saved : Reader) :
    moveAll ⟨reader, saved⟩ (passed.map fun _ => .next) = .ok ⟨last, saved⟩ := by
  induction walks with
  | stay => rfl
  | @step reader next last c passed found moved _ inductionHypothesis =>
      have step : move ⟨reader, saved⟩ .next = .ok (0, ⟨next, saved⟩) := by
        rw [move, moved]
        rfl
      exact (moveAll_cons step _).trans inductionHypothesis

/-- The readers that are visited are those on a boundary of the text. More bookmarks in the same
text would visit no others. -/
theorem visits_iff : Visits text reader ↔ reader.StandsIn text := by
  constructor
  · rintro ⟨motions, bookmark, narrow, moved, rfl⟩
    obtain ⟨later, arrived, there, _⟩ := (StandsIn.start text).moveAll narrow
    cases moved.symm.trans arrived
    exact there.here
  · intro stands
    obtain ⟨before, after, between⟩ := stands.between
    -- A fresh bookmark steps over all the characters in front of the boundary.
    have begins : (Reader.start text).Between [] (before ++ after) :=
      ⟨stands.source ▸ between.cut, rfl⟩
    obtain ⟨last, walks, same, there⟩ := begins.walks
    obtain rfl := there.eq between (same.trans stands.source.symm)
    exact ⟨_, _, by simp [Motion.Narrow], moveAll_next walks (Reader.start text), rfl⟩

/-- A bookmark that looks for one-byte characters never faults. It is always on a character boundary
of its text, and only at the end it finds no character. The piece between any two places that are
visited can be taken. Motions that do not return to the saved place never lead to an earlier place,
and the piece up to the one that they lead to has the characters that they pass over. -/
theorem moveAll_stands (text : String) (motions : List Motion)
    (narrow : ∀ motion ∈ motions, Motion.Narrow motion) :
    ∃ bookmark, (start text).moveAll motions = .ok bookmark ∧
      bookmark.here.text = text ∧
      bookmark.here.position ≤ text.utf8ByteSize ∧
      (Text.boundary? text bookmark.here.position).isSome ∧
      (∃ found, bookmark.here.peek = .ok found ∧
        (found = none ↔ bookmark.here.atEnd = true)) ∧
      (∀ first last, Visits text first → Visits text last → first.position ≤ last.position →
        ∃ piece, bookmark.here.slice first.position last.position = .ok piece) ∧
      ∀ onward, (∀ motion ∈ onward, Motion.Narrow motion) → .restore ∉ onward →
        ∃ later passed, bookmark.moveAll onward = .ok later ∧
          bookmark.here.position ≤ later.here.position ∧
          bookmark.here.Walks passed later.here ∧
          bookmark.here.slice bookmark.here.position later.here.position =
            .ok (String.ofList passed) := by
  obtain ⟨bookmark, moved, stands, _⟩ := (StandsIn.start text).moveAll narrow
  have here := stands.here
  refine ⟨bookmark, moved, here.source, here.position_le, here.boundary, here.peek, ?_, ?_⟩
  · intro first last visitsFirst visitsLast ordered
    rw [Reader.slice, here.source]
    exact (visits_iff.mp visitsFirst).slice (visits_iff.mp visitsLast) ordered
  · intro onward narrow forward
    obtain ⟨later, arrived, _, walk⟩ := stands.moveAll narrow
    obtain ⟨passed, walks⟩ := walk forward
    obtain ⟨_, ordered, piece⟩ := walks.slice here
    rw [← here.source] at piece
    exact ⟨later, passed, arrived, ordered, walks, piece⟩

/-- The bookmark goes back over characters of two and of three bytes, and walks over them again. -/
theorem moveAll_stands_return :
    (∀ motion ∈ [.next, .save, .skipUntil 'b', .next, .restore], Motion.Narrow motion) ∧
    ∃ bookmark later, (start "aé→b'").moveAll [.next, .save, .skipUntil 'b', .next, .restore] =
        .ok bookmark ∧ bookmark.here.position = 1 ∧
      bookmark.moveAll [.next, .skipUntil '\x27'] = .ok later ∧ later.here.position = 7 ∧
      bookmark.here.Walks ['é', '→', 'b'] later.here := by
  have narrow : ∀ motion ∈ [.next, .save, .skipUntil 'b', .next, .restore],
      Motion.Narrow motion := by decide
  have back : (start "aé→b'").moveAll [.next, .save, .skipUntil 'b', .next, .restore] =
      .ok ⟨⟨"aé→b'", 1⟩, ⟨"aé→b'", 1⟩⟩ := by decide +kernel
  have forth : moveAll ⟨⟨"aé→b'", 1⟩, ⟨"aé→b'", 1⟩⟩ [.next, .skipUntil '\x27'] =
      .ok ⟨⟨"aé→b'", 7⟩, ⟨"aé→b'", 1⟩⟩ := by decide +kernel
  have cut : Reader.slice ⟨"aé→b'", 1⟩ 1 7 = .ok (String.ofList ['é', '→', 'b']) := by
    decide +kernel
  obtain ⟨bookmark, moved, _, _, _, _, _, onward⟩ := moveAll_stands "aé→b'" _ narrow
  cases back.symm.trans moved
  obtain ⟨later, passed, arrived, _, walks, piece⟩ :=
    onward [.next, .skipUntil '\x27'] (by decide) (by decide)
  cases forth.symm.trans arrived
  obtain rfl := String.ofList_inj.mp (Except.ok.inj (piece.symm.trans cut))
  exact ⟨narrow, _, _, back, rfl, forth, rfl, walks⟩

/-- A jump to a one-byte character, from any place that is visited, ends where the single steps end.
It counts the bytes in between, and the needle is not among the characters that it skips. -/
theorem skipUntil_eq_stepUntil (visits : Visits text reader) (narrow : needle.toNat < 128) :
    ∃ skipped last piece, reader.skipUntil needle = .ok (skipped, last) ∧
      reader.stepUntil needle = .ok last ∧ last.position = reader.position + skipped ∧
      reader.slice reader.position last.position = .ok piece ∧ needle ∉ piece.toList := by
  have stands := visits_iff.mp visits
  obtain ⟨before, after, between⟩ := stands.between
  obtain ⟨skipped, last, passed, jumped, walks, differ⟩ := stands.skipUntil narrow
  obtain ⟨stepped, arrived, text, there⟩ := between.stepUntil needle
  obtain ⟨other, known, same, also⟩ := between.skipUntil narrow
  cases known.symm.trans jumped
  -- Both stop behind the same characters of one text, so they stop at the same place.
  obtain rfl := there.eq also (text.trans same.symm)
  obtain ⟨_, _, piece⟩ := walks.slice stands
  rw [← stands.source] at piece
  exact ⟨_, _, _, jumped, arrived, Reader.skipUntil_position jumped, piece,
    by rwa [String.toList_ofList]⟩

/-- The jump starts behind a character that was passed and crosses one of three bytes. -/
theorem skipUntil_eq_stepUntil_wide :
    Visits "aé→b'" ⟨"aé→b'", 3⟩ ∧ '\x27'.toNat < 128 ∧
    ∃ last, Reader.skipUntil ⟨"aé→b'", 3⟩ '\x27' = .ok (4, last) ∧
      Reader.stepUntil ⟨"aé→b'", 3⟩ '\x27' = .ok last ∧ last.position = 7 := by
  have visits : Visits "aé→b'" ⟨"aé→b'", 3⟩ :=
    ⟨[.skipUntil 'b', .restore, .next, .next], ⟨⟨"aé→b'", 3⟩, ⟨"aé→b'", 0⟩⟩, by decide,
      by decide +kernel, rfl⟩
  obtain ⟨skipped, last, _, jumped, stepped, position, _⟩ :=
    skipUntil_eq_stepUntil visits (by decide : '\x27'.toNat < 128)
  have known : Reader.skipUntil ⟨"aé→b'", 3⟩ '\x27' = .ok (4, ⟨"aé→b'", 7⟩) := by decide +kernel
  cases known.symm.trans jumped
  exact ⟨visits, by decide, _, known, stepped, position⟩

end ExprLexer.Bookmark
