/-
This file places a reader between two parts of its text. The reader is where it is because of the
characters in front, and what it does next depends on the characters behind.
-/

import ExprLexer.Proofs.Text.Boundary

namespace ExprLexer

/-- The reader stands between two parts of its text. -/
structure Reader.Between (reader : Reader) (before after : List Char) : Prop where
  cut : reader.text.toList = before ++ after
  position : reader.position = Text.byteLength before

namespace Reader.Between

variable {reader other : Reader} {before after rest : List Char} {c needle : Char}

theorem start (text : String) : (Reader.start text).Between [] text.toList := ⟨rfl, rfl⟩

/-- In one text only one reader stands behind given characters. -/
theorem eq (stands : reader.Between before after) (also : other.Between before rest)
    (text : reader.text = other.text) : reader = other := by
  rcases reader with ⟨source, position⟩
  rcases other with ⟨otherSource, otherPosition⟩
  have same : position = otherPosition := stands.position.trans also.position.symm
  rw [show source = otherSource from text, same]

theorem peek (stands : reader.Between before after) : reader.peek = .ok after.head? := by
  rw [Reader.peek, stands.position, Text.charAt_cut stands.cut]

/-- The character that is read is the first one of the rest. -/
theorem of_peek (stands : reader.Between before after) (found : reader.peek = .ok (some c)) :
    ∃ later, after = c :: later :=
  List.head?_eq_some_iff.mp (Except.ok.inj (stands.peek.symm.trans found))

theorem size (stands : reader.Between before after) :
    reader.size = Text.byteLength (before ++ after) := by
  rw [Reader.size, Text.utf8ByteSize_cut stands.cut, Text.byteLength_append]

theorem position_le (stands : reader.Between before after) : reader.position ≤ reader.size := by
  rw [stands.size, stands.position, Text.byteLength_append]
  exact Nat.le_add_right _ _

/-- Only the last position is the end. -/
theorem atEnd_iff (stands : reader.Between before after) : reader.atEnd = true ↔ after = [] := by
  rw [Reader.atEnd, stands.size, stands.position, Text.byteLength_append, decide_eq_true_iff,
    ← Text.byteLength_eq_zero_iff]
  omega

theorem past (stands : reader.Between before (c :: after)) :
    Reader.Between { reader with position := reader.position + c.utf8Size } (before ++ [c])
      after where
  cut := by simpa using stands.cut
  position := by simp [stands.position]

/-- A jump passes over the characters that differ from the needle. -/
theorem skipUntil (stands : reader.Between before after) (narrow : needle.toNat < 128) :
    ∃ later, reader.skipUntil needle =
        .ok (Text.byteLength (after.takeWhile (· ≠ needle)), later) ∧
      later.text = reader.text ∧
      later.Between (before ++ after.takeWhile (· ≠ needle)) (after.dropWhile (· ≠ needle)) := by
  have found := Text.findByte_cut narrow stands.cut
  have jumped : reader.skipUntil needle = .ok (Text.byteLength (after.takeWhile (· ≠ needle)),
      ⟨reader.text, Text.byteLength (before ++ after.takeWhile (· ≠ needle))⟩) := by
    rw [Reader.skipUntil, if_pos narrow, if_pos stands.position_le, stands.position]
    simp only [found, Text.byteLength_append, Nat.add_sub_cancel_left]
  have further : reader.text.toList =
      before ++ after.takeWhile (· ≠ needle) ++ after.dropWhile (· ≠ needle) := by
    rw [List.append_assoc, List.takeWhile_append_dropWhile]
    exact stands.cut
  exact ⟨_, jumped, rfl, further, rfl⟩

end Reader.Between

/-- The reader stands in front of a character of the text or at its end. -/
structure Reader.StandsIn (reader : Reader) (text : String) : Prop where
  source : reader.text = text
  boundary : (Text.boundary? text reader.position).isSome

namespace Reader

variable {reader first last : Reader} {text : String} {before after : List Char}

theorem Between.standsIn (stands : reader.Between before after) (same : reader.text = text) :
    reader.StandsIn text where
  source := same
  boundary := Text.boundary?_isSome_iff_cut.mpr ⟨before, after, same ▸ stands.cut, stands.position⟩

namespace StandsIn

theorem start (text : String) : (Reader.start text).StandsIn text :=
  (Between.start text).standsIn rfl

theorem between (stands : reader.StandsIn text) : ∃ before after, reader.Between before after := by
  obtain ⟨before, after, cut, position⟩ := Text.boundary?_isSome_iff_cut.mp stands.boundary
  exact ⟨before, after, by rw [stands.source, cut], position⟩

theorem position_le (stands : reader.StandsIn text) : reader.position ≤ text.utf8ByteSize := by
  obtain ⟨before, after, between⟩ := stands.between
  exact stands.source ▸ between.position_le

/-- Nothing is to be read at the end of the text only. -/
theorem peek (stands : reader.StandsIn text) :
    ∃ found, reader.peek = .ok found ∧ (found = none ↔ reader.atEnd = true) := by
  obtain ⟨before, after, between⟩ := stands.between
  exact ⟨after.head?, between.peek, by rw [between.atEnd_iff, List.head?_eq_none_iff]⟩

/-- What lies between two readers of one text is a part of the text. -/
theorem slice (stands : first.StandsIn text) (further : last.StandsIn text)
    (ordered : first.position ≤ last.position) :
    ∃ piece, Text.slice text first.position last.position = .ok piece := by
  obtain ⟨before, after, cut, place⟩ := Text.boundary?_isSome_iff_cut.mp stands.boundary
  obtain ⟨whole, back, other, placed⟩ := Text.boundary?_isSome_iff_cut.mp further.boundary
  rw [place, placed] at ordered ⊢
  obtain ⟨middle, rfl, rfl⟩ := Text.cut_le (cut.symm.trans other) ordered
  exact ⟨_, Text.slice_cut other⟩

end StandsIn

end Reader

end ExprLexer
