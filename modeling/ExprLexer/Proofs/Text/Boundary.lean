/-
This file says which offsets of a text are usable. An operation on offsets comes without a fault
exactly if the offsets are cuts of the text, and then it gives what stands there.
-/

import ExprLexer.Proofs.Text.Cut

namespace ExprLexer.Text

variable {text : String} {front back : List Char} {c : Char} {offset start stop : Nat}

theorem boundary?_isSome_iff_cut :
    (boundary? text offset).isSome ↔
      ∃ front back, text.toList = front ++ back ∧ offset = byteLength front := by
  rw [boundary_isSome_iff]
  constructor
  · rintro ⟨front, back, cut, place⟩
    exact ⟨front.toList, back.toList, by rw [cut, String.toList_append],
      by rw [place, byteLength_toList]⟩
  · rintro ⟨front, back, cut, place⟩
    have whole : text = String.ofList front ++ String.ofList back := by
      rw [← String.ofList_append]
      exact eq_ofList_of_toList cut
    exact ⟨String.ofList front, String.ofList back, whole, by rw [place, utf8ByteSize_ofList]⟩

/-- Of two cuts of one text, the later one has more in front. -/
theorem cut_le {first second firstBack secondBack : List Char}
    (same : first ++ firstBack = second ++ secondBack)
    (before : byteLength first ≤ byteLength second) :
    ∃ middle, second = first ++ middle ∧ firstBack = middle ++ secondBack := by
  rcases List.append_eq_append_iff.mp same with
    ⟨middle, whole, rest⟩ | ⟨middle, whole, rest⟩
  · exact ⟨middle, whole, rest⟩
  · rw [whole, byteLength_append] at before
    have nothing : middle = [] := byteLength_eq_zero_iff.mp (by omega)
    subst nothing
    exact ⟨[], by simpa using whole.symm, by simpa using rest.symm⟩

theorem cut_eq {first second firstBack secondBack : List Char}
    (same : first ++ firstBack = second ++ secondBack)
    (level : byteLength first = byteLength second) : first = second ∧ firstBack = secondBack := by
  obtain ⟨middle, whole, rest⟩ := cut_le same (Nat.le_of_eq level)
  rw [whole, byteLength_append] at level
  have nothing : middle = [] := byteLength_eq_zero_iff.mp (by omega)
  subst nothing
  exact ⟨by simpa using whole.symm, by simpa using rest⟩

theorem charAt_eq_ok_iff {found : Option Char} :
    charAt text offset = .ok found ↔
      ∃ front back, text.toList = front ++ back ∧ offset = byteLength front ∧
        found = back.head? := by
  constructor
  · intro read
    by_cases inside : (boundary? text offset).isSome
    · obtain ⟨front, back, cut, place⟩ := boundary?_isSome_iff_cut.mp inside
      rw [place, charAt_cut cut] at read
      exact ⟨front, back, cut, place, (Except.ok.inj read).symm⟩
    · rw [charAt, Option.not_isSome_iff_eq_none.mp inside] at read
      cases read
  · rintro ⟨front, back, cut, rfl, rfl⟩
    exact charAt_cut cut

/-- A range is usable exactly if its ends are cuts of the text in this order. -/
theorem slice_eq_ok_iff {piece : String} :
    slice text start stop = .ok piece ↔
      ∃ front back, text.toList = front ++ piece.toList ++ back ∧ start = byteLength front ∧
        stop = byteLength (front ++ piece.toList) := by
  constructor
  · intro sliced
    unfold slice at sliced
    split at sliced
    · next ordered =>
        split at sliced
        · next first last firstFound lastFound =>
            obtain ⟨front, firstBack, firstCut, firstPlace⟩ :=
              boundary?_isSome_iff_cut.mp (Option.isSome_of_eq_some firstFound)
            obtain ⟨whole, back, cut, place⟩ :=
              boundary?_isSome_iff_cut.mp (Option.isSome_of_eq_some lastFound)
            obtain ⟨middle, rfl, rest⟩ := cut_le (firstCut.symm.trans cut) (by omega)
            have known := slice_cut cut
            rw [slice, if_pos (by omega), ← firstPlace, ← place, firstFound, lastFound] at known
            have same : piece = String.ofList middle := Except.ok.inj (sliced.symm.trans known)
            rw [same, String.toList_ofList]
            exact ⟨front, back, cut, firstPlace, place⟩
        · cases sliced
    · cases sliced
  · rintro ⟨front, back, cut, rfl, rfl⟩
    rw [slice_cut cut, String.ofList_toList]

/-- The character behind a range makes it longer. -/
theorem slice_push {piece : String} (sliced : slice text start stop = .ok piece)
    (found : charAt text stop = .ok (some c)) :
    slice text start (stop + c.utf8Size) = .ok (piece.push c) := by
  obtain ⟨front, back, cut, first, last⟩ := slice_eq_ok_iff.mp sliced
  obtain ⟨whole, rest, other, place, head⟩ := charAt_eq_ok_iff.mp found
  obtain ⟨_, same⟩ := cut_eq (cut.symm.trans other) (last.symm.trans place)
  obtain ⟨after, rfl⟩ := List.head?_eq_some_iff.mp (same ▸ head.symm)
  apply slice_eq_ok_iff.mpr
  exact ⟨front, after, by simpa using cut, first, by simp [last, Nat.add_assoc]⟩

/-- Only the first byte of a character is a boundary. -/
theorem charAt_within {found : Char} (cut : text.toList = front ++ c :: back)
    (lower : byteLength front ≤ offset) (upper : offset < byteLength front + c.utf8Size)
    (read : charAt text offset = .ok (some found)) : offset = byteLength front ∧ found = c := by
  obtain ⟨other, rest, otherCut, place, head⟩ := charAt_eq_ok_iff.mp read
  obtain ⟨middle, rfl, later⟩ := cut_le (cut.symm.trans otherCut) (by omega)
  cases middle with
  | nil =>
      rw [List.nil_append] at later
      rw [← later] at head
      exact ⟨by simpa using place, Option.some.inj head⟩
  | cons d middle =>
      obtain ⟨rfl, _⟩ := List.cons.inj later
      rw [byteLength_append, byteLength_cons] at place
      omega

end ExprLexer.Text
