/-
This file reads a text at the boundaries of its characters. A text is cut into the characters before
an offset and those after it, and each operation on offsets is an operation on these lists.
-/

import ExprLexer.Proofs.Category
import ExprLexer.Text.Reader
import Mathlib.Data.List.DropRight

namespace ExprLexer.Text

variable {text : String} {front piece back : List Char} {c needle : Char}

theorem eq_ofList_of_toList {cs : List Char} (same : text.toList = cs) :
    text = String.ofList cs := by
  rw [← same, String.ofList_toList]

theorem utf8ByteSize_cut (cut : text.toList = front ++ back) :
    text.utf8ByteSize = byteLength front + byteLength back := by
  rw [← byteLength_toList, cut, byteLength_append]

theorem byteLength_eq_zero_iff {cs : List Char} : byteLength cs = 0 ↔ cs = [] := by
  cases cs with
  | nil => simp
  | cons c rest =>
      have wide := c.utf8Size_pos
      simp only [byteLength_cons, reduceCtorEq, iff_false]
      omega

theorem byteLength_pos_iff {cs : List Char} : 0 < byteLength cs ↔ cs ≠ [] := by
  rw [Nat.pos_iff_ne_zero, ne_eq, byteLength_eq_zero_iff]

theorem charAt_cut (cut : text.toList = front ++ back) :
    charAt text (byteLength front) = .ok back.head? := by
  have whole := eq_ofList_of_toList cut
  rw [String.ofList_append] at whole
  have here := charAt_append (String.ofList front) (String.ofList back)
  rwa [← whole, utf8ByteSize_ofList, String.toList_ofList] at here

theorem slice_cut (cut : text.toList = front ++ piece ++ back) :
    slice text (byteLength front) (byteLength (front ++ piece)) = .ok (String.ofList piece) := by
  have whole := eq_ofList_of_toList cut
  rw [String.ofList_append, String.ofList_append] at whole
  have here := slice_append (String.ofList front) (String.ofList piece) (String.ofList back)
  rwa [← whole, ← String.ofList_append, utf8ByteSize_ofList, utf8ByteSize_ofList] at here

/-- The range from a cut to the end has all characters behind the cut. -/
theorem slice_behind (cut : text.toList = front ++ back) :
    slice text (byteLength front) text.utf8ByteSize = .ok (String.ofList back) := by
  rw [utf8ByteSize_cut cut, ← byteLength_append]
  exact slice_cut (cut.trans (List.append_nil _).symm)

theorem toByteArray_toList (text : String) :
    text.toByteArray = (text.toList.flatMap String.utf8EncodeChar).toByteArray := by
  conv_lhs => rw [← String.ofList_toList (s := text)]
  rfl

theorem byteLength_eq_length (cs : List Char) :
    byteLength cs = (cs.flatMap String.utf8EncodeChar).length := by
  induction cs with
  | nil => rfl
  | cons c rest inductionHypothesis => simp [inductionHypothesis]

/-- The bytes at a character boundary are those of the character. -/
theorem getUTF8Byte_cut (cut : text.toList = front ++ c :: back) {index : Nat}
    (inside : index < (String.utf8EncodeChar c).length)
    (within : byteLength front + index < text.utf8ByteSize) :
    text.getUTF8Byte ⟨byteLength front + index⟩ within = (String.utf8EncodeChar c)[index] := by
  rw [String.getUTF8Byte_eq_getElem]
  simp only [toByteArray_toList text, cut, List.getElem_toByteArray, List.flatMap_append,
    List.flatMap_cons]
  rw [List.getElem_append_right (by simp [byteLength_eq_length])]
  simp only [byteLength_eq_length, Nat.add_sub_cancel_left]
  rw [List.getElem_append_left inside]

/-- Every byte of a longer character is at least 128. -/
theorem wide_bytes (wide : 128 ≤ c.toNat) :
    ∀ byte ∈ String.utf8EncodeChar c, 128 ≤ byte.toNat := by
  have size : ¬ c.val.toNat ≤ 127 := Nat.not_le.mpr wide
  simp only [String.utf8EncodeChar, size, if_false]
  intro byte member
  split at member
  · simp only [List.mem_cons, List.not_mem_nil, or_false] at member
    rcases member with rfl | rfl <;> simp <;> omega
  · split at member
    · simp only [List.mem_cons, List.not_mem_nil, or_false] at member
      rcases member with rfl | rfl | rfl <;> simp <;> omega
    · simp only [List.mem_cons, List.not_mem_nil, or_false] at member
      rcases member with rfl | rfl | rfl | rfl <;> simp <;> omega

theorem narrow_bytes (narrow : c.toNat < 128) :
    String.utf8EncodeChar c = [c.toNat.toUInt8] := by
  have size : c.val.toNat ≤ 127 := Nat.le_of_lt_succ narrow
  simp only [String.utf8EncodeChar, size, if_true]
  rfl

theorem narrow_utf8Size (narrow : c.toNat < 128) : c.utf8Size = 1 := by
  rw [← String.length_utf8EncodeChar, narrow_bytes narrow]
  rfl

/-- A byte below 128 stands only in the encoding of the character that it is. -/
theorem eq_of_mem_bytes (narrow : needle.toNat < 128)
    (found : needle.toNat.toUInt8 ∈ String.utf8EncodeChar c) : c = needle := by
  have value : needle.toNat.toUInt8.toNat = needle.toNat := by
    simp only [Nat.toUInt8_eq, UInt8.toNat_ofNat']
    omega
  by_cases wide : 128 ≤ c.toNat
  · have large := wide_bytes wide _ found
    omega
  · rw [narrow_bytes (Nat.lt_of_not_le wide), List.mem_singleton] at found
    have same := congrArg UInt8.toNat found
    simp only [value, Nat.toUInt8_eq, UInt8.toNat_ofNat'] at same
    apply Char.ext
    apply UInt32.toNat_inj.mp
    change c.toNat = needle.toNat
    omega

/-- A byte lies in a category exactly if the character that it belongs to does. -/
theorem ofNat_mem_iff {category : Category} {byte : UInt8}
    (member : byte ∈ String.utf8EncodeChar c) :
    Char.ofNat byte.toNat ∈ category ↔ c ∈ category := by
  by_cases wide : 128 ≤ c.toNat
  · have large := wide_bytes wide byte member
    have valid : byte.toNat.isValidChar := Or.inl (Nat.lt_trans byte.toNat_lt_size (by decide))
    have value : (Char.ofNat byte.toNat).toNat = byte.toNat := by
      rw [Char.ofNat, dif_pos valid]
      rfl
    constructor
    · intro inside
      have small := Category.narrow inside
      omega
    · intro inside
      have small := Category.narrow inside
      omega
  · have small : c.toNat < 128 := Nat.lt_of_not_le wide
    rw [narrow_bytes small, List.mem_singleton] at member
    have value : byte.toNat = c.toNat := by
      rw [member]
      simp only [Nat.toUInt8_eq, UInt8.toNat_ofNat']
      omega
    rw [value, Char.ofNat_toNat]

/-- A category holds a byte of a text exactly if it holds one of the characters. -/
theorem exists_byte_mem_iff {category : Category} :
    (∃ offset, ∃ inside : offset < text.utf8ByteSize,
      Char.ofNat (text.getUTF8Byte ⟨offset⟩ inside).toNat ∈ category) ↔
      ∃ c ∈ text.toList, c ∈ category := by
  constructor
  · rintro ⟨offset, inside, found⟩
    have member : text.getUTF8Byte ⟨offset⟩ inside ∈
        text.toList.flatMap String.utf8EncodeChar := by
      rw [String.getUTF8Byte_eq_getElem]
      simp only [toByteArray_toList text, List.getElem_toByteArray, List.getElem_mem]
    obtain ⟨c, among, member⟩ := List.mem_flatMap.mp member
    exact ⟨c, among, (ofNat_mem_iff member).mp found⟩
  · rintro ⟨c, among, found⟩
    obtain ⟨front, back, cut⟩ := List.append_of_mem among
    have size := utf8ByteSize_cut cut
    have wide := c.utf8Size_pos
    have first : 0 < (String.utf8EncodeChar c).length := by simpa using wide
    rw [byteLength_cons] at size
    have inside : byteLength front + 0 < text.utf8ByteSize := by omega
    refine ⟨_, inside, ?_⟩
    rw [getUTF8Byte_cut cut first inside]
    exact (ofNat_mem_iff (List.getElem_mem first)).mpr found

/-- What a search passes over does not hold what it looks for. -/
theorem not_mem_takeWhile (needle : Char) (cs : List Char) :
    needle ∉ cs.takeWhile (· ≠ needle) := fun member => by
  simpa using List.mem_takeWhile_imp member

/-- By its contract the search for a one-byte character stops at the first occurrence of the
character, or at the end. -/
theorem firstByte_cut (narrow : needle.toNat < 128) (cut : text.toList = front ++ back) :
    FirstByte text needle.toNat.toUInt8 (byteLength front)
      (byteLength (front ++ back.takeWhile (· ≠ needle))) := by
  induction back generalizing front with
  | nil =>
      have size := utf8ByteSize_cut cut
      rw [List.takeWhile_nil, List.append_nil]
      refine .stop fun inside => ?_
      simp [size] at inside
  | cons c rest inductionHypothesis =>
      by_cases same : c = needle
      · subst same
        have stopped : (c :: rest).takeWhile (· ≠ c) = [] := by simp
        have first : 0 < (String.utf8EncodeChar c).length := by simpa using c.utf8Size_pos
        rw [stopped, List.append_nil]
        refine .stop fun inside => ?_
        have byte := getUTF8Byte_cut cut first inside
        simpa only [narrow_bytes narrow, List.getElem_cons_zero, Nat.add_zero] using byte
      · have size := utf8ByteSize_cut cut
        have further : text.toList = (front ++ [c]) ++ rest := by simp [cut]
        have later := inductionHypothesis further
        rw [List.append_assoc, List.singleton_append, byteLength_append, byteLength_cons,
          byteLength_nil, Nat.add_zero] at later
        rw [byteLength_cons] at size
        rw [List.takeWhile_cons_of_pos (by simpa using same)]
        -- The bytes of another character are all different from the needle.
        refine later.skip (by omega) fun index bound within found => ?_
        have bound : index < (String.utf8EncodeChar c).length := by simpa using bound
        rw [getUTF8Byte_cut cut bound] at found
        exact same (eq_of_mem_bytes narrow (found ▸ List.getElem_mem bound))

theorem findByte_cut (narrow : needle.toNat < 128) (cut : text.toList = front ++ back) :
    findByte text needle.toNat.toUInt8 (byteLength front) =
      byteLength (front ++ back.takeWhile (· ≠ needle)) :=
  findByte_eq_iff.mpr (firstByte_cut narrow cut)

/-- The run of bytes of a category before a boundary is the run of characters of the category. -/
theorem runStart_cut (category : Category) (cut : text.toList = front ++ back) :
    runStart text (fun byte => Char.ofNat byte.toNat ∈ category) (byteLength front) =
      byteLength (front.rdropWhile (· ∈ category)) := by
  induction front using List.reverseRecOn generalizing back with
  | nil => rfl
  | append_singleton front c inductionHypothesis =>
      have cut : text.toList = front ++ c :: back := by simpa using cut
      have size := utf8ByteSize_cut cut
      have wide := c.utf8Size_pos
      have whole : byteLength (front ++ [c]) = byteLength front + (c.utf8Size - 1) + 1 := by
        simp only [byteLength_append, byteLength_cons, byteLength_nil]
        omega
      rw [byteLength_cons] at size
      have inside : byteLength front + (c.utf8Size - 1) < text.utf8ByteSize := by omega
      have last : c.utf8Size - 1 < (String.utf8EncodeChar c).length := by
        rw [String.length_utf8EncodeChar]
        omega
      rw [whole, runStart, dif_pos inside, getUTF8Byte_cut cut last inside]
      simp only [ofNat_mem_iff (List.getElem_mem last)]
      by_cases escape : c ∈ category
      · have member : decide (c ∈ category) = true := by simpa using escape
        rw [if_pos member, List.rdropWhile_concat_pos (· ∈ category) _ _ member,
          narrow_utf8Size (Category.narrow escape)]
        exact inductionHypothesis cut
      · have outside : ¬ decide (c ∈ category) = true := by simpa using escape
        rw [if_neg outside, List.rdropWhile_concat_neg (· ∈ category) _ _ outside, whole]

end ExprLexer.Text
