/-
This file reads a text by byte offsets. An offset is usable only on a character boundary, and the
lemmas say what each operation gives there in terms of the text before and after the boundary.
-/

import ExprLexer.Fault

namespace ExprLexer.Text

/-- The number of bytes that the characters take in UTF-8. -/
def byteLength : List Char → Nat
  | [] => 0
  | c :: rest => c.utf8Size + byteLength rest

/-- The position at an offset, if the offset is a character boundary of the text. -/
def boundary? (text : String) (offset : Nat) : Option text.Pos :=
  if inside : (String.Pos.Raw.mk offset).IsValid text then some ⟨⟨offset⟩, inside⟩ else none

/-- The character that starts at an offset, or nothing at the end of the text. -/
def charAt (text : String) (offset : Nat) : Except Fault (Option Char) :=
  match boundary? text offset with
  | some position => .ok position.get?
  | none => .error (.badRange offset text.utf8ByteSize)

/-- The text between two offsets. -/
def slice (text : String) (start stop : Nat) : Except Fault String :=
  if start ≤ stop then
    match boundary? text start, boundary? text stop with
    | some first, some last => .ok (text.extract first last)
    | _, _ => .error (.badRange start stop)
  else
    .error (.badRange start stop)

/-- The first offset at or after the given one that holds the byte, or the end of the text. The
search stands for `memchr`, and `FirstByte` is the contract that `memchr` documents. -/
def findByte (text : String) (byte : UInt8) (offset : Nat) : Nat :=
  if inside : offset < text.utf8ByteSize then
    if text.getUTF8Byte ⟨offset⟩ inside = byte then offset
    else findByte text byte (offset + 1)
  else
    offset
termination_by text.utf8ByteSize - offset

/-- The contract of a search for a byte. The search passes over bytes that differ from the one it
looks for, and it stops at that byte or at the end of the text. -/
structure FirstByte (text : String) (byte : UInt8) (offset found : Nat) : Prop where
  ordered : offset ≤ found
  bound : found ≤ max offset text.utf8ByteSize
  differ : ∀ index, ∀ inside : index < text.utf8ByteSize, offset ≤ index → index < found →
    text.getUTF8Byte ⟨index⟩ inside ≠ byte
  here : ∀ inside : found < text.utf8ByteSize, text.getUTF8Byte ⟨found⟩ inside = byte

/-- The offset where the run of bytes with a property starts that ends right before an offset. -/
def runStart (text : String) (property : UInt8 → Bool) : Nat → Nat
  | 0 => 0
  | offset + 1 =>
      if inside : offset < text.utf8ByteSize then
        if property (text.getUTF8Byte ⟨offset⟩ inside) then
          runStart text property offset
        else
          offset + 1
      else
        offset + 1

@[simp] theorem byteLength_nil : byteLength [] = 0 := rfl

@[simp] theorem byteLength_cons (c : Char) (cs : List Char) :
    byteLength (c :: cs) = c.utf8Size + byteLength cs := rfl

@[simp] theorem byteLength_append (front back : List Char) :
    byteLength (front ++ back) = byteLength front + byteLength back := by
  induction front with
  | nil => simp
  | cons c rest inductionHypothesis => simp [inductionHypothesis, Nat.add_assoc]

theorem utf8ByteSize_ofList (cs : List Char) :
    (String.ofList cs).utf8ByteSize = byteLength cs := by
  induction cs with
  | nil => rfl
  | cons c rest inductionHypothesis =>
      have split : String.ofList (c :: rest) = String.singleton c ++ String.ofList rest := by
        rw [String.singleton_eq_ofList, ← String.ofList_append]
        rfl
      rw [split, String.utf8ByteSize_append, String.utf8ByteSize_singleton,
        inductionHypothesis, byteLength_cons]

theorem byteLength_toList (text : String) : byteLength text.toList = text.utf8ByteSize := by
  rw [← utf8ByteSize_ofList, String.ofList_toList]

/-- The length of every front part is a boundary. -/
theorem boundary_append {text front back : String} (cut : text = front ++ back) :
    boundary? text front.utf8ByteSize = some (String.Pos.ofEqAppend cut) := by
  have inside : (String.Pos.Raw.mk front.utf8ByteSize).IsValid text :=
    String.Pos.Raw.isValid_iff_exists_append.mpr ⟨front, back, cut, rfl⟩
  rw [boundary?, dif_pos inside]
  rfl

/-- Every boundary is the length of a front part. -/
theorem boundary_isSome_iff (text : String) (offset : Nat) :
    (boundary? text offset).isSome ↔
      ∃ front back, text = front ++ back ∧ offset = front.utf8ByteSize := by
  simp [boundary?, String.Pos.Raw.isValid_iff_exists_append, String.Pos.Raw.ext_iff]

theorem get_of_splits {text front back : String} {position : text.Pos}
    (cut : position.Splits front back) : position.get? = back.toList.head? := by
  by_cases atEnd : position = text.endPos
  · have nothing : back = "" := (String.Pos.Splits.eq_endPos_iff cut).mp atEnd
    subst nothing
    simp [String.Pos.get?, atEnd, String.Slice.Pos.get?]
  · obtain ⟨rest, starts⟩ := cut.exists_eq_singleton_append atEnd
    subst starts
    have here := cut.next.get_eq_of_singleton
    simp [String.Pos.get?, atEnd, String.Slice.Pos.get?, String.Pos.get_toSlice]

theorem charAt_append (front back : String) :
    charAt (front ++ back) front.utf8ByteSize = .ok back.toList.head? := by
  rw [charAt, boundary_append rfl]
  exact congrArg Except.ok (get_of_splits (String.Pos.splits_ofEqAppend rfl))

theorem slice_append (front piece back : String) :
    slice (front ++ piece ++ back) front.utf8ByteSize (front ++ piece).utf8ByteSize =
      .ok piece := by
  have cut : front ++ piece ++ back = front ++ (piece ++ back) := String.append_assoc
  have ordered : front.utf8ByteSize ≤ (front ++ piece).utf8ByteSize := by simp
  rw [slice, if_pos ordered, boundary_append cut, boundary_append rfl]
  refine congrArg Except.ok (String.toByteArray_inj.mp ?_)
  rw [String.toByteArray_extract]
  have first : (String.Pos.ofEqAppend cut).offset.byteIdx = front.utf8ByteSize + 0 := rfl
  have last : (String.Pos.ofEqAppend (rfl : front ++ piece ++ back = _)).offset.byteIdx =
      (front ++ piece).utf8ByteSize := rfl
  rw [first, last, String.toByteArray_append, String.toByteArray_append, ByteArray.append_assoc,
    String.utf8ByteSize_append, ByteArray.extract_append_size_add' String.size_toByteArray.symm,
    ByteArray.extract_append_eq_left String.size_toByteArray.symm]

/-- A character that is read lies before the end of the text. -/
theorem le_of_charAt {text : String} {offset : Nat} {c : Char}
    (found : charAt text offset = .ok (some c)) :
    offset + c.utf8Size ≤ text.utf8ByteSize := by
  by_cases inside : (boundary? text offset).isSome
  · obtain ⟨front, back, cut, atFront⟩ := (boundary_isSome_iff text offset).mp inside
    subst cut atFront
    rw [charAt_append] at found
    obtain ⟨rest, starts⟩ := List.head?_eq_some_iff.mp (Except.ok.inj found)
    have whole := byteLength_toList back
    rw [starts, byteLength_cons] at whole
    rw [String.utf8ByteSize_append]
    omega
  · rw [charAt, Option.not_isSome_iff_eq_none.mp inside] at found
    nomatch found

variable {text : String} {byte : UInt8} {offset count found other : Nat}

/-- A search ends at once if it starts at the byte or at the end of the text. -/
theorem FirstByte.stop
    (here : ∀ inside : offset < text.utf8ByteSize, text.getUTF8Byte ⟨offset⟩ inside = byte) :
    FirstByte text byte offset offset where
  ordered := Nat.le_refl offset
  bound := Nat.le_max_left offset _
  differ _ _ after before := absurd before (Nat.not_lt.mpr after)
  here := here

/-- A search may start later if the bytes before that differ. -/
theorem FirstByte.skip (first : FirstByte text byte (offset + count) found)
    (within : offset + count ≤ text.utf8ByteSize)
    (differ : ∀ index < count, ∀ inside, text.getUTF8Byte ⟨offset + index⟩ inside ≠ byte) :
    FirstByte text byte offset found where
  ordered := Nat.le_trans (Nat.le_add_right _ _) first.ordered
  bound := by
    have bound := first.bound
    omega
  differ index inside after before := by
    by_cases skipped : index < offset + count
    · obtain ⟨further, rfl⟩ := Nat.exists_eq_add_of_le after
      exact differ further (Nat.lt_of_add_lt_add_left skipped) inside
    · exact first.differ index inside (Nat.le_of_not_lt skipped) before
  here := first.here

theorem FirstByte.le (first : FirstByte text byte offset found)
    (second : FirstByte text byte offset other) : found ≤ other := by
  refine Nat.le_of_not_lt fun before => ?_
  have ordered := second.ordered
  have bound := first.bound
  have inside : other < text.utf8ByteSize := by omega
  exact first.differ other inside ordered before (second.here inside)

/-- The search meets its contract. -/
theorem firstByte_findByte (text : String) (byte : UInt8) (offset : Nat) :
    FirstByte text byte offset (findByte text byte offset) := by
  fun_induction findByte text byte offset with
  | case1 offset inside same => exact .stop fun _ => same
  | case2 offset inside differs inductionHypothesis =>
      refine inductionHypothesis.skip inside fun index first => ?_
      obtain rfl : index = 0 := by omega
      exact fun _ => differs
  | case3 offset outside => exact .stop fun inside => absurd inside outside

/-- Every search that meets the contract finds the same offset. -/
theorem findByte_eq_iff :
    findByte text byte offset = found ↔ FirstByte text byte offset found := by
  have search := firstByte_findByte text byte offset
  constructor
  · rintro rfl
    exact search
  · intro first
    exact Nat.le_antisymm (search.le first) (first.le search)

theorem le_findByte (text : String) (byte : UInt8) (offset : Nat) :
    offset ≤ findByte text byte offset :=
  (firstByte_findByte text byte offset).ordered

end ExprLexer.Text
