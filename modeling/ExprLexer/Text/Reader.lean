/-
This file moves through a text from left to right, one character at a time or by a jump to the
next occurrence of a byte.
-/

import ExprLexer.Text.Bytes

namespace ExprLexer

/-- A reader stands at a byte offset of its text. -/
structure Reader where
  text : String
  position : Nat
  deriving DecidableEq

namespace Reader

def start (text : String) : Reader := ⟨text, 0⟩

/-- The length of the whole text in bytes. -/
def size (reader : Reader) : Nat := reader.text.utf8ByteSize

def atEnd (reader : Reader) : Bool := reader.size ≤ reader.position

/-- The character at the position, or nothing at the end. -/
def peek (reader : Reader) : Except Fault (Option Char) :=
  Text.charAt reader.text reader.position

/-- The reader behind the character at the position. At the end it stays where it is. -/
def next (reader : Reader) : Except Fault Reader := do
  match ← reader.peek with
  | some c => return { reader with position := reader.position + c.utf8Size }
  | none => return reader

def slice (reader : Reader) (start stop : Nat) : Except Fault String :=
  Text.slice reader.text start stop

/-- The reader at the next byte that is the needle, or at the end, and the number of bytes skipped.
A needle of one byte never occurs inside a longer character. -/
def skipUntil (reader : Reader) (needle : Char) : Except Fault (Nat × Reader) :=
  if needle.toNat < 128 then
    if reader.position ≤ reader.size then
      let found := Text.findByte reader.text needle.toNat.toUInt8 reader.position
      .ok (found - reader.position, { reader with position := found })
    else
      .error (.badRange reader.position reader.size)
  else
    .error (.wideNeedle needle)

theorem peek_inside {reader : Reader} {c : Char} (found : reader.peek = .ok (some c)) :
    reader.position + c.utf8Size ≤ reader.size :=
  Text.le_of_charAt found

theorem next_of_peek {reader : Reader} {c : Char} (found : reader.peek = .ok (some c)) :
    reader.next = .ok { reader with position := reader.position + c.utf8Size } := by
  rw [next, found]
  rfl

theorem skipUntil_text {reader next : Reader} {needle : Char} {skipped : Nat}
    (jumped : reader.skipUntil needle = .ok (skipped, next)) : next.text = reader.text := by
  unfold skipUntil at jumped
  split at jumped
  · split at jumped
    · cases jumped
      rfl
    · nomatch jumped
  · nomatch jumped

theorem skipUntil_position {reader next : Reader} {needle : Char} {skipped : Nat}
    (jumped : reader.skipUntil needle = .ok (skipped, next)) :
    next.position = reader.position + skipped := by
  unfold skipUntil at jumped
  split at jumped
  · split at jumped
    · cases jumped
      exact (Nat.add_sub_of_le (Text.le_findByte _ _ _)).symm
    · nomatch jumped
  · nomatch jumped

end Reader

end ExprLexer
