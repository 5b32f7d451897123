/-
This file lets a reader remember one place and go back to it.
-/

import ExprLexer.Text.Reader

namespace ExprLexer

/-- A bookmark holds the reader as it stands and the reader as it was saved. -/
structure Bookmark where
  here : Reader
  saved : Reader
  deriving DecidableEq

namespace Bookmark

/-- A motion changes where the reader stands or what is saved. -/
inductive Motion where
  | next
  | skipUntil (needle : Char)
  | save
  | restore
  deriving DecidableEq

def start (text : String) : Bookmark := ⟨Reader.start text, Reader.start text⟩

/-- The bookmark after a motion, with the number of bytes that a jump skipped. -/
def move (bookmark : Bookmark) : Motion → Except Fault (Nat × Bookmark)
  | .next => do
      let reader ← bookmark.here.next
      return (0, { bookmark with here := reader })
  | .skipUntil needle => do
      let (skipped, reader) ← bookmark.here.skipUntil needle
      return (skipped, { bookmark with here := reader })
  | .save => return (0, { bookmark with saved := bookmark.here })
  | .restore => return (0, { bookmark with here := bookmark.saved })

/-- The bookmark after a list of motions. -/
def moveAll (bookmark : Bookmark) : List Motion → Except Fault Bookmark
  | [] => return bookmark
  | motion :: rest => do
      let (_, next) ← bookmark.move motion
      next.moveAll rest

end Bookmark

end ExprLexer
