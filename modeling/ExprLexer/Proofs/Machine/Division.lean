/-
This file divides the source of a machine. The characters in front are done with, those of the body
belong to the token that is being read, and the rest is unread.
-/

import ExprLexer.Machine.Loop
import ExprLexer.Proofs.Lexeme.Cover
import ExprLexer.Proofs.Text.Between

namespace ExprLexer

namespace Span

/-- The span of the body behind the characters in front. -/
def ofBody (front body : List Char) : Span :=
  ⟨Text.byteLength front, Text.byteLength (front ++ body)⟩

variable {reader : Reader} {front body after : List Char} {c : Char}

theorem ofBody_slice (cut : reader.text.toList = front ++ body ++ after) :
    reader.slice (ofBody front body).start (ofBody front body).stop = .ok (String.ofList body) :=
  Text.slice_cut cut

theorem ofBody_token (cut : reader.text.toList = front ++ body ++ after) (some : body ≠ [])
    (origin : Token.Origin) :
    (ofBody front body).token reader origin =
      .ok ⟨String.ofList body, Text.byteLength front, origin⟩ := by
  have filled : String.ofList body ≠ "" := by simpa using some
  rw [token, ofBody_slice cut]
  simp only [bind, Except.bind, if_neg filled]
  rfl

theorem ofBody_extend (stands : reader.Between (front ++ body) after) :
    (ofBody front body).extend reader c = .ok (ofBody front (body ++ [c])) := by
  have ends : (ofBody front body).stop = reader.position := stands.position.symm
  rw [extend, if_pos ends]
  simp [ofBody, Nat.add_assoc]

theorem ofChar_eq_ofBody (stands : reader.Between front (c :: after)) :
    ofChar reader c = ofBody front [c] := by
  simp [ofChar, ofBody, stands.position]

end Span

/-- The text that a mode has read has the shape of the lexeme that it is the start of. -/
def Mode.Shape (front body : List Char) : Mode → Prop
  | .between => body = []
  | .numeral span => span = .ofBody front body ∧ (Lexeme.IsDigits body ∨ Lexeme.IsScaled body)
  | .exponent span => span = .ofBody front body ∧ Lexeme.IsMarked body
  | .based radix span => span = .ofBody front body ∧ Lexeme.IsBased radix body
  | .plain span => span = .ofBody front body ∧ Lexeme.IsPlainRun body
  | .quotation quote span => span = .ofBody front body ∧ Lexeme.IsOpen quote body

/-- The machine has emitted the tokens of the lexemes in front, and its mode fits the body. -/
structure Machine.Divides (machine : Machine) (suffixes : Suffixes) (source : String)
    (front body rest : List Char) : Prop where
  text : machine.reader.text = source
  reader : machine.reader.Between (front ++ body) rest
  covers : Lexeme.Covers suffixes 0 front (body ++ rest) machine.emitted.toList
  shape : machine.mode.Shape front body

namespace Machine

variable {suffixes : Suffixes} {source : String} {machine last : Machine}
  {front body rest frontLast bodyLast restLast : List Char}

theorem Divides.start (suffixes : Suffixes) (source : String) :
    (Machine.start source).Divides suffixes source [] [] source.toList where
  text := rfl
  reader := Reader.Between.start source
  covers := Lexeme.Covers.done 0 source.toList
  shape := rfl

theorem Divides.cut (divides : machine.Divides suffixes source front body rest) :
    source.toList = front ++ body ++ rest :=
  divides.text ▸ divides.reader.cut

theorem Divides.standsIn (divides : machine.Divides suffixes source front body rest) :
    machine.reader.StandsIn source :=
  divides.reader.standsIn divides.text

/-- Between tokens nothing is being read. -/
theorem Divides.body_eq_nil (divides : machine.Divides suffixes source front body rest)
    (between : machine.mode = .between) : body = [] := by
  have shape := divides.shape
  rwa [between] at shape

/-- Of two machines in one source, the one that is further has fewer characters left. -/
theorem Divides.rest_eq (divides : machine.Divides suffixes source front body rest)
    (further : last.Divides suffixes source frontLast bodyLast restLast)
    (before : machine.reader.position ≤ last.reader.position) :
    ∃ middle, frontLast ++ bodyLast = front ++ body ++ middle ∧ rest = middle ++ restLast := by
  rw [divides.reader.position, further.reader.position] at before
  exact Text.cut_le (divides.cut.symm.trans further.cut) before

end Machine

end ExprLexer
