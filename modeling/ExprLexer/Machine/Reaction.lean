/-
This file gives the machine's reaction to one character. The reaction depends on the mode and on
the text read so far, and it never moves the reader itself.
-/

import ExprLexer.Machine.State
import ExprLexer.Suffixes

namespace ExprLexer

/-- A reaction emits tokens and goes to a mode, or it stops the run. -/
inductive Reaction where
  /-- The reader moves past the character. -/
  | past (mode : Mode) (tokens : List Token)
  /-- The reader stays, and the character is looked at again in the new mode. -/
  | again (mode : Mode) (tokens : List Token)
  | reject (rejection : Rejection)
  deriving DecidableEq

namespace Reaction

/-- Between tokens, the character alone decides what starts. -/
def between (reader : Reader) (c : Char) : Except Fault Reaction :=
  if c ∈ Category.whitespace then
    return .past .between []
  else if c ∈ Category.structural then do
    let token ← (Span.ofChar reader c).token reader .delimiter
    return .past .between [token]
  else if c ∈ Category.quote then
    return .past (.quotation c (Span.ofChar reader c)) []
  else if c ∈ Category.numberBody then
    return .past (.numeral (Span.ofChar reader c)) []
  else
    return .past (.plain (Span.ofChar reader c)) []

/-- A character outside the alphabet of a numeral closes it. Whitespace is passed over, and any
other character starts the next token. -/
def closeNumeral (reader : Reader) (span : Span) (origin : Token.Origin) (c : Char) :
    Except Fault Reaction := do
  let token ← span.token reader origin
  if c ∈ Category.whitespace then
    return .past .between [token]
  else
    return .again .between [token]

/-- The radix that the character names, if the numeral so far is the leader of such numerals. -/
def namedRadix? (text : String) (c : Char) : Option Radix :=
  if text = Radix.leader then Radix.named? c else none

/-- A text that holds an exponent marker takes no second one. The search stands for `memchr2`, which
documents that it finds one of two bytes exactly if one of them occurs in the text. -/
def hasExponent (text : String) : Bool := text.toList.any (· ∈ Category.exponent)

def numeral (reader : Reader) (span : Span) (c : Char) : Except Fault Reaction := do
  let text ← reader.slice span.start span.stop
  match namedRadix? text c with
  | some radix =>
      let span ← span.extend reader c
      return .past (.based radix span) []
  | none =>
      if c ∈ Category.numberBody then
        let span ← span.extend reader c
        return .past (.numeral span) []
      else if c ∈ Category.exponent then
        if hasExponent text then
          return .reject (.ofDefect (.repeatedExponent c) reader.position span.start)
        else
          let span ← span.extend reader c
          return .past (.exponent span) []
      else
        closeNumeral reader span .decimal c

def exponent (reader : Reader) (span : Span) (c : Char) : Except Fault Reaction :=
  if c ∈ Category.numberBody ∨ c ∈ Category.exponentSign then do
    let span ← span.extend reader c
    return .past (.numeral span) []
  else
    return .reject (.ofDefect (.strayExponent c) reader.position span.start)

def based (reader : Reader) (radix : Radix) (span : Span) (c : Char) : Except Fault Reaction :=
  if c ∈ radix.digits then do
    let span ← span.extend reader c
    return .past (.based radix span) []
  else
    closeNumeral reader span (.based radix) c

/-- The tokens of a plain run that something follows. A suffix that applies becomes a token. -/
def cutPlain (suffixes : Suffixes) (reader : Reader) (span : Span) :
    Except Fault (List Token) := do
  let text ← reader.slice span.start span.stop
  match suffixes.cutPoint? text with
  | some cut =>
      let head ← (Span.mk 0 cut).token (Reader.start text) .plainHead
      let tail ← (Span.mk cut text.utf8ByteSize).token (Reader.start text) .plainTail
      return [{ head with start := span.start }, { tail with start := span.start + cut }]
  | none =>
      let token ← span.token reader .plain
      return [token]

/-- A plain run ends at whitespace, at a structural character and before a numeral. -/
def plain (suffixes : Suffixes) (reader : Reader) (span : Span) (c : Char) :
    Except Fault Reaction :=
  if c ∈ Category.whitespace then do
    let tokens ← cutPlain suffixes reader span
    return .past .between tokens
  else if c ∈ Category.structural then do
    let tokens ← cutPlain suffixes reader span
    let token ← (Span.ofChar reader c).token reader .delimiter
    return .past .between (tokens ++ [token])
  else if c ∈ Category.numberBody then do
    let tokens ← cutPlain suffixes reader span
    return .again .between tokens
  else do
    let span ← span.extend reader c
    return .past (.plain span) []

/-- The number of escape bytes right before the last byte of a text. -/
def escapesBeforeLast (text : String) : Nat :=
  let last := text.utf8ByteSize - 1
  last - Text.runStart text (fun byte => Char.ofNat byte.toNat ∈ Category.escape) last

/-- A quote closes the quotation unless an odd number of escapes stands right before it. -/
def quotation (reader : Reader) (quote : Char) (span : Span) (c : Char) :
    Except Fault Reaction := do
  let span ← span.extend reader c
  if c = quote then
    let text ← reader.slice span.start span.stop
    if text = "" then
      .error (.emptyQuotation span.start)
    else if escapesBeforeLast text % 2 = 0 then
      let token ← span.token reader (.quotation quote)
      return .past .between [token]
    else
      return .past (.quotation quote span) []
  else
    return .past (.quotation quote span) []

end Reaction

/-- The reaction to a character in a mode. -/
def Mode.react (suffixes : Suffixes) (reader : Reader) (c : Char) : Mode → Except Fault Reaction
  | .between => Reaction.between reader c
  | .numeral span => Reaction.numeral reader span c
  | .exponent span => Reaction.exponent reader span c
  | .based radix span => Reaction.based reader radix span c
  | .plain span => Reaction.plain suffixes reader span c
  | .quotation quote span => Reaction.quotation reader quote span c

theorem Reaction.closeNumeral_again {reader : Reader} {span : Span} {origin : Token.Origin}
    {c : Char} {mode : Mode} {tokens : List Token}
    (reacted : Reaction.closeNumeral reader span origin c = .ok (.again mode tokens)) :
    mode = .between := by
  unfold Reaction.closeNumeral at reacted
  simp only [bind, Except.bind, pure, Except.pure] at reacted
  repeat' split at reacted
  all_goals cases reacted
  rfl

/-- A character is looked at again only between tokens, and only after a token was closed. -/
theorem Mode.react_again {suffixes : Suffixes} {reader : Reader} {c : Char} {mode next : Mode}
    {tokens : List Token} (reacted : mode.react suffixes reader c = .ok (.again next tokens)) :
    next = .between ∧ mode ≠ .between := by
  cases mode with
  | between =>
      simp only [Mode.react, Reaction.between, bind, Except.bind, pure, Except.pure] at reacted
      repeat' split at reacted
      all_goals cases reacted
  | numeral span =>
      simp only [Mode.react, Reaction.numeral, bind, Except.bind, pure, Except.pure] at reacted
      repeat' split at reacted
      all_goals try cases reacted
      exact ⟨Reaction.closeNumeral_again reacted, nofun⟩
  | exponent span =>
      simp only [Mode.react, Reaction.exponent, bind, Except.bind, pure, Except.pure] at reacted
      repeat' split at reacted
      all_goals cases reacted
  | based radix span =>
      simp only [Mode.react, Reaction.based, bind, Except.bind, pure, Except.pure] at reacted
      repeat' split at reacted
      all_goals try cases reacted
      exact ⟨Reaction.closeNumeral_again reacted, nofun⟩
  | plain span =>
      simp only [Mode.react, Reaction.plain, bind, Except.bind, pure, Except.pure] at reacted
      repeat' split at reacted
      all_goals cases reacted
      exact ⟨rfl, nofun⟩
  | quotation quote span =>
      simp only [Mode.react, Reaction.quotation, bind, Except.bind, pure, Except.pure] at reacted
      repeat' split at reacted
      all_goals cases reacted

end ExprLexer
