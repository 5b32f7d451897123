/-
This file says what one lexeme is. A lexeme is the longest one that its first characters allow, and
reading it takes no memory of what stood before.
-/

import ExprLexer.Rejection
import ExprLexer.Token

namespace ExprLexer

/-- What stands at the front of a list of characters that starts with no whitespace. -/
inductive Lexeme where
  /-- A lexeme and the characters after it. -/
  | whole (origin : Token.Origin) (body rest : List Char)
  /-- A malformed literal, up to the place where its defect shows. -/
  | broken (defect : Defect) (body : List Char)
  deriving DecidableEq

namespace Lexeme

/-- The characters up to and with the first quote that has an even number of escapes right before
it, and the characters after that quote. The count is of the escapes right before the list. -/
def closeQuote (quote : Char) (escapes : Nat) : List Char → Option (List Char × List Char)
  | [] => none
  | c :: rest =>
      if c = quote ∧ escapes % 2 = 0 then
        some ([c], rest)
      else
        (closeQuote quote (if c ∈ Category.escape then escapes + 1 else 0) rest).map
          fun parts => (c :: parts.1, parts.2)

/-- A quotation ends with the quote that closes it. -/
def ofQuotation (quote : Char) (rest : List Char) : Lexeme :=
  match closeQuote quote 0 rest with
  | some parts => .whole (.quotation quote) (quote :: parts.1) parts.2
  | none => .broken (.unclosedQuote quote) (quote :: rest)

/-- The radix that the first two characters name. -/
def radix? : List Char → Option Radix
  | zero :: c :: _ => if [zero] = Radix.leader.toList then Radix.named? c else none
  | _ => none

/-- A numeral with a radix is its first two characters and all digits of the radix after them. -/
def ofBased (radix : Radix) (cs : List Char) : Lexeme :=
  .whole (.based radix) (cs.take 2 ++ (cs.drop 2).takeWhile (· ∈ radix.digits))
    ((cs.drop 2).dropWhile (· ∈ radix.digits))

/-- A numeral with an exponent, from its marker on. A second marker is a defect. -/
def ofExponent (body : List Char) : List Char → Lexeme
  | [] => .broken .missingExponent body
  | c :: rest =>
      if c ∈ Category.numberBody ∨ c ∈ Category.exponentSign then
        let longer := body ++ c :: rest.takeWhile (· ∈ Category.numberBody)
        match rest.dropWhile (· ∈ Category.numberBody) with
        | [] => .whole .decimal longer []
        | marker :: after =>
            if marker ∈ Category.exponent then
              .broken (.repeatedExponent marker) longer
            else
              .whole .decimal longer (marker :: after)
      else
        .broken (.strayExponent c) body

/-- A numeral without a radix. -/
def ofDecimal (cs : List Char) : Lexeme :=
  let body := cs.takeWhile (· ∈ Category.numberBody)
  match cs.dropWhile (· ∈ Category.numberBody) with
  | [] => .whole .decimal body []
  | c :: rest =>
      if c ∈ Category.exponent then
        ofExponent (body ++ [c]) rest
      else
        .whole .decimal body (c :: rest)

/-- These characters continue a plain run. A quote inside the run is nothing special. -/
def IsPlain (c : Char) : Prop :=
  c ∉ Category.whitespace ∧ c ∉ Category.structural ∧ c ∉ Category.numberBody

instance (c : Char) : Decidable (IsPlain c) := inferInstanceAs (Decidable (_ ∧ _ ∧ _))

def ofPlain (c : Char) (rest : List Char) : Lexeme :=
  .whole .plain (c :: rest.takeWhile IsPlain) (rest.dropWhile IsPlain)

/-- The lexeme that starts with a character. -/
def read (c : Char) (rest : List Char) : Lexeme :=
  if c ∈ Category.structural then
    .whole .delimiter [c] rest
  else if c ∈ Category.quote then
    ofQuotation c rest
  else if c ∈ Category.numberBody then
    match radix? (c :: rest) with
    | some radix => ofBased radix (c :: rest)
    | none => ofDecimal (c :: rest)
  else
    ofPlain c rest

theorem closeQuote_append {quote : Char} {escapes : Nat} {cs : List Char}
    {parts : List Char × List Char} (closed : closeQuote quote escapes cs = some parts) :
    parts.1 ++ parts.2 = cs := by
  induction cs generalizing escapes parts with
  | nil => nomatch closed
  | cons c rest inductionHypothesis =>
      unfold closeQuote at closed
      split at closed
      · cases closed
        rfl
      · obtain ⟨inner, found, same⟩ := Option.map_eq_some_iff.mp closed
        subst same
        simp [inductionHypothesis found]

theorem ofExponent_append {body cs longer after : List Char} {origin : Token.Origin}
    (found : ofExponent body cs = .whole origin longer after) :
    longer ++ after = body ++ cs ∧ body.length < longer.length := by
  cases cs with
  | nil => nomatch found
  | cons c rest =>
      have whole := List.takeWhile_append_dropWhile (p := (· ∈ Category.numberBody)) (l := rest)
      rw [ofExponent] at found
      split at found
      · split at found
        · next nothing =>
            rw [nothing] at whole
            cases found
            simpa using whole
        · next marker following kept =>
            rw [kept] at whole
            split at found
            · nomatch found
            · cases found
              exact ⟨by simp [whole], by simp⟩
      · nomatch found

theorem ofDecimal_append {c : Char} {rest body after : List Char} {origin : Token.Origin}
    (starts : c ∈ Category.numberBody)
    (found : ofDecimal (c :: rest) = .whole origin body after) :
    body ++ after = c :: rest ∧ body ≠ [] := by
  have whole := List.takeWhile_append_dropWhile (p := (· ∈ Category.numberBody)) (l := c :: rest)
  have front : (c :: rest).takeWhile (· ∈ Category.numberBody) ≠ [] := by
    simp [starts]
  unfold ofDecimal at found
  split at found
  · next nothing =>
      rw [nothing] at whole
      cases found
      exact ⟨whole, front⟩
  · next marker following kept =>
      rw [kept] at whole
      split at found
      · obtain ⟨same, longer⟩ := ofExponent_append found
        rw [same]
        refine ⟨by simpa using whole, fun empty => ?_⟩
        simp [empty] at longer
      · cases found
        exact ⟨whole, front⟩

/-- Reading a lexeme loses no character and gets on. -/
theorem read_append {c : Char} {rest body after : List Char} {origin : Token.Origin}
    (found : read c rest = .whole origin body after) :
    body ++ after = c :: rest ∧ body ≠ [] := by
  unfold read at found
  split at found
  · cases found
    exact ⟨rfl, nofun⟩
  split at found
  · unfold ofQuotation at found
    split at found
    · next closed =>
        cases found
        exact ⟨by simp [closeQuote_append closed], nofun⟩
    · nomatch found
  split at found
  · next starts =>
      split at found
      · cases found
        rw [List.append_assoc, List.takeWhile_append_dropWhile, List.take_append_drop]
        exact ⟨rfl, nofun⟩
      · exact ofDecimal_append starts found
  · cases found
    exact ⟨by simp, nofun⟩

theorem read_length {c : Char} {rest body after : List Char} {origin : Token.Origin}
    (found : read c rest = .whole origin body after) : after.length < (c :: rest).length := by
  obtain ⟨same, front⟩ := read_append found
  rw [← same, List.length_append]
  have := List.length_pos_iff.mpr front
  omega

end Lexeme

end ExprLexer
