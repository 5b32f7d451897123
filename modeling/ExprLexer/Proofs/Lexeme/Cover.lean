/-
This file follows a sequence of lexemes. Blanks and whole lexemes cover a front part of a text, and
the run over the text is what they give and then the run over the rest.
-/

import ExprLexer.Lexeme.Sequence
import ExprLexer.Proofs.Lexeme.Reading

namespace ExprLexer

/-- The run that has emitted some tokens before. -/
def Run.prepend (run : Run) (tokens : List Token) : Run := ⟨tokens ++ run.tokens, run.rejection⟩

@[simp] theorem Run.prepend_nil (run : Run) : run.prepend [] = run := rfl

theorem Run.prepend_append (run : Run) (first second : List Token) :
    run.prepend (first ++ second) = (run.prepend second).prepend first := by
  simp [prepend]

namespace Lexeme

variable {suffixes : Suffixes} {start : Nat} {cs front middle body rest : List Char} {c : Char}
  {origin : Token.Origin} {defect : Defect} {first second given : List Token}

theorem Starts.append (starts : Starts cs (.whole origin body rest)) :
    body ++ rest = cs ∧ body ≠ [] := by
  obtain ⟨c, after, same, _, found⟩ := starts
  rw [same]
  exact read_append found

theorem runFrom_nil : runFrom suffixes start [] = ⟨[], none⟩ := by
  rw [runFrom]

theorem runFrom_blank (blank : c ∈ Category.whitespace) :
    runFrom suffixes start (c :: rest) = runFrom suffixes (start + c.utf8Size) rest := by
  rw [runFrom, if_pos blank]

theorem runFrom_whole (starts : Starts cs (.whole origin body rest)) :
    runFrom suffixes start cs =
      (runFrom suffixes (start + Text.byteLength body) rest).prepend
        (tokens suffixes start origin body rest) := by
  obtain ⟨c, after, same, notBlank, found⟩ := starts
  rw [same, runFrom, if_neg notBlank]
  split
  · next other =>
      rw [found] at other
      cases other
      rfl
  · next other =>
      rw [found] at other
      cases other

theorem runFrom_broken (starts : Starts cs (.broken defect body)) :
    runFrom suffixes start cs =
      ⟨[], some (.ofDefect defect (start + Text.byteLength body) start)⟩ := by
  obtain ⟨c, after, same, notBlank, found⟩ := starts
  rw [same, runFrom, if_neg notBlank]
  split
  · next other =>
      rw [found] at other
      cases other
  · next other =>
      rw [found] at other
      cases other
      rfl

/-- The tokens of a lexeme that is no plain run are the lexeme itself. -/
theorem tokens_other (other : origin ≠ .plain) (suffixes : Suffixes) (start : Nat)
    (body rest : List Char) :
    tokens suffixes start origin body rest = [⟨String.ofList body, start, origin⟩] := by
  rw [tokens]
  simp only [other, false_and, if_false]

/-- A lexeme at the end of the text is one token. -/
theorem tokens_last (suffixes : Suffixes) (start : Nat) (origin : Token.Origin)
    (body : List Char) :
    tokens suffixes start origin body [] = [⟨String.ofList body, start, origin⟩] := by
  rw [tokens]
  simp

/-- Without suffixes a lexeme is one token. -/
theorem tokens_empty (start : Nat) (origin : Token.Origin) (body rest : List Char) :
    tokens .empty start origin body rest = [⟨String.ofList body, start, origin⟩] := by
  rw [tokens]
  split <;> rfl

/-- A text is empty, or it starts with a blank, a whole lexeme or a malformed literal. -/
theorem sequence_induction {motive : List Char → Prop} (nil : motive [])
    (blank : ∀ c rest, c ∈ Category.whitespace → motive rest → motive (c :: rest))
    (whole : ∀ origin body rest, Starts (body ++ rest) (.whole origin body rest) →
      motive rest → motive (body ++ rest))
    (broken : ∀ cs defect body, Starts cs (.broken defect body) → motive cs)
    (cs : List Char) : motive cs := by
  induction size : cs.length using Nat.strong_induction_on generalizing cs with
  | _ size inductionHypothesis =>
      cases cs with
      | nil => exact nil
      | cons c rest =>
          by_cases isBlank : c ∈ Category.whitespace
          · exact blank c rest isBlank (inductionHypothesis rest.length (by simp [← size]) rest rfl)
          · have starts : Starts (c :: rest) (read c rest) := ⟨c, rest, rfl, isBlank, rfl⟩
            rcases found : read c rest with ⟨origin, body, after⟩ | ⟨defect, body⟩
            · rw [found] at starts
              obtain ⟨same, _⟩ := starts.append
              have shorter := read_length found
              rw [← same] at starts ⊢
              exact whole origin body after starts
                (inductionHypothesis after.length (by omega) after rfl)
            · rw [found] at starts
              exact broken (c :: rest) defect body starts

/-- Blanks and whole lexemes cover the front part of a text that starts at an offset, and the
lexemes give the tokens. The rest of the text matters, since a lexeme is as long as it can be. -/
inductive Covers (suffixes : Suffixes) :
    Nat → List Char → List Char → List Token → Prop where
  | done (start : Nat) (rest : List Char) : Covers suffixes start [] rest []
  | blank {start : Nat} {c : Char} {front rest : List Char} {given : List Token}
      (blank : c ∈ Category.whitespace)
      (later : Covers suffixes (start + c.utf8Size) front rest given) :
      Covers suffixes start (c :: front) rest given
  | lexeme {start : Nat} {origin : Token.Origin} {body front rest : List Char}
      {given : List Token}
      (starts : Starts (body ++ (front ++ rest)) (.whole origin body (front ++ rest)))
      (later : Covers suffixes (start + Text.byteLength body) front rest given) :
      Covers suffixes start (body ++ front) rest
        (tokens suffixes start origin body (front ++ rest) ++ given)

/-- One lexeme covers its characters. -/
theorem Covers.single (suffixes : Suffixes) (start : Nat)
    (starts : Starts (body ++ rest) (.whole origin body rest)) :
    Covers suffixes start body rest (tokens suffixes start origin body rest) := by
  have single : Covers suffixes start (body ++ []) rest _ :=
    Covers.lexeme (by simpa using starts) (Covers.done _ rest)
  simpa using single

theorem Covers.append (covers : Covers suffixes start front (middle ++ rest) first)
    (later : Covers suffixes (start + Text.byteLength front) middle rest second) :
    Covers suffixes start (front ++ middle) rest (first ++ second) := by
  generalize cut : middle ++ rest = after at covers
  induction covers with
  | done start rest => simpa using later
  | blank blank _ inductionHypothesis =>
      apply Covers.blank blank
      apply inductionHypothesis _ cut
      simpa [Nat.add_assoc] using later
  | lexeme starts _ inductionHypothesis =>
      subst cut
      rw [← List.append_assoc] at starts
      rw [List.append_assoc, List.append_assoc, ← List.append_assoc _ middle]
      apply Covers.lexeme (by simpa using starts)
      apply inductionHypothesis _ rfl
      simpa [Nat.add_assoc] using later

/-- The lexemes of a front part and those of all the rest cover the whole text. -/
theorem Covers.append_all (covers : Covers suffixes start front rest first)
    (later : Covers suffixes (start + Text.byteLength front) rest [] second) :
    Covers suffixes start (front ++ rest) [] (first ++ second) :=
  Covers.append (by rwa [List.append_nil]) later

/-- The run over a text is what a front part gives and then the run over the rest. -/
theorem runFrom_covers (covers : Covers suffixes start front rest given) :
    runFrom suffixes start (front ++ rest) =
      (runFrom suffixes (start + Text.byteLength front) rest).prepend given := by
  induction covers with
  | done start rest => simp
  | blank blank _ inductionHypothesis =>
      rw [List.cons_append, runFrom_blank blank, inductionHypothesis]
      simp [Nat.add_assoc]
  | lexeme starts _ inductionHypothesis =>
      rw [List.append_assoc, runFrom_whole starts, inductionHypothesis, Run.prepend_append]
      simp [Nat.add_assoc]

/-- The lexemes cover the whole text, or they cover it up to the first malformed literal. -/
theorem covers_cases (suffixes : Suffixes) (start : Nat) (cs : List Char) :
    (∃ given, Covers suffixes start cs [] given) ∨
      ∃ front rest given defect body, cs = front ++ rest ∧
        Covers suffixes start front rest given ∧ Starts rest (.broken defect body) := by
  induction cs using sequence_induction generalizing start with
  | nil => exact Or.inl ⟨[], Covers.done start []⟩
  | blank c rest blank inductionHypothesis =>
      rcases inductionHypothesis (start + c.utf8Size) with
        ⟨given, covers⟩ | ⟨front, after, given, defect, body, rfl, covers, starts⟩
      · exact Or.inl ⟨given, Covers.blank blank covers⟩
      · have longer := Covers.blank blank covers
        exact Or.inr ⟨c :: front, after, given, defect, body, rfl, longer, starts⟩
  | whole origin body rest starts inductionHypothesis =>
      rcases inductionHypothesis (start + Text.byteLength body) with
        ⟨given, covers⟩ | ⟨front, after, given, defect, broken, rfl, covers, breaks⟩
      · have whole := Covers.lexeme (by simpa using starts) covers
        exact Or.inl ⟨_, whole⟩
      · have longer := Covers.lexeme starts covers
        exact Or.inr ⟨body ++ front, after, _, defect, broken, by simp, longer, breaks⟩
  | broken cs defect body starts =>
      exact Or.inr ⟨[], cs, [], defect, body, rfl, Covers.done start cs, starts⟩

/-- A run gives the tokens of what the lexemes cover, and then it ends or rejects a literal. -/
theorem runFrom_cases (suffixes : Suffixes) (start : Nat) (cs : List Char) :
    (∃ given, Covers suffixes start cs [] given ∧ runFrom suffixes start cs = ⟨given, none⟩) ∨
      ∃ front rest given defect body, cs = front ++ rest ∧
        Covers suffixes start front rest given ∧ Starts rest (.broken defect body) ∧
        runFrom suffixes start cs = ⟨given, some (.ofDefect defect
          (start + Text.byteLength (front ++ body)) (start + Text.byteLength front))⟩ := by
  rcases covers_cases suffixes start cs with
    ⟨given, covers⟩ | ⟨front, rest, given, defect, body, rfl, covers, starts⟩
  · have run := runFrom_covers covers
    rw [List.append_nil, runFrom_nil] at run
    exact Or.inl ⟨given, covers, by simpa [Run.prepend] using run⟩
  · have run := runFrom_covers covers
    rw [runFrom_broken starts, Nat.add_assoc, ← Text.byteLength_append] at run
    apply Or.inr
    exact ⟨front, rest, given, defect, body, rfl, covers, starts, by simpa [Run.prepend] using run⟩

/-- The tokens of a run are those of the lexemes that cover a front part of the text. -/
theorem runFrom_covered (suffixes : Suffixes) (start : Nat) (cs : List Char) :
    ∃ front rest, cs = front ++ rest ∧
      Covers suffixes start front rest (runFrom suffixes start cs).tokens := by
  rcases runFrom_cases suffixes start cs with
    ⟨given, covers, run⟩ | ⟨front, rest, given, _, _, same, covers, _, run⟩
  · rw [run]
    exact ⟨cs, [], (List.append_nil cs).symm, covers⟩
  · rw [run]
    exact ⟨front, rest, same, covers⟩

end Lexeme

end ExprLexer
