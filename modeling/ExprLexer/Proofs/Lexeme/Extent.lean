/-
This file says where a lexeme ends. Its own characters and the next one decide that, so the text
behind the next character does not matter.
-/

import ExprLexer.Proofs.Lexeme.Cover
import ExprLexer.Proofs.Lexeme.Shape

namespace ExprLexer.Lexeme

variable {cs body rest after other : List Char} {origin : Token.Origin} {defect : Defect}

/-- The next character does not go on with a whole lexeme. -/
def Stops (body : List Char) (next : Option Char) : Token.Origin → Prop
  | .delimiter => True
  | .decimal => (∀ c ∈ next, c ∉ Category.numberBody ∧ c ∉ Category.exponent) ∧
      (body = Radix.leader.toList → next.bind Radix.named? = none)
  | .based radix => ∀ c ∈ next, c ∉ radix.digits
  | .quotation _ => True
  | .plain => ∀ c ∈ next, ¬ IsPlain c
  | .plainHead => False
  | .plainTail => False

/-- A malformed literal shows its defect at the next character or at the end of the text. -/
def Flaw (body : List Char) (next : Option Char) : Defect → Prop
  | .repeatedExponent marker =>
      IsScaled body ∧ next = some marker ∧ marker ∈ Category.exponent
  | .strayExponent found => IsMarked body ∧ next = some found ∧
      ¬ (found ∈ Category.numberBody ∨ found ∈ Category.exponentSign)
  | .missingExponent => IsMarked body ∧ next = none
  | .unclosedQuote quote => IsOpen quote body ∧ next = none

/-- What is left after the characters of a category starts with none of them. -/
theorem head?_dropWhile (category : Category) (cs : List Char) :
    ∀ c ∈ (cs.dropWhile (· ∈ category)).head?, c ∉ category := by
  intro c found
  have stop := List.head?_dropWhile_not (· ∈ category) cs
  rw [Option.mem_def.mp found] at stop
  simpa using stop

/-- A numeral that has an exponent goes on to the next character that is no part of it. -/
theorem ofExponent_stops (found : ofExponent cs rest = .whole origin body after) :
    origin = .decimal ∧ ∀ c ∈ after.head?, c ∉ Category.numberBody ∧ c ∉ Category.exponent := by
  cases rest with
  | nil => cases found
  | cons sign rest =>
      have stop := head?_dropWhile .numberBody rest
      rw [ofExponent] at found
      split at found
      · split at found
        · cases found
          exact ⟨rfl, by simp⟩
        · next marker following kept =>
            rw [kept] at stop
            split at found
            · cases found
            · next other =>
                cases found
                refine ⟨rfl, fun c head => ⟨stop c head, ?_⟩⟩
                cases head
                exact other
      · cases found

theorem ofDecimal_stops (found : ofDecimal cs = .whole origin body rest) :
    origin = .decimal ∧ ∀ c ∈ rest.head?, c ∉ Category.numberBody ∧ c ∉ Category.exponent := by
  have stop := head?_dropWhile .numberBody cs
  unfold ofDecimal at found
  split at found
  · cases found
    exact ⟨rfl, by simp⟩
  · next marker following kept =>
      rw [kept] at stop
      split at found
      · exact ofExponent_stops found
      · next other =>
          cases found
          refine ⟨rfl, fun c head => ⟨stop c head, ?_⟩⟩
          cases head
          exact other

theorem isDigits_leader : IsDigits Radix.leader.toList := by
  have zero : Radix.leader.toList = ['0'] := rfl
  rw [zero]
  exact ⟨List.cons_ne_nil _ _, List.forall_mem_singleton.mpr (by decide)⟩

theorem Starts.stops (starts : Starts cs (.whole origin body rest)) :
    Stops body rest.head? origin := by
  obtain ⟨same, _⟩ := starts.append
  obtain ⟨c, after, cut, _, found⟩ := starts
  unfold read at found
  split at found
  · cases found
    trivial
  split at found
  · unfold ofQuotation at found
    split at found
    · cases found
      trivial
    · cases found
  split at found
  · split at found
    · cases found
      exact head?_dropWhile _ _
    · next unnamed =>
        obtain ⟨rfl, stop⟩ := ofDecimal_stops found
        refine ⟨stop, fun leads => ?_⟩
        rw [← cut, ← same, leads, radix?_digits isDigits_leader, if_pos rfl] at unnamed
        exact unnamed
  · cases found
    intro d head
    have stop := List.head?_dropWhile_not (fun c => decide (IsPlain c)) after
    rw [Option.mem_def.mp head] at stop
    simpa using stop

/-- Characters of the right shape are a whole lexeme if the next one does not go on with it. -/
theorem Shape.starts (shape : Shape body origin) (stops : Stops body rest.head? origin) :
    Starts (body ++ rest) (.whole origin body rest) := by
  cases origin with
  | delimiter =>
      obtain ⟨c, delimits, rfl⟩ := shape
      exact starts_delimiter delimits
  | decimal =>
      obtain ⟨stop, unnamed⟩ := stops
      rcases shape with digits | scaled
      · exact starts_digits digits unnamed stop
      · exact starts_scaled scaled stop
  | based radix => exact starts_based shape stops
  | quotation quote =>
      obtain ⟨opened, isOpen, even, rfl⟩ := shape
      rw [List.append_assoc]
      exact starts_quotation isOpen even
  | plain => exact starts_plain shape stops
  | plainHead => exact shape.elim
  | plainTail => exact shape.elim

theorem starts_whole_iff :
    Starts (body ++ rest) (.whole origin body rest) ↔
      Shape body origin ∧ Stops body rest.head? origin :=
  ⟨fun starts => ⟨starts.shape, starts.stops⟩, fun ⟨shape, stops⟩ => shape.starts stops⟩

/-- A lexeme stays whole if another text with the same first character follows. -/
theorem Starts.congr_head (starts : Starts (body ++ rest) (.whole origin body rest))
    (same : rest.head? = other.head?) : Starts (body ++ other) (.whole origin body other) := by
  rw [starts_whole_iff] at starts ⊢
  rwa [← same]

/-- Nothing goes on with a lexeme at the end of the text. -/
theorem Shape.stops (shape : Shape body origin) : Stops body none origin := by
  cases origin with
  | delimiter => trivial
  | decimal => exact ⟨nofun, fun _ => rfl⟩
  | based radix => exact nofun
  | quotation quote => trivial
  | plain => exact nofun
  | plainHead => exact shape.elim
  | plainTail => exact shape.elim

theorem ofExponent_flaw (marked : IsMarked cs) (found : ofExponent cs rest = .broken defect body) :
    ∃ after, cs ++ rest = body ++ after ∧ Flaw body after.head? defect := by
  cases rest with
  | nil =>
      cases found
      exact ⟨[], rfl, marked, rfl⟩
  | cons sign rest =>
      have whole := List.takeWhile_append_dropWhile (p := (· ∈ Category.numberBody)) (l := rest)
      rw [ofExponent] at found
      split at found
      · next signs =>
          split at found
          · cases found
          · next marker following kept =>
              split at found
              · next marks =>
                  cases found
                  have scaled : IsScaled (cs ++ sign :: rest.takeWhile (· ∈ Category.numberBody)) :=
                    ⟨cs, sign, _, marked, signs, mem_takeWhile, rfl⟩
                  have cut : cs ++ sign :: rest =
                      cs ++ sign :: rest.takeWhile (· ∈ Category.numberBody) ++
                        marker :: following := by
                    rw [List.append_assoc, List.cons_append, ← kept, whole]
                  exact ⟨marker :: following, cut, scaled, rfl, marks⟩
              · cases found
      · next stray =>
          cases found
          exact ⟨sign :: rest, rfl, marked, rfl, stray⟩

theorem ofDecimal_flaw {c : Char} (first : c ∈ Category.numberBody)
    (found : ofDecimal (c :: cs) = .broken defect body) :
    ∃ after, c :: cs = body ++ after ∧ Flaw body after.head? defect := by
  have digits : IsDigits ((c :: cs).takeWhile (· ∈ Category.numberBody)) :=
    ⟨by simp [first], mem_takeWhile⟩
  have whole := List.takeWhile_append_dropWhile (p := (· ∈ Category.numberBody)) (l := c :: cs)
  unfold ofDecimal at found
  split at found
  · cases found
  · next marker following kept =>
      split at found
      · next marks =>
          obtain ⟨after, cut, flaw⟩ := ofExponent_flaw ⟨_, _, digits, marks, rfl⟩ found
          rw [List.append_assoc, List.singleton_append, ← kept, whole] at cut
          exact ⟨after, cut, flaw⟩
      · cases found

/-- A malformed literal has the flaw of its defect. -/
theorem Starts.flaw (starts : Starts cs (.broken defect body)) :
    ∃ rest, cs = body ++ rest ∧ Flaw body rest.head? defect := by
  obtain ⟨c, after, rfl, _, found⟩ := starts
  unfold read at found
  split at found
  · cases found
  split at found
  · next quotes =>
      unfold ofQuotation at found
      split at found
      · cases found
      · next opened =>
          cases found
          exact ⟨[], (List.append_nil _).symm, ⟨after, rfl, quotes, opened⟩, rfl⟩
  split at found
  · next first =>
      split at found
      · cases found
      · exact ofDecimal_flaw first found
  · cases found

theorem Flaw.starts (flaw : Flaw body rest.head? defect) :
    Starts (body ++ rest) (.broken defect body) := by
  cases defect with
  | repeatedExponent marker =>
      obtain ⟨scaled, next, marks⟩ := flaw
      obtain ⟨more, rfl⟩ := List.head?_eq_some_iff.mp next
      exact starts_repeated scaled marks
  | strayExponent found =>
      obtain ⟨marked, next, stray⟩ := flaw
      obtain ⟨more, rfl⟩ := List.head?_eq_some_iff.mp next
      exact starts_stray marked stray
  | missingExponent =>
      obtain ⟨marked, next⟩ := flaw
      rw [List.head?_eq_none_iff.mp next, List.append_nil]
      exact starts_missing marked
  | unclosedQuote quote =>
      obtain ⟨opened, next⟩ := flaw
      rw [List.head?_eq_none_iff.mp next, List.append_nil]
      exact starts_unclosed opened

theorem Flaw.ne_nil {next : Option Char} (flaw : Flaw body next defect) : body ≠ [] := by
  cases defect with
  | repeatedExponent marker =>
      obtain ⟨⟨_, _, _, _, _, _, rfl⟩, _⟩ := flaw
      simp
  | strayExponent found =>
      obtain ⟨⟨_, _, _, _, rfl⟩, _⟩ := flaw
      simp
  | missingExponent =>
      obtain ⟨⟨_, _, _, _, rfl⟩, _⟩ := flaw
      simp
  | unclosedQuote quote =>
      obtain ⟨⟨_, rfl, _⟩, _⟩ := flaw
      simp

theorem starts_broken_iff :
    Starts cs (.broken defect body) ↔ ∃ rest, cs = body ++ rest ∧ Flaw body rest.head? defect := by
  constructor
  · exact Starts.flaw
  · rintro ⟨rest, rfl, flaw⟩
    exact flaw.starts

end ExprLexer.Lexeme
