/-
This file gives facts about the categories and the radix indicators. They say which characters
exclude each other.
-/

import ExprLexer.Radix

namespace ExprLexer

namespace Category

/-- Two categories are apart if no character lies in both. -/
def Apart (first second : Category) : Prop := ∀ c ∈ first.members, c ∉ second.members

instance (first second : Category) : Decidable (Apart first second) :=
  List.decidableBAll (· ∉ second.members) first.members

theorem Apart.not_mem {first second : Category} {c : Char} (apart : Apart first second)
    (inside : c ∈ first) : c ∉ second := apart c inside

/-- Only these two categories hold characters that end every token but a quotation. -/
theorem solid {category : Category} {c : Char} (notBlank : category ≠ .whitespace)
    (notStructural : category ≠ .structural) (inside : c ∈ category) :
    c ∉ Category.whitespace ∧ c ∉ Category.structural := by
  have apart : Apart category .whitespace ∧ Apart category .structural := by
    revert notBlank notStructural
    cases category <;> decide
  exact ⟨apart.1.not_mem inside, apart.2.not_mem inside⟩

/-- Only these two categories hold characters that matter inside a quotation. -/
theorem unquoted {category : Category} {c : Char} (notQuote : category ≠ .quote)
    (notEscape : category ≠ .escape) (inside : c ∈ category) :
    c ∉ Category.quote ∧ c ∉ Category.escape := by
  have apart : Apart category .quote ∧ Apart category .escape := by
    revert notQuote notEscape
    cases category <;> decide
  exact ⟨apart.1.not_mem inside, apart.2.not_mem inside⟩

theorem narrow {category : Category} {c : Char} (inside : c ∈ category) : c.toNat < 128 := by
  have all : category.members.all (·.toNat < 128) = true := by cases category <;> decide
  exact of_decide_eq_true (List.all_eq_true.mp all c inside)

end Category

namespace Radix

theorem named?_eq_some_iff {c : Char} {radix : Radix} :
    named? c = some radix ↔ c = radix.indicator := by
  constructor
  · intro named
    have found := List.find?_some named
    simpa using (of_decide_eq_true found).symm
  · rintro rfl
    cases radix <;> decide

theorem indicator_not_numberBody (radix : Radix) : radix.indicator ∉ Category.numberBody := by
  cases radix <;> decide

theorem indicator_not_exponent (radix : Radix) : radix.indicator ∉ Category.exponent := by
  cases radix <;> decide

/-- The members of a category name no radix if no indicator is among them. -/
theorem named?_eq_none {category : Category} {c : Char}
    (outside : ∀ radix : Radix, radix.indicator ∉ category) (inside : c ∈ category) :
    named? c = none := by
  rw [Option.eq_none_iff_forall_ne_some]
  intro radix named
  rw [named?_eq_some_iff.mp named] at inside
  exact outside radix inside

end Radix
end ExprLexer
