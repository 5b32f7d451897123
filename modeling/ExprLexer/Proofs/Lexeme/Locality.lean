/-
This file compares texts that start with the same lexemes. A lexeme looks one character ahead, so
most of what follows it can be replaced, cut off or added.
-/

import ExprLexer.Proofs.Lexeme.Extent
import ExprLexer.Proofs.Suffixes

namespace ExprLexer.Lexeme

variable {suffixes : Suffixes} {start : Nat} {front body rest other : List Char} {c : Char}
  {origin : Token.Origin} {given before after : List Token} {token : Token}

/-- Of the text behind a lexeme its tokens depend only on whether there is any. -/
theorem tokens_congr_head (suffixes : Suffixes) (start : Nat) (origin : Token.Origin)
    (body : List Char) (same : rest.head? = other.head?) :
    tokens suffixes start origin body rest = tokens suffixes start origin body other := by
  have empty : rest = [] ↔ other = [] := by
    rw [← List.head?_eq_none_iff, same, List.head?_eq_none_iff]
  simp only [tokens, ne_eq, empty]

/-- The last token of a lexeme stops where the lexeme does. A token before it lost its suffix. -/
theorem tokens_snoc (suffixes : Suffixes) (start : Nat) (origin : Token.Origin)
    (body rest : List Char) :
    ∃ heads last, tokens suffixes start origin body rest = heads ++ [last] ∧
      last.stop = start + Text.byteLength body ∧
      ∀ token ∈ heads, token.origin = .plainHead := by
  rcases Suffixes.tokens_cases suffixes start origin body rest with
    whole | ⟨head, suffix, _, _, _, same, pieces⟩
  · have stop : Token.stop ⟨String.ofList body, start, origin⟩ = start + Text.byteLength body := by
      rw [Token.stop, Text.utf8ByteSize_ofList]
    exact ⟨[], _, whole, stop, nofun⟩
  · have stop : Token.stop ⟨suffix, start + Text.byteLength head, .plainTail⟩ =
        start + Text.byteLength body := by
      rw [Token.stop, same, Text.byteLength_append, Text.byteLength_toList, Nat.add_assoc]
    exact ⟨[_], _, pieces, stop, List.forall_mem_singleton.mpr rfl⟩

/-- A quotation among the tokens of a lexeme stops where the lexeme does. -/
theorem stop_of_quotation {quote : Char} (member : token ∈ tokens suffixes start origin body rest)
    (quoted : token.origin = .quotation quote) : token.stop = start + Text.byteLength body := by
  obtain ⟨heads, last, pieces, stop, lost⟩ := tokens_snoc suffixes start origin body rest
  rw [pieces, List.mem_append, List.mem_singleton] at member
  rcases member with before | rfl
  · rw [lost token before] at quoted
    cases quoted
  · exact stop

/-- The lexemes in front are the same if another text with the same first character follows. -/
theorem Covers.congr_head (covers : Covers suffixes start front rest given)
    (same : rest.head? = other.head?) : Covers suffixes start front other given := by
  induction covers with
  | done start rest => exact .done start other
  | blank blank _ inductionHypothesis => exact .blank blank (inductionHypothesis same)
  | @lexeme start origin body front rest given starts _ inductionHypothesis =>
      have next : (front ++ rest).head? = (front ++ other).head? := by
        rw [List.head?_append, List.head?_append, same]
      rw [tokens_congr_head suffixes start origin body next]
      exact .lexeme (starts.congr_head next) (inductionHypothesis same)

/-- The lexemes in front are the same if the text goes on behind a rest that is not empty. -/
theorem Covers.append_rest (covers : Covers suffixes start front rest given) (some : rest ≠ [])
    (more : List Char) : Covers suffixes start front (rest ++ more) given :=
  covers.congr_head (List.head?_append_of_ne_nil rest some).symm

/-- A lexeme stays whole if the text is cut somewhere behind it. -/
theorem Starts.cut
    (starts : Starts (body ++ (front ++ rest)) (.whole origin body (front ++ rest))) :
    Starts (body ++ front) (.whole origin body front) := by
  by_cases last : front = []
  · subst last
    exact starts.shape.starts starts.shape.stops
  · exact starts.congr_head (List.head?_append_of_ne_nil front last)

/-- The lexemes in front stay whole if the rest is cut off. Their tokens can change only by a
suffix that was split off the last one. -/
theorem Covers.cut (covers : Covers suffixes start front rest given) :
    ∃ kept, Covers suffixes start front [] kept ∧ (suffixes = .empty → kept = given) := by
  induction covers with
  | done start rest => exact ⟨[], .done start [], fun _ => rfl⟩
  | blank blank _ inductionHypothesis =>
      obtain ⟨kept, covers, same⟩ := inductionHypothesis
      exact ⟨kept, .blank blank covers, same⟩
  | @lexeme start origin body front rest given starts _ inductionHypothesis =>
      obtain ⟨kept, covers, same⟩ := inductionHypothesis
      have alone : Starts (body ++ (front ++ [])) (.whole origin body (front ++ [])) := by
        simpa using starts.cut
      refine ⟨_, .lexeme alone covers, fun without => ?_⟩
      subst without
      rw [tokens_empty, tokens_empty, same rfl]

/-- A token in a list of tokens is the first one of its last part or comes later. -/
theorem eq_or_later {heads : List Token} {last : Token}
    (same : before ++ token :: after = heads ++ last :: given) (outside : token ∉ heads) :
    (before = heads ∧ token = last ∧ after = given) ∨
      ∃ more, before = heads ++ last :: more ∧ given = more ++ token :: after := by
  induction heads generalizing before with
  | nil =>
      rcases List.append_eq_cons_iff.mp same with ⟨nothing, here⟩ | ⟨more, longer, later⟩
      · exact Or.inl ⟨nothing, List.cons.inj here⟩
      · exact Or.inr ⟨more, longer, later⟩
  | cons head heads inductionHypothesis =>
      cases before with
      | nil => exact absurd (List.cons.inj same).1 (List.ne_of_not_mem_cons outside)
      | cons first before =>
          obtain ⟨rfl, further⟩ := List.cons.inj same
          rcases inductionHypothesis further (List.not_mem_of_not_mem_cons outside) with
            ⟨rfl, here⟩ | ⟨more, rfl, later⟩
          · exact Or.inl ⟨rfl, here⟩
          · exact Or.inr ⟨more, rfl, later⟩

/-- The lexemes come apart behind a token that lost no suffix. -/
theorem Covers.split
    (covers : Covers suffixes start front rest (before ++ token :: after))
    (whole : token.origin ≠ .plainHead) :
    ∃ first second, front = first ++ second ∧ token.stop = start + Text.byteLength first ∧
      Covers suffixes start first (second ++ rest) (before ++ [token]) ∧
      Covers suffixes token.stop second rest after := by
  generalize emitted : before ++ token :: after = given at covers
  induction covers generalizing before with
  | done => exact absurd emitted (by simp)
  | @blank start c front rest given blank _ inductionHypothesis =>
      obtain ⟨first, second, rfl, stop, earlier, later⟩ := inductionHypothesis emitted
      have place : token.stop = start + Text.byteLength (c :: first) := by
        rw [stop, Text.byteLength_cons, Nat.add_assoc]
      exact ⟨c :: first, second, rfl, place, .blank blank earlier, later⟩
  | @lexeme start origin body front rest given starts continues inductionHypothesis =>
      obtain ⟨heads, last, tokens, stop, lost⟩ :=
        tokens_snoc suffixes start origin body (front ++ rest)
      rw [tokens, List.append_assoc, List.singleton_append] at emitted
      -- The token ends this lexeme or belongs to a later one, since a head lost its suffix.
      rcases eq_or_later emitted fun inside => whole (lost token inside) with
        ⟨rfl, rfl, rfl⟩ | ⟨more, rfl, rfl⟩
      · have single := Covers.single suffixes start starts
        rw [tokens] at single
        rw [stop]
        exact ⟨body, front, rfl, rfl, single, continues⟩
      · obtain ⟨first, second, rfl, place, earlier, later⟩ := inductionHypothesis rfl
        rw [List.append_assoc] at starts tokens
        have longer := Covers.lexeme starts earlier
        rw [tokens, List.append_assoc] at longer
        rw [Nat.add_assoc, ← Text.byteLength_append] at place
        have same : body ++ (first ++ second) = body ++ first ++ second := by
          rw [List.append_assoc]
        exact ⟨body ++ first, second, same, place, by simpa using longer, later⟩

theorem Covers.eq_nil (covers : Covers suffixes start [] rest given) : given = [] := by
  generalize nothing : ([] : List Char) = front at covers
  cases covers with
  | done => rfl
  | blank => cases nothing
  | lexeme starts _ =>
      exact absurd (List.append_eq_nil_iff.mp nothing.symm).1 starts.append.2

/-- Induction over the lexemes of a whole text. The last lexeme is a case of its own, since nothing
follows it. -/
@[elab_as_elim]
theorem Covers.whole_induction {motive : Nat → List Char → List Token → Prop}
    (done : ∀ start, motive start [] [])
    (blank : ∀ start c front given, c ∈ Category.whitespace →
      motive (start + c.utf8Size) front given → motive start (c :: front) given)
    (last : ∀ start origin body, Starts (body ++ []) (.whole origin body []) →
      motive start body [⟨String.ofList body, start, origin⟩])
    (lexeme : ∀ start origin body front given, front ≠ [] →
      Starts (body ++ front) (.whole origin body front) →
      motive (start + Text.byteLength body) front given →
      motive start (body ++ front) (tokens suffixes start origin body front ++ given))
    (covers : Covers suffixes start front [] given) : motive start front given := by
  generalize nothing : ([] : List Char) = rest at covers
  induction covers with
  | done start rest => exact done start
  | blank isBlank _ inductionHypothesis =>
      exact blank _ _ _ _ isBlank (inductionHypothesis nothing)
  | @lexeme start origin body front rest given starts later inductionHypothesis =>
      subst nothing
      rw [List.append_nil] at starts ⊢
      by_cases ends : front = []
      · subst ends
        rw [later.eq_nil, List.append_nil, List.append_nil, tokens_last]
        exact last start origin body starts
      · exact lexeme start origin body front given ends starts (inductionHypothesis rfl)

end ExprLexer.Lexeme
