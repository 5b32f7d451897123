/-
This file says where a suffix cuts a text. The cut lies between two characters, and there are some
on either side of it.
-/

import ExprLexer.Proofs.Lexeme.Cover
import ExprLexer.Proofs.Text.Cut

namespace ExprLexer.Suffixes

variable {suffixes : Suffixes} {body head : List Char} {suffix : String}

/-- A suffix applies to a text that it is a proper ending of. -/
theorem applies_iff :
    Applies (String.ofList body) suffix ↔
      ∃ head, head ≠ [] ∧ suffix.toList ≠ [] ∧ body = head ++ suffix.toList := by
  rw [Applies, String.toList_ofList, Text.utf8ByteSize_ofList, ← Text.byteLength_toList]
  constructor
  · rintro ⟨some, shorter, head, same⟩
    have before : head ≠ [] := by
      intro nothing
      rw [← same, nothing, List.nil_append] at shorter
      exact Nat.lt_irrefl _ shorter
    exact ⟨head, before, by simpa using some, same.symm⟩
  · rintro ⟨head, before, some, same⟩
    have wide : 0 < Text.byteLength head := Text.byteLength_pos_iff.mpr before
    have shorter : Text.byteLength suffix.toList < Text.byteLength body := by
      rw [same, Text.byteLength_append]
      omega
    exact ⟨by simpa using some, shorter, head, same.symm⟩

theorem find?_cons_of_applies {text : String} (applies : Applies text suffix)
    (rest : List String) : find? ⟨suffix :: rest⟩ text = some suffix := by
  simp [find?, applies]

theorem find?_cons_of_not_applies {text : String} (other : ¬ Applies text suffix)
    (rest : List String) : find? ⟨suffix :: rest⟩ text = find? ⟨rest⟩ text := by
  simp [find?, other]

/-- The suffix that is split off applies, and the cut stands before it. -/
theorem find?_cut (found : suffixes.find? (String.ofList body) = some suffix) :
    ∃ head, head ≠ [] ∧ suffix.toList ≠ [] ∧ body = head ++ suffix.toList ∧
      suffixes.cutPoint? (String.ofList body) = some (Text.byteLength head) := by
  have applies : Applies (String.ofList body) suffix := by
    simpa using List.find?_some found
  obtain ⟨head, before, some, same⟩ := applies_iff.mp applies
  have point : suffixes.cutPoint? (String.ofList body) = Option.some (Text.byteLength head) := by
    rw [cutPoint?, found, Option.map_some, Text.utf8ByteSize_ofList, ← Text.byteLength_toList, same,
      Text.byteLength_append, Nat.add_sub_cancel]
  exact ⟨head, before, some, same, point⟩

/-- The texts on the two sides of the cut are what stands before the suffix and the suffix. -/
theorem slice_cut (same : body = head ++ suffix.toList) :
    Text.slice (String.ofList body) 0 (Text.byteLength head) = .ok (String.ofList head) ∧
      Text.slice (String.ofList body) (Text.byteLength head) (String.ofList body).utf8ByteSize =
        .ok suffix := by
  have whole : (String.ofList body).toList = head ++ suffix.toList := by
    rw [String.toList_ofList, same]
  have front : (String.ofList body).toList = [] ++ head ++ suffix.toList := whole
  have second := Text.slice_behind whole
  rw [String.ofList_toList] at second
  exact ⟨Text.slice_cut front, second⟩

/-- The tokens of a plain run that something follows are its two pieces or the whole run. -/
theorem tokens_cut (found : suffixes.find? (String.ofList body) = some suffix)
    {rest : List Char} (same : body = head ++ suffix.toList) (start : Nat) (more : rest ≠ []) :
    Lexeme.tokens suffixes start .plain body rest =
      [⟨String.ofList head, start, .plainHead⟩,
        ⟨suffix, start + Text.byteLength head, .plainTail⟩] := by
  have front : body.take (body.length - suffix.length) = head := by
    rw [same, List.length_append, String.length_toList, Nat.add_sub_cancel, List.take_left]
  rw [Lexeme.tokens]
  simp only [more, ne_eq, not_false_eq_true, and_self, if_true, found, front]

theorem tokens_whole (kept : suffixes.find? (String.ofList body) = none) (start : Nat)
    (rest : List Char) :
    Lexeme.tokens suffixes start .plain body rest =
      [⟨String.ofList body, start, .plain⟩] := by
  rw [Lexeme.tokens, kept]
  split <;> rfl

/-- A lexeme is one token, or it is a plain run that a suffix cuts into two. -/
theorem tokens_cases (suffixes : Suffixes) (start : Nat) (origin : Token.Origin)
    (body rest : List Char) :
    Lexeme.tokens suffixes start origin body rest = [⟨String.ofList body, start, origin⟩] ∨
      ∃ head suffix, origin = .plain ∧ head ≠ [] ∧ suffix.toList ≠ [] ∧
        body = head ++ suffix.toList ∧
        Lexeme.tokens suffixes start origin body rest =
          [⟨String.ofList head, start, .plainHead⟩,
            ⟨suffix, start + Text.byteLength head, .plainTail⟩] := by
  by_cases plain : origin = .plain
  · subst plain
    by_cases more : rest = []
    · rw [more]
      exact Or.inl (Lexeme.tokens_last suffixes start .plain body)
    · rcases found : suffixes.find? (String.ofList body) with _ | suffix
      · exact Or.inl (tokens_whole found start rest)
      · obtain ⟨head, before, after, same, _⟩ := find?_cut found
        exact Or.inr ⟨head, suffix, rfl, before, after, same, tokens_cut found same start more⟩
  · exact Or.inl (Lexeme.tokens_other plain suffixes start body rest)

end ExprLexer.Suffixes
