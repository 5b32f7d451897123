/-
This file says which suffix is split off a text, and where. It is the first entry that is a proper
ending of the text. An entry that is added comes last, so it matters to the texts that no other
entry cuts.
-/

import ExprLexer.Proofs.Suffixes
import ExprLexer.Proofs.Text.Boundary

namespace ExprLexer.Suffixes

/-- The text is the head with the suffix behind it, and neither of the two is empty. -/
structure Parts (text head suffix : String) : Prop where
  whole : head ++ suffix = text
  before : head ≠ ""
  behind : suffix ≠ ""

/-- A proper ending is not empty and has something before it. -/
def ProperEnding (text suffix : String) : Prop := ∃ head, Parts text head suffix

/-- The suffix is the first entry that is a proper ending of the text. -/
def First (suffixes : Suffixes) (text suffix : String) : Prop :=
  ∃ earlier later, suffixes.entries = earlier ++ suffix :: later ∧ ProperEnding text suffix ∧
    ∀ other ∈ earlier, ¬ ProperEnding text other

variable {suffixes : Suffixes} {text head suffix added : String} {cut : Nat}

namespace Parts

theorem pos (parts : Parts text head suffix) : 0 < head.utf8ByteSize :=
  Nat.pos_of_ne_zero fun nothing => parts.before (String.utf8ByteSize_eq_zero_iff.mp nothing)

/-- The suffix takes some bytes, so the head ends before the text does. -/
theorem lt (parts : Parts text head suffix) : head.utf8ByteSize < text.utf8ByteSize := by
  have wide : suffix.utf8ByteSize ≠ 0 := fun nothing =>
    parts.behind (String.utf8ByteSize_eq_zero_iff.mp nothing)
  rw [← parts.whole, String.utf8ByteSize_append]
  omega

theorem boundary (parts : Parts text head suffix) :
    (Text.boundary? text head.utf8ByteSize).isSome :=
  (Text.boundary_isSome_iff text _).mpr ⟨head, suffix, parts.whole.symm, rfl⟩

/-- The text can be split at the cut, and the pieces are the head and the suffix. -/
theorem slices (parts : Parts text head suffix) :
    Text.slice text 0 head.utf8ByteSize = .ok head ∧
      Text.slice text head.utf8ByteSize text.utf8ByteSize = .ok suffix := by
  have front := Text.slice_append "" head suffix
  have back := Text.slice_append head suffix ""
  rw [String.empty_append, parts.whole] at front
  rw [String.append_empty, parts.whole] at back
  exact ⟨front, back⟩

end Parts

/-- A suffix applies to a text in bytes exactly if it is a proper ending of its characters. -/
theorem applies_iff_properEnding : Applies text suffix ↔ ProperEnding text suffix := by
  have listed : Applies (String.ofList text.toList) suffix ↔ _ := applies_iff
  rw [String.ofList_toList] at listed
  rw [listed]
  constructor
  · rintro ⟨head, before, behind, same⟩
    have whole : String.ofList head ++ suffix = text := by
      rw [← String.toList_inj, String.toList_append, String.toList_ofList, same]
    exact ⟨String.ofList head, whole, by simpa using before, by simpa using behind⟩
  · rintro ⟨head, whole, before, behind⟩
    have same : text.toList = head.toList ++ suffix.toList := by
      rw [← whole, String.toList_append]
    exact ⟨head.toList, by simpa using before, by simpa using behind, same⟩

theorem find?_isSome_iff :
    (suffixes.find? text).isSome ↔ ∃ suffix ∈ suffixes.entries, ProperEnding text suffix := by
  simp [find?, List.find?_isSome, applies_iff_properEnding]

theorem find?_eq_some_iff : suffixes.find? text = some suffix ↔ suffixes.First text suffix := by
  simp only [find?, List.find?_eq_some_iff_append, decide_eq_true_iff, applies_iff_properEnding,
    Bool.not_eq_true', decide_eq_false_iff_not, First]
  constructor
  · rintro ⟨ending, earlier, later, same, absent⟩
    exact ⟨earlier, later, same, ending, absent⟩
  · rintro ⟨earlier, later, same, ending, absent⟩
    exact ⟨ending, earlier, later, same, absent⟩

/-- The cut stands right before the suffix that is found. -/
theorem Parts.cutPoint? (parts : Parts text head suffix)
    (found : suffixes.find? text = some suffix) :
    suffixes.cutPoint? text = some head.utf8ByteSize := by
  rw [Suffixes.cutPoint?, found, Option.map_some, ← parts.whole, String.utf8ByteSize_append,
    Nat.add_sub_cancel]

theorem cutPoint?_eq_some_iff : suffixes.cutPoint? text = some cut ↔
    ∃ suffix head, suffixes.find? text = some suffix ∧ Parts text head suffix ∧
      cut = head.utf8ByteSize := by
  constructor
  · intro point
    obtain ⟨suffix, found, _⟩ := Option.map_eq_some_iff.mp point
    obtain ⟨_, _, _, ⟨head, parts⟩, _⟩ := find?_eq_some_iff.mp found
    exact ⟨suffix, head, found, parts, Option.some.inj (point.symm.trans (parts.cutPoint? found))⟩
  · rintro ⟨suffix, head, found, parts, rfl⟩
    exact parts.cutPoint? found

/-- An entry that is added is tried when no other one applies. -/
theorem find?_push : (suffixes.push added).find? text =
    (suffixes.find? text).or (if Applies text added then some added else none) := by
  by_cases nothing : added = ""
  · have never : ¬ Applies text added := fun applies => applies.1 nothing
    rw [push, if_pos nothing, if_neg never, Option.or_none]
  · rw [push, if_neg nothing, find?, find?, List.find?_append]
    by_cases applies : Applies text added <;> simp [applies]

/-- A list cuts exactly the texts that have an entry as a proper ending, and it cuts them before the
first such entry. The cut lies inside the text between two characters. An entry that is added leaves
these cuts as they are, and it cuts exactly those other texts that it is a proper ending of. -/
theorem cut_of_first (suffixes : Suffixes) (text added : String) :
    ((suffixes.cutPoint? text).isSome ↔
        ∃ suffix ∈ suffixes.entries, ProperEnding text suffix) ∧
      (∀ cut, suffixes.cutPoint? text = some cut →
        ∃ suffix head, suffixes.First text suffix ∧ Text.slice text 0 cut = .ok head ∧
          Text.slice text cut text.utf8ByteSize = .ok suffix ∧ head ++ suffix = text ∧
          0 < cut ∧ cut < text.utf8ByteSize ∧ (Text.boundary? text cut).isSome) ∧
      (∀ cut, suffixes.cutPoint? text = some cut →
        (suffixes.push added).cutPoint? text = some cut) ∧
      (suffixes.cutPoint? text = none → ∀ cut,
        (suffixes.push added).cutPoint? text = some cut ↔
          ∃ head, Parts text head added ∧ cut = head.utf8ByteSize) := by
  refine ⟨?_, fun cut point => ?_, fun cut point => ?_, fun whole cut => ?_⟩
  · rw [cutPoint?, Option.isSome_map, find?_isSome_iff]
  · obtain ⟨suffix, head, found, parts, rfl⟩ := cutPoint?_eq_some_iff.mp point
    obtain ⟨front, back⟩ := parts.slices
    exact ⟨suffix, head, find?_eq_some_iff.mp found, front, back, parts.whole, parts.pos, parts.lt,
      parts.boundary⟩
  · obtain ⟨suffix, head, found, parts, rfl⟩ := cutPoint?_eq_some_iff.mp point
    apply parts.cutPoint?
    rw [find?_push, found, Option.some_or]
  · have missing : suffixes.find? text = none := Option.map_eq_none_iff.mp whole
    rw [cutPoint?_eq_some_iff, find?_push, missing, Option.none_or]
    constructor
    · rintro ⟨suffix, head, found, parts, rfl⟩
      obtain ⟨_, same⟩ := Option.ite_none_right_eq_some.mp found
      cases same
      exact ⟨head, parts, rfl⟩
    · rintro ⟨head, parts, rfl⟩
      have applies : Applies text added := applies_iff_properEnding.mpr ⟨head, parts⟩
      exact ⟨added, head, by rw [if_pos applies], parts, rfl⟩

/-- The first entry is empty and the second one is the whole text. The cut stands before the third
one, although a longer one follows, and an entry that is added cuts what was whole. -/
example : cutPoint? ⟨["", "é→é", "é", "→é"]⟩ "é→é" = some 5 ∧
    cutPoint? ⟨["é→é"]⟩ "é→é" = none ∧ (push ⟨["é→é"]⟩ "→é").cutPoint? "é→é" = some 2 := by
  decide

end ExprLexer.Suffixes
