/-
This file recodes a whole source. The run does the same for it, with the recoded texts at the places
where they stand now.
-/

import ExprLexer.Proofs.Lexeme.Recoding
import ExprLexer.Proofs.Run.Rejection
import Mathlib.Data.List.Forall2

namespace ExprLexer

namespace Recoding

variable (recoding : Recoding) {source : String} {front back : List Char}
  {tokens images : List Token}

def text (text : String) : String := text.map recoding.map

def suffixes (suffixes : Suffixes) : Suffixes := ⟨suffixes.entries.map recoding.text⟩

/-- The number of bytes that the text before an offset takes when it is recoded. -/
def place (source : String) (offset : Nat) : Except Fault Nat :=
  (Text.slice source 0 offset).map fun front => (recoding.text front).utf8ByteSize

/-- The image of a token has the recoded text and stands where the token comes to stand. -/
structure Sends (source : String) (token image : Token) : Prop where
  text : image.text = recoding.text token.text
  origin : image.origin = token.origin
  start : recoding.place source token.start = .ok image.start

@[simp] theorem toList_text (text : String) :
    (recoding.text text).toList = text.toList.map recoding.map := String.toList_map

theorem text_ofList (cs : List Char) :
    recoding.text (String.ofList cs) = String.ofList (cs.map recoding.map) := by
  apply String.toList_inj.mp
  rw [toList_text, String.toList_ofList, String.toList_ofList]

theorem place_cut (cut : source.toList = front ++ back) :
    recoding.place source (Text.byteLength front) =
      .ok (Text.byteLength (front.map recoding.map)) := by
  have cut : source.toList = [] ++ front ++ back := cut
  have sliced : Text.slice source 0 (Text.byteLength front) = .ok (String.ofList front) :=
    Text.slice_cut cut
  rw [place, sliced, Except.map, text_ofList, Text.utf8ByteSize_ofList]

theorem sends (cut : source.toList = front ++ back) (text : String) (origin : Token.Origin) :
    recoding.Sends source ⟨text, Text.byteLength front, origin⟩
      ⟨recoding.text text, Text.byteLength (front.map recoding.map), origin⟩ :=
  ⟨rfl, rfl, recoding.place_cut cut⟩

theorem texts_of_sends (sent : List.Forall₂ (recoding.Sends source) tokens images) :
    Token.texts images = (Token.texts tokens).map recoding.text := by
  induction sent with
  | nil => rfl
  | cons here _ inductionHypothesis =>
      simpa [Token.texts, here.text] using inductionHypothesis

/-- A recoded suffix applies to a recoded text if the suffix applies to the text. -/
theorem applies_iff (text suffix : String) :
    Suffixes.Applies (recoding.text text) (recoding.text suffix) ↔
      Suffixes.Applies text suffix := by
  rw [← String.ofList_toList (s := text), text_ofList, Suffixes.applies_iff, Suffixes.applies_iff]
  simp only [toList_text, ne_eq, List.map_eq_nil_iff]
  constructor
  · rintro ⟨head, before, behind, same⟩
    obtain ⟨front, back, whole, rfl, tail⟩ := List.map_eq_append_iff.mp same
    rw [List.map_inj_right recoding.injective] at tail
    exact ⟨front, by simpa using before, behind, by rw [whole, tail]⟩
  · rintro ⟨head, before, behind, same⟩
    exact ⟨head.map recoding.map, by simpa using before, behind, by rw [same, List.map_append]⟩

theorem find?_text (suffixes : Suffixes) (text : String) :
    (recoding.suffixes suffixes).find? (recoding.text text) =
      (suffixes.find? text).map recoding.text := by
  simp only [Suffixes.find?, Recoding.suffixes, List.find?_map, Function.comp_def, applies_iff]

end Recoding

namespace Lexeme

variable {suffixes : Suffixes} {source : String} {start : Nat} {front middle body rest : List Char}
  {given : List Token}

/-- A plain run is cut where its image is. -/
theorem tokens_recode (recoding : Recoding) (suffixes : Suffixes) (origin : Token.Origin)
    (cut : source.toList = front ++ body ++ rest) :
    List.Forall₂ (recoding.Sends source) (tokens suffixes (Text.byteLength front) origin body rest)
      (tokens (recoding.suffixes suffixes) (Text.byteLength (front.map recoding.map)) origin
        (body.map recoding.map) (rest.map recoding.map)) := by
  have first : source.toList = front ++ (body ++ rest) := by rw [cut, List.append_assoc]
  have whole : List.Forall₂ (recoding.Sends source)
      [⟨String.ofList body, Text.byteLength front, origin⟩]
      [⟨String.ofList (body.map recoding.map), Text.byteLength (front.map recoding.map),
        origin⟩] := by
    rw [← recoding.text_ofList]
    exact .cons (recoding.sends first _ origin) .nil
  by_cases plain : origin = .plain
  case neg => rwa [tokens_other plain, tokens_other plain]
  subst plain
  by_cases more : rest = []
  case pos =>
    subst more
    rwa [List.map_nil, tokens_last, tokens_last]
  have moreImage : rest.map recoding.map ≠ [] := by simpa using more
  have image := recoding.find?_text suffixes (String.ofList body)
  rw [recoding.text_ofList] at image
  cases found : suffixes.find? (String.ofList body) with
  | none =>
      rw [found] at image
      rwa [Suffixes.tokens_whole found, Suffixes.tokens_whole image]
  | some suffix =>
      rw [found] at image
      obtain ⟨head, _, _, same, _⟩ := Suffixes.find?_cut found
      have sameImage : body.map recoding.map =
          head.map recoding.map ++ (recoding.text suffix).toList := by
        rw [same, List.map_append, recoding.toList_text]
      have second : source.toList = front ++ head ++ (suffix.toList ++ rest) := by
        rw [cut, same]
        simp
      rw [Suffixes.tokens_cut found same _ more, Suffixes.tokens_cut image sameImage _ moreImage,
        ← recoding.text_ofList, ← Text.byteLength_append, ← Text.byteLength_append,
        ← List.map_append]
      exact .cons (recoding.sends first _ _) (.cons (recoding.sends second _ _) .nil)

/-- The lexemes of a part of the source cover the recoded part, and their tokens are sent along. -/
theorem Covers.recode (recoding : Recoding) (covers : Covers suffixes start middle rest given)
    (cut : source.toList = front ++ middle ++ rest) (place : start = Text.byteLength front) :
    ∃ images, Covers (recoding.suffixes suffixes) (Text.byteLength (front.map recoding.map))
        (middle.map recoding.map) (rest.map recoding.map) images ∧
      List.Forall₂ (recoding.Sends source) given images := by
  induction covers generalizing front with
  | done start rest => exact ⟨[], .done _ _, .nil⟩
  | @blank start c middle rest given blank _ inductionHypothesis =>
      subst place
      have further : source.toList = front ++ [c] ++ middle ++ rest := by simpa using cut
      obtain ⟨images, covers, sent⟩ := inductionHypothesis further (by simp)
      refine ⟨images, .blank (recoding.map_mem_iff.mpr blank) ?_, sent⟩
      simpa using covers
  | @lexeme start origin body middle rest given starts _ inductionHypothesis =>
      subst place
      have further : source.toList = front ++ body ++ middle ++ rest := by simpa using cut
      have here : source.toList = front ++ body ++ (middle ++ rest) := by simpa using cut
      obtain ⟨images, covers, sent⟩ := inductionHypothesis further (by simp)
      have again := starts.recode recoding
      rw [List.map_append] at again ⊢
      rw [List.map_append, Text.byteLength_append] at covers
      refine ⟨_, .lexeme again covers, ?_⟩
      rw [← List.map_append]
      exact List.rel_append (tokens_recode recoding suffixes origin here) sent

end Lexeme

/-- It does not matter which bare characters occur in a source or how many bytes they take. The
recoded source has the recoded tokens, or the same defect with the recoded character. The offsets
are those of the same places in the recoded source. -/
theorem lex_recode (recoding : Recoding) (suffixes : Suffixes) (source : String) :
    ∃ run image, lex suffixes source = .ok run ∧
      lex (recoding.suffixes suffixes) (recoding.text source) = .ok image ∧
      List.Forall₂ (recoding.Sends source) run.tokens image.tokens ∧
      (∀ tokens, run.result = .ok tokens → ∃ images, image.result = .ok images ∧
        Token.texts images = (Token.texts tokens).map recoding.text) ∧
      ∀ rejection, run.result = .error rejection → ∃ position start,
        recoding.place source rejection.position = .ok position ∧
        recoding.place source rejection.literal.start = .ok start ∧
        image.result = .error (.ofDefect (recoding.defect rejection.defect) position start) := by
  rcases Lexeme.covers_cases suffixes 0 source.toList with
    ⟨given, covers⟩ | ⟨front, rest, given, defect, body, cut, covers, starts⟩
  · have whole : source.toList = [] ++ source.toList ++ [] := by simp
    obtain ⟨images, recoded, sent⟩ := covers.recode recoding whole rfl
    rw [← recoding.toList_text] at recoded
    refine ⟨_, _, lex_of_covers covers, lex_of_covers recoded, sent, ?_, nofun⟩
    rintro tokens ⟨⟩
    exact ⟨images, rfl, recoding.texts_of_sends sent⟩
  · have whole : source.toList = [] ++ front ++ rest := cut
    obtain ⟨images, recoded, sent⟩ := covers.recode recoding whole rfl
    have image : (recoding.text source).toList =
        front.map recoding.map ++ rest.map recoding.map := by
      rw [recoding.toList_text, cut, List.map_append]
    have ends := lex_of_broken image recoded (starts.recode_broken recoding)
    refine ⟨_, _, lex_of_broken cut covers starts, ends, sent, nofun, ?_⟩
    rintro _ ⟨⟩
    obtain ⟨behind, rfl, _⟩ := starts.flaw
    have start := recoding.place_cut cut
    have position : recoding.place source (Text.byteLength (front ++ body)) =
        .ok (Text.byteLength ((front ++ body).map recoding.map)) :=
      recoding.place_cut (by rw [cut, List.append_assoc])
    rw [List.map_append] at position
    exact ⟨_, _, position, by simpa [Rejection.ofDefect, Defect.literal_start] using start, rfl⟩

/-- A character of four bytes moves the place of a defect by three bytes. -/
theorem lex_recode_wider : ∃ image,
    (Recoding.swap (by decide : Bare 'z') (by decide : Bare '😀')).text "z: 1ez" = "😀: 1e😀" ∧
      lex .standard "z: 1ez" = .ok ⟨[⟨"z", 0, .plainHead⟩, ⟨":", 1, .plainTail⟩],
        some ⟨.strayExponent 'z', 5, .numeral 3⟩⟩ ∧
      lex .standard "😀: 1e😀" = .ok image ∧ Token.texts image.tokens = ["😀", ":"] ∧
      image.result = .error ⟨.strayExponent '😀', 8, .numeral 6⟩ := by
  let recoding := Recoding.swap (by decide : Bare 'z') (by decide : Bare '😀')
  have source : recoding.text "z: 1ez" = "😀: 1e😀" := by decide +kernel
  have suffixes : recoding.suffixes .standard = .standard := by decide +kernel
  have known : lex .standard "z: 1ez" = .ok ⟨[⟨"z", 0, .plainHead⟩, ⟨":", 1, .plainTail⟩],
      some ⟨.strayExponent 'z', 5, .numeral 3⟩⟩ := by decide +kernel
  have position : recoding.place "z: 1ez" 5 = .ok 8 := by decide +kernel
  have start : recoding.place "z: 1ez" 3 = .ok 6 := by decide +kernel
  obtain ⟨run, image, lexed, recoded, sent, _, rejects⟩ := lex_recode recoding .standard "z: 1ez"
  obtain rfl := Except.ok.inj (lexed.symm.trans known)
  obtain ⟨_, _, atDefect, atStart, rejected⟩ := rejects _ rfl
  obtain rfl := Except.ok.inj (atDefect.symm.trans position)
  obtain rfl := Except.ok.inj (atStart.symm.trans start)
  have texts := recoding.texts_of_sends sent
  have colon : [recoding.text "z", recoding.text ":"] = ["😀", ":"] := by decide +kernel
  rw [suffixes, source] at recoded
  exact ⟨image, source, known, recoded, texts.trans colon, rejected⟩

end ExprLexer
