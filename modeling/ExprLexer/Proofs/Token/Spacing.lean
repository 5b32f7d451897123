/-
This file changes the whitespace between the tokens of a source. The tokens stay the same as long as
a gap that keeps two of them apart stays one.
-/

import ExprLexer.Proofs.Token.Layout
import ExprLexer.Proofs.Token.Partition

namespace ExprLexer

/-- Only a text that starts with a delimiter looks like one. -/
theorem Token.Kind.head_structural {text : String} (kind : ofText text = .delimiter) :
    ∀ c ∈ text.toList.head?, c ∈ Category.structural := by
  intro c first
  unfold ofText at kind
  rw [Option.mem_def.mp first] at kind
  by_contra other
  simp only [other, if_false] at kind
  split at kind
  · cases kind
  · split at kind <;> cases kind

namespace Lexeme

variable {suffixes : Suffixes} {body rest other : List Char} {origin : Token.Origin}
  {next : Option Char}

/-- Delimiters and quotations end by themselves. -/
theorem stops_of_kind (ends : origin.kind = .delimiter ∨ origin.kind = .quotation) :
    Stops body next origin := by
  cases origin with
  | delimiter => trivial
  | quotation quote => trivial
  | _ => simp [Token.Origin.kind] at ends

/-- Only for a plain run it matters whether any text follows, and the offset never matters. -/
theorem texts_tokens_congr (same : origin.kind = .plain → (rest = [] ↔ other = []))
    (suffixes : Suffixes) (start place : Nat) (body : List Char) :
    Token.texts (tokens suffixes start origin body rest) =
      Token.texts (tokens suffixes place origin body other) := by
  by_cases plain : origin = .plain
  · subst plain
    have same : rest = [] ↔ other = [] := same rfl
    simp only [tokens, ne_eq, same]
    split
    · split <;> rfl
    · rfl
  · rw [tokens_other plain, tokens_other plain]
    rfl

end Lexeme

namespace Layout

variable {suffixes : Suffixes} {layout later more other : Layout} {gap : Gap} {text : String}
  {c : Char} {body : List Char} {origin : Token.Origin}

/-- The gap behind a text is loose if it is not what ends the text. At the end of a source that is
so for every text that is not plain. Elsewhere delimiters and quotations end by themselves, and a
delimiter ends any text before it. -/
def Loose (text : String) : Layout → Prop
  | ending _ => Token.Kind.ofText text ≠ .plain
  | place _ next _ => Token.Kind.ofText text = .delimiter ∨
      Token.Kind.ofText text = .quotation ∨ Token.Kind.ofText next = .delimiter

/-- Two layouts have the same texts. A gap that is not loose holds something in both or in neither,
and the gap in front is free. -/
inductive Respaces : Layout → Layout → Prop
  | ending (gap other : Gap) : Respaces (.ending gap) (.ending other)
  | place (gap other : Gap) (text : String) {later more : Layout}
      (alike : Loose text later ∨ (later.gap.text = "" ↔ more.gap.text = ""))
      (further : Respaces later more) :
      Respaces (.place gap text later) (.place other text more)

theorem respaces_self (layout : Layout) : layout.Respaces layout := by
  induction layout with
  | ending gap => exact .ending gap gap
  | place gap text later inductionHypothesis =>
      exact .place gap gap text (Or.inr Iff.rfl) inductionHypothesis

/-- The layout with one more blank in front. -/
def pad (blank : c ∈ Category.whitespace) : Layout → Layout
  | ending gap => ending (gap.cons blank)
  | place gap text later => place (gap.cons blank) text later

theorem toList_source_pad (blank : c ∈ Category.whitespace) (layout : Layout) :
    (layout.pad blank).source.toList = c :: layout.source.toList := by
  cases layout <;> simp [pad, Gap.cons]

theorem texts_pad (blank : c ∈ Category.whitespace) (layout : Layout) :
    (layout.pad blank).texts = layout.texts := by
  cases layout <;> rfl

/-- What stands in front is free, so a blank more there leaves the same choice. -/
theorem Respaces.of_pad {blank : c ∈ Category.whitespace}
    (respaces : (layout.pad blank).Respaces other) : layout.Respaces other := by
  cases layout with
  | ending gap =>
      cases respaces
      exact .ending _ _
  | place gap text later =>
      cases respaces with
      | place _ _ _ alike further => exact .place _ _ _ alike further

/-- Layouts of the same source with the same texts are the same, since no text starts blank. -/
theorem eq_of_source (source : layout.source = other.source) (same : layout.texts = other.texts)
    (filled : ∀ text ∈ layout.texts, text ≠ "")
    (visible : ∀ text ∈ layout.texts, ∀ c ∈ text.toList.head?, c ∉ Category.whitespace) :
    layout = other := by
  induction layout generalizing other with
  | ending gap =>
      cases other with
      | ending twin => rw [Gap.ext source]
      | place => cases same
  | place gap text later inductionHypothesis =>
      cases other with
      | ending => cases same
      | place twin next more =>
          obtain ⟨rfl, further⟩ := List.cons.inj same
          obtain ⟨some, filled⟩ := List.forall_mem_cons.mp filled
          obtain ⟨stop, visible⟩ := List.forall_mem_cons.mp visible
          -- The gap in front is all the whitespace before the first text.
          have first (rest : List Char) : (text.toList ++ rest).head? = text.toList.head? :=
            List.head?_append_of_ne_nil _ (by simpa using some)
          have cut := congrArg String.toList source
          rw [toList_source_place, toList_source_place] at cut
          have left := Lexeme.span_digits gap.blank (by rwa [first later.source.toList])
          have right := Lexeme.span_digits twin.blank (by rwa [first more.source.toList])
          rw [cut] at left
          have equal : gap = twin := Gap.ext (String.toList_inj.mp (left.1.symm.trans right.1))
          subst equal
          have rest := List.append_cancel_left (List.append_cancel_left cut)
          rw [inductionHypothesis (String.toList_inj.mp rest) further filled visible]

/-- A text that touches what is before it comes first in the source. -/
theorem head?_source_touching (touching : gap.text = "") (some : text ≠ "") :
    (place gap text later).source.toList.head? = text.toList.head? := by
  have filled : text.toList ≠ [] := by simpa using some
  rw [toList_source_place, touching]
  exact List.head?_append_of_ne_nil text.toList filled

/-- Nothing goes on with a lexeme if the gap behind it is loose or as empty as it was. -/
theorem Respaces.stops (respaces : later.Respaces more) (shape : Lexeme.Shape body origin)
    (kind : Token.Kind.ofText text = origin.kind)
    (alike : Loose text later ∨ (later.gap.text = "" ↔ more.gap.text = ""))
    (filled : ∀ text ∈ later.texts, text ≠ "")
    (stops : Lexeme.Stops body later.source.toList.head? origin) :
    Lexeme.Stops body more.source.toList.head? origin := by
  by_cases touching : more.gap.text = ""
  · cases respaces with
    | ending before behind =>
        rw [toList_source_ending, show behind.text = "" from touching]
        exact shape.stops
    | place before behind next _ _ =>
        have some : next ≠ "" := filled next List.mem_cons_self
        rw [head?_source_touching (show behind.text = "" from touching) some]
        rcases alike with (delimits | quotes | closes) | same
        · exact Lexeme.stops_of_kind (Or.inl (kind.symm.trans delimits))
        · exact Lexeme.stops_of_kind (Or.inr (kind.symm.trans quotes))
        · exact shape.stops_closing fun c head => Or.inr (Token.Kind.head_structural closes c head)
        · have before : before.text = "" := same.mpr touching
          rwa [head?_source_touching before some] at stops
  · exact shape.stops_closing fun c head => Or.inl (head?_source more touching c head)

/-- A plain text that ends the source still does, and no other one does so newly. -/
theorem Respaces.source_eq_nil_iff (respaces : later.Respaces more)
    (plain : Token.Kind.ofText text = .plain)
    (alike : Loose text later ∨ (later.gap.text = "" ↔ more.gap.text = ""))
    (filled : ∀ text ∈ later.texts, text ≠ "") :
    later.source.toList = [] ↔ more.source.toList = [] := by
  cases respaces with
  | ending before behind =>
      have same : before.text = "" ↔ behind.text = "" :=
        alike.resolve_left fun loose => loose plain
      simpa using same
  | place before behind next _ _ =>
      have some : next ≠ "" := filled next List.mem_cons_self
      simp [some]

/-- Every layout that respaces this one is read as the same texts. -/
def Kept (suffixes : Suffixes) (layout : Layout) : Prop :=
  ∀ other, layout.Respaces other → ∀ start, ∃ given,
    Lexeme.Covers suffixes start other.source.toList [] given ∧
      Token.texts given = layout.texts

theorem Kept.filled (kept : layout.Kept suffixes) : ∀ text ∈ layout.texts, text ≠ "" := by
  obtain ⟨given, covers, same⟩ := kept layout layout.respaces_self 0
  have whole : layout.source.toList = [] ++ layout.source.toList ++ [] := by simp
  have partition := covers.partition whole rfl
  rw [← same]
  exact List.forall_mem_map.mpr fun token member => partition.text_ne member

theorem Kept.ending (suffixes : Suffixes) (gap : Gap) : (ending gap).Kept suffixes := by
  rintro _ ⟨_, other⟩ start
  exact ⟨[], Lexeme.covers_gap suffixes start other, rfl⟩

theorem Kept.pad (kept : layout.Kept suffixes) (blank : c ∈ Category.whitespace) :
    (layout.pad blank).Kept suffixes := by
  intro other respaces start
  rw [texts_pad]
  exact kept other respaces.of_pad start

/-- A lexeme is read again in front of a layout that respaces what follows it. -/
theorem Kept.lexeme (kept : later.Kept suffixes) (respaces : later.Respaces more)
    (starts : Lexeme.Starts (body ++ later.source.toList)
      (.whole origin body later.source.toList))
    (kind : Token.Kind.ofText text = origin.kind)
    (alike : Loose text later ∨ (later.gap.text = "" ↔ more.gap.text = "")) (start place : Nat) :
    ∃ given, Lexeme.Covers suffixes start (body ++ more.source.toList) [] given ∧
      Token.texts given =
        Token.texts (Lexeme.tokens suffixes place origin body later.source.toList) ++
          later.texts := by
  obtain ⟨given, covers, same⟩ := kept more respaces (start + Text.byteLength body)
  have filled := kept.filled
  have again := starts.shape.starts (respaces.stops starts.shape kind alike filled starts.stops)
  have nothing := fun plain => respaces.source_eq_nil_iff (kind.trans plain) alike filled
  have texts := Lexeme.texts_tokens_congr nothing suffixes place start body
  rw [← List.append_nil more.source.toList] at again
  refine ⟨_, .lexeme again covers, ?_⟩
  rw [texts, ← same, List.append_nil]
  exact List.map_append

/-- A lexeme that is one token goes in front of a layout as one text. -/
theorem Kept.cons (kept : later.Kept suffixes)
    (starts : Lexeme.Starts (body ++ later.source.toList)
      (.whole origin body later.source.toList)) {start : Nat}
    (whole : Lexeme.tokens suffixes start origin body later.source.toList =
      [⟨String.ofList body, start, origin⟩]) :
    (place .empty (String.ofList body) later).Kept suffixes := by
  rintro _ (_ | ⟨_, gap, _, alike, further⟩) place
  obtain ⟨given, covers, same⟩ := kept.lexeme further starts starts.shape.kind alike
    (place + Text.byteLength gap.text.toList) start
  have all := covers.blanks gap.blank
  rw [whole] at same
  exact ⟨given, by simpa using all, same⟩

/-- A plain run that is cut goes in front of a layout as two texts that touch. -/
theorem Kept.cons_cut {head : List Char} {suffix : String} (kept : later.Kept suffixes)
    (starts : Lexeme.Starts (head ++ suffix.toList ++ later.source.toList)
      (.whole .plain (head ++ suffix.toList) later.source.toList)) {start : Nat}
    (pieces : Lexeme.tokens suffixes start .plain (head ++ suffix.toList) later.source.toList =
      [⟨String.ofList head, start, .plainHead⟩,
        ⟨suffix, start + Text.byteLength head, .plainTail⟩])
    (headPlain : Token.Kind.ofText (String.ofList head) = .plain)
    (tailPlain : Token.Kind.ofText suffix = .plain) :
    (place .empty (String.ofList head) (place .empty suffix later)).Kept suffixes := by
  rintro _ (_ | ⟨_, gap, _, touching, _ | ⟨_, inner, _, alike, further⟩⟩) place
  -- Whitespace would keep two plain texts apart, so there is none between the pieces.
  have joined : inner.text = "" := by
    rcases touching with loose | same
    · simp [Loose, headPlain, tailPlain] at loose
    · exact same.mp rfl
  obtain ⟨given, covers, same⟩ := kept.lexeme further starts tailPlain alike
    (place + Text.byteLength gap.text.toList) start
  have all := covers.blanks gap.blank
  rw [pieces] at same
  exact ⟨given, by simpa [joined] using all, same⟩

/-- The texts of a lexeme go in front of a layout, and they are kept with it. -/
theorem Kept.exists_lexeme (kept : later.Kept suffixes) (unquoted : suffixes.Unquoted)
    (starts : Lexeme.Starts (body ++ later.source.toList)
      (.whole origin body later.source.toList)) (start : Nat) :
    ∃ layout : Layout, layout.source.toList = body ++ later.source.toList ∧
      layout.texts = Token.texts (Lexeme.tokens suffixes start origin body later.source.toList) ++
        later.texts ∧ layout.Kept suffixes := by
  rcases Suffixes.tokens_cases suffixes start origin body later.source.toList with
    whole | ⟨head, suffix, rfl, before, behind, rfl, pieces⟩
  · have source : (place .empty (String.ofList body) later).source.toList =
        body ++ later.source.toList := by simp [Gap.empty]
    rw [whole]
    exact ⟨_, source, rfl, kept.cons starts whole⟩
  · have plain : ∀ token ∈ Lexeme.tokens suffixes start .plain (head ++ suffix.toList)
        later.source.toList, token.kind = token.origin.kind := fun token member =>
      Token.kind_of_shape (starts.tokens_shape token member
        (starts.not_quotedTail unquoted token member))
    rw [pieces, List.forall_mem_cons, List.forall_mem_singleton] at plain
    have source : (place .empty (String.ofList head) (place .empty suffix later)).source.toList =
        head ++ suffix.toList ++ later.source.toList := by simp [Gap.empty]
    have keeps := kept.cons_cut starts pieces plain.1 plain.2
    rw [pieces]
    exact ⟨_, source, rfl, keeps⟩

end Layout

/-- The lexemes of a whole text are laid out in it, and they are kept when it is respaced. -/
theorem Lexeme.Covers.exists_kept {suffixes : Suffixes} {start : Nat} {front : List Char}
    {given : List Token} (covers : Covers suffixes start front [] given)
    (unquoted : suffixes.Unquoted) :
    ∃ layout : Layout, layout.source.toList = front ∧ layout.texts = Token.texts given ∧
      layout.Kept suffixes := by
  generalize nothing : ([] : List Char) = rest at covers
  induction covers with
  | done start rest => exact ⟨.ending .empty, rfl, rfl, .ending suffixes .empty⟩
  | blank blank _ inductionHypothesis =>
      obtain ⟨layout, rfl, texts, kept⟩ := inductionHypothesis nothing
      have padded := layout.toList_source_pad blank
      exact ⟨layout.pad blank, padded, (layout.texts_pad blank).trans texts, kept.pad blank⟩
  | @lexeme start origin body front rest given starts _ inductionHypothesis =>
      subst nothing
      obtain ⟨later, rfl, texts, kept⟩ := inductionHypothesis rfl
      rw [List.append_nil] at starts ⊢
      obtain ⟨layout, source, both, keeps⟩ := kept.exists_lexeme unquoted starts start
      refine ⟨layout, source, ?_, keeps⟩
      rw [both, texts]
      exact List.map_append.symm

/-- An accepted source is its texts with gaps between them, in one way only. With other gaps it is
read as the same texts, as long as a gap that keeps two texts apart stays one and none appears
within a plain run or behind the last one. -/
theorem lex_respaced {suffixes : Suffixes} {source : String} {run : Run} {tokens : List Token}
    (unquoted : suffixes.Unquoted) (lexed : lex suffixes source = .ok run)
    (accepted : run.result = .ok tokens) :
    ∃ layout : Layout,
      (∀ twin : Layout, twin.source = source ∧ twin.texts = Token.texts tokens ↔ twin = layout) ∧
      ∀ other, layout.Respaces other → ∃ again others, lex suffixes other.source = .ok again ∧
        again.result = .ok others ∧ Token.texts others = Token.texts tokens := by
  have covers := covers_of_accepted lexed accepted
  obtain ⟨layout, cut, texts, kept⟩ := covers.exists_kept unquoted
  have source : layout.source = source := String.toList_inj.mp cut
  refine ⟨layout, fun twin => ⟨?_, ?_⟩, ?_⟩
  · rintro ⟨sameSource, sameTexts⟩
    have visible : ∀ text ∈ layout.texts, ∀ c ∈ text.toList.head?, c ∉ Category.whitespace := by
      rw [texts]
      exact List.forall_mem_map.mpr covers.visible
    have equal := Layout.eq_of_source (source.trans sameSource.symm) (texts.trans sameTexts.symm)
      kept.filled visible
    exact equal.symm
  · rintro rfl
    exact ⟨source, texts⟩
  · intro other respaces
    obtain ⟨given, again, same⟩ := kept other respaces 0
    exact ⟨_, given, lex_of_covers again, rfl, same.trans texts⟩

/-- The gaps next to a delimiter or behind a quotation come and go. The pieces of a cut run still
touch, and there is still whitespace behind the plain text at the end. -/
theorem lex_respaced_closing : ∃ (run again : Run) (tokens others : List Token),
    lex .standard "k: (1)\x27s\x27t " = .ok run ∧ run.result = .ok tokens ∧
      Token.texts tokens = ["k", ":", "(", "1", ")", "\x27s\x27", "t"] ∧
      lex .standard " k:( 1 )\x27s\x27\tt\n" = .ok again ∧ again.result = .ok others ∧
      Token.texts others = Token.texts tokens := by
  have lexed : lex .standard "k: (1)\x27s\x27t " = .ok
      ⟨[⟨"k", 0, .plainHead⟩, ⟨":", 1, .plainTail⟩, ⟨"(", 3, .delimiter⟩, ⟨"1", 4, .decimal⟩,
        ⟨")", 5, .delimiter⟩, ⟨"\x27s\x27", 6, .quotation '\x27'⟩, ⟨"t", 9, .plain⟩], none⟩ := by
    decide +kernel
  let space := Gap.empty.cons (by decide : ' ' ∈ Category.whitespace)
  let tab := Gap.empty.cons (by decide : '\t' ∈ Category.whitespace)
  let line := Gap.empty.cons (by decide : '\n' ∈ Category.whitespace)
  let before : Layout := .place .empty "k" <| .place .empty ":" <| .place space "(" <|
    .place .empty "1" <| .place .empty ")" <| .place .empty "\x27s\x27" <|
    .place .empty "t" <| .ending space
  let behind : Layout := .place space "k" <| .place .empty ":" <| .place .empty "(" <|
    .place space "1" <| .place space ")" <| .place .empty "\x27s\x27" <|
    .place tab "t" <| .ending line
  have respaces : before.Respaces behind :=
    .place _ _ _ (Or.inr Iff.rfl) <| .place _ _ _ (Or.inl (Or.inr (Or.inr (by decide)))) <|
    .place _ _ _ (Or.inl (Or.inl (by decide))) <|
    .place _ _ _ (Or.inl (Or.inr (Or.inr (by decide)))) <|
    .place _ _ _ (Or.inl (Or.inl (by decide))) <|
    .place _ _ _ (Or.inl (Or.inr (Or.inl (by decide)))) <|
    .place _ _ _ (Or.inr (by decide)) <| .ending _ _
  obtain ⟨layout, unique, kept⟩ := lex_respaced Suffixes.unquoted_standard lexed rfl
  have same : before = layout := (unique before).mp ⟨rfl, rfl⟩
  rw [← same] at kept
  obtain ⟨again, others, reread, result, texts⟩ := kept behind respaces
  exact ⟨_, again, _, others, lexed, rfl, rfl, reread, result, texts⟩

end ExprLexer
