/-
This file lays texts out in a source with gaps of whitespace around them. The texts of the tokens of
a run are a normal form. Wherever gaps keep them apart, they are read as the same texts again.
-/

import ExprLexer.Proofs.Token.Kind

namespace ExprLexer

/-- A gap holds whitespace or nothing. -/
@[ext]
structure Gap where
  text : String
  blank : ∀ c ∈ text.toList, c ∈ Category.whitespace

def Gap.empty : Gap := ⟨"", by simp⟩

/-- The gap with one more blank in front. -/
def Gap.cons (gap : Gap) {c : Char} (blank : c ∈ Category.whitespace) : Gap where
  text := String.ofList (c :: gap.text.toList)
  blank := by
    rw [String.toList_ofList]
    exact List.forall_mem_cons.mpr ⟨blank, gap.blank⟩

/-- Texts stand in a source with a gap before each of them and a gap behind the last one. -/
inductive Layout where
  | ending (gap : Gap)
  | place (gap : Gap) (text : String) (later : Layout)

namespace Layout

/-- The gap in front. -/
def gap : Layout → Gap
  | ending gap => gap
  | place gap _ _ => gap

def texts : Layout → List String
  | ending _ => []
  | place _ text later => text :: later.texts

/-- The source that the gaps and the texts make up. -/
def source : Layout → String
  | ending gap => gap.text
  | place gap text later => gap.text ++ text ++ later.source

/-- No text stands right at the front. -/
def Spaced : Layout → Prop
  | ending _ => True
  | place gap _ later => gap.text ≠ "" ∧ later.Spaced

/-- There is whitespace between any two texts. -/
def Separated : Layout → Prop
  | ending _ => True
  | place _ _ later => later.Spaced

variable {layout later : Layout} {gap : Gap} {text : String}

@[simp] theorem toList_source_ending (gap : Gap) :
    (ending gap).source.toList = gap.text.toList := rfl

@[simp] theorem toList_source_place (gap : Gap) (text : String) (later : Layout) :
    (place gap text later).source.toList =
      gap.text.toList ++ (text.toList ++ later.source.toList) := by
  simp [source]

theorem Spaced.separated (spaced : layout.Spaced) : layout.Separated := by
  cases layout with
  | ending gap => trivial
  | place gap text later => exact spaced.2

/-- A gap that holds something comes first in the source. -/
theorem head?_source (layout : Layout) (some : layout.gap.text ≠ "") :
    ∀ c ∈ layout.source.toList.head?, c ∈ Category.whitespace := by
  have filled : layout.gap.text.toList ≠ [] := by simpa using some
  have first : layout.source.toList.head? = layout.gap.text.toList.head? := by
    cases layout with
    | ending gap => rfl
    | place gap text later =>
        rw [toList_source_place, List.head?_append_of_ne_nil gap.text.toList filled]
        rfl
  rw [first]
  exact fun c head => layout.gap.blank c (List.mem_of_mem_head? head)

/-- Only whitespace or nothing comes first in a layout that is spaced. -/
theorem Spaced.head?_source (spaced : layout.Spaced) :
    ∀ c ∈ layout.source.toList.head?, c ∈ Category.whitespace := by
  cases layout with
  | ending gap => exact fun c head => gap.blank c (List.mem_of_mem_head? head)
  | place gap text later => exact Layout.head?_source _ spaced.1

end Layout

namespace Lexeme

variable {suffixes : Suffixes} {start : Nat} {front body spaces : List Char}
  {origin : Token.Origin} {given : List Token} {next : Option Char}

/-- Whitespace and delimiters go on with no lexeme, and neither does the end of the text. -/
theorem Shape.stops_closing (shape : Shape body origin)
    (closing : ∀ c ∈ next, c ∈ Category.whitespace ∨ c ∈ Category.structural) :
    Stops body next origin := by
  have outside {category : Category} (notBlank : category ≠ .whitespace)
      (notStructural : category ≠ .structural) : ∀ c ∈ next, c ∉ category := by
    intro c head inside
    have solid := Category.solid notBlank notStructural inside
    exact (closing c head).elim solid.1 solid.2
  cases origin with
  | delimiter => trivial
  | decimal =>
      have notNumber : ∀ c ∈ next, c ∉ Category.numberBody := outside (by decide) (by decide)
      have notMarker : ∀ c ∈ next, c ∉ Category.exponent := outside (by decide) (by decide)
      refine ⟨fun c head => ⟨notNumber c head, notMarker c head⟩, fun _ => ?_⟩
      rw [Option.bind_eq_none_iff]
      intro c head
      rcases closing c head with blank | delimits
      · exact Radix.named?_eq_none (fun radix => by cases radix <;> decide) blank
      · exact Radix.named?_eq_none (fun radix => by cases radix <;> decide) delimits
  | based radix => exact outside (by cases radix <;> decide) (by cases radix <;> decide)
  | quotation quote => trivial
  | plain => exact fun c head plain => (closing c head).elim plain.1 plain.2.1
  | plainHead => exact shape.elim
  | plainTail => exact shape.elim

/-- Blanks in front give no tokens. -/
theorem Covers.blanks (later : Covers suffixes (start + Text.byteLength spaces) front [] given)
    (allBlank : ∀ c ∈ spaces, c ∈ Category.whitespace) :
    Covers suffixes start (spaces ++ front) [] given := by
  induction spaces generalizing start with
  | nil => exact later
  | cons c spaces inductionHypothesis =>
      obtain ⟨blank, further⟩ := List.forall_mem_cons.mp allBlank
      rw [Text.byteLength_cons, ← Nat.add_assoc] at later
      exact .blank blank (inductionHypothesis later further)

/-- Nothing but whitespace gives no tokens at all. -/
theorem covers_gap (suffixes : Suffixes) (start : Nat) (gap : Gap) :
    Covers suffixes start gap.text.toList [] [] := by
  have nothing : Covers suffixes (start + Text.byteLength gap.text.toList) [] [] [] := .done _ []
  have covers := nothing.blanks gap.blank
  rwa [List.append_nil] at covers

end Lexeme

/-- Texts that are shaped like lexemes are read as they are where gaps keep them apart. -/
theorem Layout.Separated.covers {layout : Layout} (separated : layout.Separated) (start : Nat)
    (shapes : ∀ text ∈ layout.texts, ∃ origin, Lexeme.Shape text.toList origin) :
    ∃ given, Lexeme.Covers .empty start layout.source.toList [] given ∧
      Token.texts given = layout.texts := by
  induction layout generalizing start with
  | ending gap => exact ⟨[], Lexeme.covers_gap .empty start gap, rfl⟩
  | place gap text later inductionHypothesis =>
      obtain ⟨⟨origin, shape⟩, further⟩ := List.forall_mem_cons.mp shapes
      have spaced : later.Spaced := separated
      obtain ⟨given, covers, same⟩ := inductionHypothesis spaced.separated
        (start + Text.byteLength gap.text.toList + Text.byteLength text.toList) further
      have stops : Lexeme.Stops text.toList (later.source.toList ++ []).head? origin := by
        rw [List.append_nil]
        exact shape.stops_closing fun c head => Or.inl (spaced.head?_source c head)
      have starts := shape.starts stops
      have both := (Lexeme.Covers.lexeme starts covers).blanks gap.blank
      rw [Lexeme.tokens_empty, String.ofList_toList] at both
      refine ⟨_, by simpa using both, ?_⟩
      rw [Layout.texts, ← same]
      rfl

/-- The texts of an accepted source are a normal form. Laid out with any whitespace between them,
before them and behind them they are read again, and nothing is split off. -/
theorem lex_layout {suffixes : Suffixes} {source : String} {run : Run} {tokens : List Token}
    {layout : Layout} (unquoted : suffixes.Unquoted) (lexed : lex suffixes source = .ok run)
    (accepted : run.result = .ok tokens) (texts : layout.texts = Token.texts tokens)
    (separated : layout.Separated) :
    ∃ again others, lex .empty layout.source = .ok again ∧ again.result = .ok others ∧
      Token.texts others = Token.texts tokens := by
  have covers := covers_of_accepted lexed accepted
  have shapes : ∀ text ∈ layout.texts, ∃ origin, Lexeme.Shape text.toList origin := by
    intro text member
    rw [texts] at member
    obtain ⟨token, inside, rfl⟩ := List.mem_map.mp member
    exact ⟨_, covers.tokens_shape token inside (covers.not_quotedTail unquoted token inside)⟩
  obtain ⟨given, laid, same⟩ := separated.covers 0 shapes
  exact ⟨_, given, lex_of_covers laid, rfl, same.trans texts⟩

/-- The pieces of a cut run, a radix without digits, a quotation with an escaped quote in it and an
exponent without digits are read again. -/
theorem lex_layout_spread : ∃ (layout : Layout) (run again : Run) (tokens others : List Token),
    lex .standard "é:0x\x27a\x5c\x27 b\x271e-(" = .ok run ∧ run.result = .ok tokens ∧
      layout.texts = Token.texts tokens ∧ layout.Separated ∧
      layout.source = "é : 0x\n\x27a\x5c\x27 b\x27\t1e- ( " ∧
      lex .empty layout.source = .ok again ∧ again.result = .ok others ∧
      Token.texts others = Token.texts tokens := by
  have lexed : lex .standard "é:0x\x27a\x5c\x27 b\x271e-(" = .ok
      ⟨[⟨"é", 0, .plainHead⟩, ⟨":", 2, .plainTail⟩, ⟨"0x", 3, .based .hexadecimal⟩,
        ⟨"\x27a\x5c\x27 b\x27", 5, .quotation '\x27'⟩, ⟨"1e-", 12, .decimal⟩,
        ⟨"(", 15, .delimiter⟩], none⟩ := by decide +kernel
  let space := Gap.empty.cons (by decide : ' ' ∈ Category.whitespace)
  let tab := Gap.empty.cons (by decide : '\t' ∈ Category.whitespace)
  let line := Gap.empty.cons (by decide : '\n' ∈ Category.whitespace)
  let layout : Layout := .place .empty "é" <| .place space ":" <| .place space "0x" <|
    .place line "\x27a\x5c\x27 b\x27" <| .place tab "1e-" <| .place space "(" <| .ending space
  have separated : layout.Separated := by
    simp [layout, Layout.Separated, Layout.Spaced, space, tab, line, Gap.cons, Gap.empty]
  have texts : layout.texts = ["é", ":", "0x", "\x27a\x5c\x27 b\x27", "1e-", "("] := rfl
  obtain ⟨again, others, reread, result, same⟩ :=
    lex_layout Suffixes.unquoted_standard lexed rfl texts separated
  exact ⟨layout, _, again, _, others, lexed, rfl, texts, separated, rfl, reread, result, same⟩

end ExprLexer
