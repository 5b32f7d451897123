/-
This file shows that tokens and whitespace make up the source. No character is lost or used twice,
and the places of the tokens can be found again from their texts.
-/

import ExprLexer.Proofs.Lexeme.Shape
import ExprLexer.Proofs.Machine.Turn
import ExprLexer.Proofs.Text.Boundary

namespace ExprLexer

namespace Text

/-- The first character at or after an offset that is no whitespace stands at the place. -/
structure NextVisible (text : String) (offset place : Nat) : Prop where
  after : offset ≤ place
  visible : ∃ c, charAt text place = .ok (some c) ∧ c ∉ Category.whitespace
  blank : ∀ other c, offset ≤ other → other < place → charAt text other = .ok (some c) →
    c ∈ Category.whitespace

/-- There is only one such place. -/
theorem NextVisible.unique {text : String} {offset first second : Nat}
    (left : NextVisible text offset first) (right : NextVisible text offset second) :
    first = second := by
  rcases Nat.lt_trichotomy first second with before | same | behind
  · obtain ⟨c, found, visible⟩ := left.visible
    exact absurd (right.blank first c left.after before found) visible
  · exact same
  · obtain ⟨c, found, visible⟩ := right.visible
    exact absurd (left.blank second c right.after behind found) visible

end Text

namespace Token

/-- The tokens are pieces of a source between two offsets, one after the other. All characters there
that lie in no token are whitespace. -/
structure Partition (source : String) (first last : Nat) (tokens : List Token) : Prop where
  order : first ≤ last
  bounds : ∀ token ∈ tokens, first ≤ token.start ∧ token.start < token.stop ∧ token.stop ≤ last
  ordered : tokens.Pairwise fun earlier later => earlier.stop ≤ later.start
  boundaries : ∀ token ∈ tokens, (Text.boundary? source token.start).isSome ∧
    (Text.boundary? source token.stop).isSome
  texts : ∀ token ∈ tokens, Text.slice source token.start token.stop = .ok token.text
  blank : ∀ offset c, first ≤ offset → offset < last →
    Text.charAt source offset = .ok (some c) →
    (∀ token ∈ tokens, offset < token.start ∨ token.stop ≤ offset) → c ∈ Category.whitespace

/-- The offset where the last token stops. Without tokens it is the given offset. -/
def lastStop (offset : Nat) : List Token → Nat
  | [] => offset
  | token :: rest => lastStop token.stop rest

namespace Partition

variable {source : String} {first last : Nat} {token : Token} {tokens before after : List Token}
  {front body rest : List Char} {c : Char}

theorem nil (source : String) (offset : Nat) : Partition source offset offset [] where
  order := Nat.le_refl offset
  bounds := nofun
  ordered := .nil
  boundaries := nofun
  texts := nofun
  blank _ _ lower upper := absurd upper (Nat.not_lt.mpr lower)

/-- A blank before some tokens lies in none of them. -/
theorem space (cut : source.toList = front ++ c :: rest) (space : c ∈ Category.whitespace)
    (later : Partition source (Text.byteLength (front ++ [c])) last tokens) :
    Partition source (Text.byteLength front) last tokens := by
  have behind : Text.byteLength (front ++ [c]) = Text.byteLength front + c.utf8Size := by simp
  rw [behind] at later
  have order := later.order
  constructor
  case order => omega
  case bounds =>
    intro token member
    have bounds := later.bounds token member
    omega
  case ordered => exact later.ordered
  case boundaries => exact later.boundaries
  case texts => exact later.texts
  case blank =>
    intro offset d lower upper found outside
    by_cases here : offset < Text.byteLength front + c.utf8Size
    · obtain ⟨_, same⟩ := Text.charAt_within cut lower here found
      rwa [same]
    · exact later.blank offset d (Nat.not_lt.mp here) upper found outside

/-- A piece of the source goes before the tokens that start behind it. -/
theorem cons (cut : source.toList = front ++ body ++ rest) (some : body ≠ [])
    (origin : Origin)
    (later : Partition source (Text.byteLength (front ++ body)) last tokens) :
    Partition source (Text.byteLength front) last
      (⟨String.ofList body, Text.byteLength front, origin⟩ :: tokens) := by
  have wide : 0 < Text.byteLength body := Text.byteLength_pos_iff.mpr some
  have stop : stop ⟨String.ofList body, Text.byteLength front, origin⟩ =
      Text.byteLength (front ++ body) := by
    rw [Token.stop, Text.utf8ByteSize_ofList, Text.byteLength_append]
  have size : Text.byteLength (front ++ body) = Text.byteLength front + Text.byteLength body := by
    simp
  have order := later.order
  constructor
  case order => omega
  case bounds =>
    intro token member
    rcases List.mem_cons.mp member with rfl | inside
    · rw [stop]
      have starts : Text.byteLength front < Text.byteLength (front ++ body) := by omega
      exact ⟨Nat.le_refl _, starts, order⟩
    · have bounds := later.bounds token inside
      omega
  case ordered =>
    apply List.Pairwise.cons _ later.ordered
    intro token inside
    rw [stop]
    exact (later.bounds token inside).1
  case boundaries =>
    intro token member
    rcases List.mem_cons.mp member with rfl | inside
    · rw [stop, Text.boundary?_isSome_iff_cut, Text.boundary?_isSome_iff_cut]
      exact ⟨⟨front, body ++ rest, by rw [cut, List.append_assoc], rfl⟩,
        ⟨front ++ body, rest, cut, rfl⟩⟩
    · exact later.boundaries token inside
  case texts =>
    intro token member
    rcases List.mem_cons.mp member with rfl | inside
    · rw [stop]
      exact Text.slice_cut cut
    · exact later.texts token inside
  case blank =>
    intro offset d lower upper found outside
    have clear := outside _ List.mem_cons_self
    rw [stop] at clear
    apply later.blank offset d _ upper found
    · intro token inside
      exact outside token (List.mem_cons_of_mem _ inside)
    · exact clear.resolve_left (Nat.not_lt.mpr lower)

/-- Without its first token a partition starts where that token stops. -/
theorem tail (whole : Partition source first last (token :: tokens)) :
    Partition source token.stop last tokens := by
  have head := whole.bounds token List.mem_cons_self
  obtain ⟨behind, ordered⟩ := List.pairwise_cons.mp whole.ordered
  constructor
  case order => exact head.2.2
  case bounds =>
    intro other member
    exact ⟨behind other member, (whole.bounds other (List.mem_cons_of_mem _ member)).2⟩
  case ordered => exact ordered
  case boundaries =>
    intro other member
    exact whole.boundaries other (List.mem_cons_of_mem _ member)
  case texts =>
    intro other member
    exact whole.texts other (List.mem_cons_of_mem _ member)
  case blank =>
    intro offset c lower upper found outside
    apply whole.blank offset c (by omega) upper found
    exact List.forall_mem_cons.mpr ⟨Or.inr lower, outside⟩

theorem drop (whole : Partition source first last (before ++ after)) :
    Partition source (lastStop first before) last after := by
  induction before generalizing first with
  | nil => exact whole
  | cons token before inductionHypothesis => exact inductionHypothesis whole.tail

theorem text_ne (whole : Partition source first last tokens) (member : token ∈ tokens) :
    token.text ≠ "" := by
  intro empty
  have bounds := (whole.bounds token member).2.1
  rw [stop, empty] at bounds
  exact Nat.lt_irrefl _ bounds

/-- The text of a token stands at its start. -/
theorem charAt_start (whole : Partition source first last tokens) (member : token ∈ tokens) :
    Text.charAt source token.start = .ok token.text.toList.head? := by
  obtain ⟨front, back, cut, start, stop⟩ := Text.slice_eq_ok_iff.mp (whole.texts token member)
  have bounds := whole.bounds token member
  rw [List.append_assoc] at cut
  rw [start, Text.charAt_cut cut]
  cases body : token.text.toList with
  | nil =>
      rw [body, List.append_nil] at stop
      omega
  | cons c more => rfl

/-- The first token is at the first character that is no whitespace, if it starts with none. -/
theorem nextVisible (whole : Partition source first last (token :: tokens))
    (visible : ∀ c ∈ token.text.toList.head?, c ∉ Category.whitespace) :
    Text.NextVisible source first token.start := by
  have head := whole.bounds token List.mem_cons_self
  have behind := (List.pairwise_cons.mp whole.ordered).1
  constructor
  case after => exact head.1
  case visible =>
    cases body : token.text.toList with
    | nil =>
        have size := Text.byteLength_toList token.text
        rw [body, Text.byteLength_nil] at size
        have bounds := head.2.1
        rw [stop] at bounds
        omega
    | cons c more =>
        rw [body] at visible
        have found := whole.charAt_start List.mem_cons_self
        rw [body] at found
        exact ⟨c, found, visible c rfl⟩
  case blank =>
    intro other c lower upper found
    apply whole.blank other c lower (by omega) found
    intro later member
    rcases List.mem_cons.mp member with rfl | inside
    · exact Or.inl upper
    · have bound := behind later inside
      exact Or.inl (by omega)

/-- Two partitions into the same texts have the same places. -/
theorem starts_eq {others : List Token} (whole : Partition source first last tokens)
    (visible : ∀ token ∈ tokens, ∀ c ∈ token.text.toList.head?, c ∉ Category.whitespace)
    (same : Token.texts others = Token.texts tokens)
    (other : Partition source first last others) :
    others.map Token.start = tokens.map Token.start := by
  induction tokens generalizing others first with
  | nil => rw [List.map_eq_nil_iff.mp same]
  | cons token tokens inductionHypothesis =>
      obtain ⟨twin, twins, rfl, text, texts⟩ := List.map_eq_cons_iff.mp same
      obtain ⟨here, further⟩ := List.forall_mem_cons.mp visible
      have start : twin.start = token.start :=
        (other.nextVisible (by rwa [text])).unique (whole.nextVisible here)
      have stop : twin.stop = token.stop := by rw [Token.stop, Token.stop, start, text]
      have later := other.tail
      rw [stop] at later
      have rest := inductionHypothesis whole.tail further texts later
      rw [List.map_cons, List.map_cons, start, rest]

/-- The tokens of a lexeme go before the tokens that start behind it. -/
theorem lexeme {suffixes : Suffixes} {origin : Origin}
    (cut : source.toList = front ++ body ++ rest) (some : body ≠ [])
    (later : Partition source (Text.byteLength (front ++ body)) last tokens) :
    Partition source (Text.byteLength front) last
      (Lexeme.tokens suffixes (Text.byteLength front) origin body rest ++ tokens) := by
  rcases Suffixes.tokens_cases suffixes (Text.byteLength front) origin body rest with
    whole | ⟨head, suffix, _, before, behind, same, pieces⟩
  · rw [whole]
    exact later.cons cut some origin
  · subst same
    rw [pieces, ← Text.byteLength_append, ← String.ofList_toList (s := suffix)]
    rw [← List.append_assoc] at cut later
    have tail := later.cons cut behind .plainTail
    rw [List.append_assoc] at cut
    exact tail.cons cut before .plainHead

end Partition

end Token

namespace Lexeme

variable {suffixes : Suffixes} {source : String} {start : Nat} {front middle body rest : List Char}
  {origin : Token.Origin} {given : List Token}

/-- The lexemes and blanks of a part of the source are a partition of it. -/
theorem Covers.partition (covers : Covers suffixes start middle rest given)
    (cut : source.toList = front ++ middle ++ rest) (place : start = Text.byteLength front) :
    Token.Partition source start (Text.byteLength (front ++ middle)) given := by
  induction covers generalizing front with
  | done start rest =>
      rw [List.append_nil, ← place]
      exact Token.Partition.nil source start
  | @blank start c middle rest given blank _ inductionHypothesis =>
      subst place
      have further : source.toList = front ++ [c] ++ middle ++ rest := by simpa using cut
      have later := inductionHypothesis further (by simp)
      rw [List.append_cons front c middle]
      apply Token.Partition.space (by simpa using cut) blank
      simpa using later
  | @lexeme start origin body middle rest given starts _ inductionHypothesis =>
      subst place
      have further : source.toList = front ++ body ++ middle ++ rest := by simpa using cut
      have later := inductionHypothesis further (by simp)
      rw [← List.append_assoc]
      apply Token.Partition.lexeme (by simpa using cut) starts.append.2
      simpa using later

/-- No token of a lexeme starts with whitespace. -/
theorem Starts.visible (starts : Starts (body ++ rest) (.whole origin body rest)) :
    ∀ token ∈ tokens suffixes start origin body rest,
      ∀ c ∈ token.text.toList.head?, c ∉ Category.whitespace := by
  rcases Suffixes.tokens_cases suffixes start origin body rest with
    whole | ⟨head, suffix, plain, _, _, same, pieces⟩
  · rw [whole, List.forall_mem_singleton, String.toList_ofList]
    obtain ⟨first, after, starting, notBlank, _⟩ := starts
    intro c found
    obtain ⟨more, body⟩ := List.head?_eq_some_iff.mp found
    rw [body] at starting
    rwa [(List.cons.inj starting).1]
  · subst plain
    obtain ⟨_, _, _, _, inside⟩ := starts.shape
    rw [pieces]
    intro token member c found
    have among : c ∈ body := by
      have inText := List.mem_of_mem_head? found
      rw [same, List.mem_append]
      rcases List.mem_pair.mp member with rfl | rfl
      · exact Or.inl (by simpa using inText)
      · exact Or.inr inText
    exact (inside c among).1

theorem Covers.visible (covers : Covers suffixes start middle rest given) :
    ∀ token ∈ given, ∀ c ∈ token.text.toList.head?, c ∉ Category.whitespace := by
  induction covers with
  | done => exact nofun
  | blank _ _ inductionHypothesis => exact inductionHypothesis
  | lexeme starts _ inductionHypothesis =>
      exact List.forall_mem_append.mpr ⟨starts.visible, inductionHypothesis⟩

/-- The tokens of a run are pieces of a front part of the source. -/
theorem runFrom_partition (suffixes : Suffixes) (source : String) :
    ∃ last, Token.Partition source 0 last (runFrom suffixes 0 source.toList).tokens := by
  rcases runFrom_cases suffixes 0 source.toList with
    ⟨given, covers, run⟩ | ⟨front, rest, given, defect, body, cut, covers, _, run⟩
  · have cut : source.toList = [] ++ source.toList ++ [] := by simp
    rw [run]
    exact ⟨_, covers.partition cut rfl⟩
  · have cut : source.toList = [] ++ front ++ rest := cut
    rw [run]
    exact ⟨_, covers.partition cut rfl⟩

end Lexeme

/-- The tokens of an accepted source and the whitespace between them are all of it. Each token
starts at the next character that is no whitespace, so the texts tell where the tokens are. -/
theorem lex_partition {suffixes : Suffixes} {source : String} {run : Run} {tokens : List Token}
    (lexed : lex suffixes source = .ok run) (accepted : run.result = .ok tokens) :
    Token.Partition source 0 source.utf8ByteSize tokens ∧
      (∀ token ∈ tokens, ∀ c ∈ token.text.toList.head?, c ∉ Category.whitespace) ∧
      (∀ before token after, tokens = before ++ token :: after →
        Text.NextVisible source (Token.lastStop 0 before) token.start) ∧
      ∀ others, Token.Partition source 0 source.utf8ByteSize others →
        Token.texts others = Token.texts tokens →
        others.map Token.start = tokens.map Token.start := by
  obtain rfl := lex_eq_ok_iff.mp lexed
  rcases Lexeme.runFrom_cases suffixes 0 source.toList with
    ⟨given, covers, finished⟩ | ⟨_, _, _, _, _, _, _, _, broken⟩
  · rw [finished] at accepted
    cases accepted
    have cut : source.toList = [] ++ source.toList ++ [] := by simp
    have partition := covers.partition cut rfl
    rw [List.nil_append, Text.byteLength_toList] at partition
    have nextVisible : ∀ before token after, given = before ++ token :: after →
        Text.NextVisible source (Token.lastStop 0 before) token.start := by
      intro before token after cut
      subst cut
      apply partition.drop.nextVisible
      exact covers.visible token (by simp)
    have unique : ∀ others, Token.Partition source 0 source.utf8ByteSize others →
        Token.texts others = Token.texts given →
        others.map Token.start = given.map Token.start := by
      intro others other texts
      exact partition.starts_eq covers.visible texts other
    exact ⟨partition, covers.visible, nextVisible, unique⟩
  · rw [broken] at accepted
    cases accepted

/-- A split plain run, a numeral, a quotation with an escaped quote in it, and structure. -/
theorem lex_partition_mixed : ∃ run tokens,
    lex .standard "\té: 0x1F\x22a \x5c\x22 b\x22(2e-3)\n" = .ok run ∧ run.result = .ok tokens ∧
      Token.texts tokens =
        ["é", ":", "0x1F", "\x22a \x5c\x22 b\x22", "(", "2e-3", ")"] ∧
      Token.Partition "\té: 0x1F\x22a \x5c\x22 b\x22(2e-3)\n" 0 24 tokens ∧
      Text.NextVisible "\té: 0x1F\x22a \x5c\x22 b\x22(2e-3)\n" 4 5 := by
  have lexed : lex .standard "\té: 0x1F\x22a \x5c\x22 b\x22(2e-3)\n" = .ok
      ⟨[⟨"é", 1, .plainHead⟩, ⟨":", 3, .plainTail⟩, ⟨"0x1F", 5, .based .hexadecimal⟩,
        ⟨"\x22a \x5c\x22 b\x22", 9, .quotation '\x22'⟩, ⟨"(", 17, .delimiter⟩,
        ⟨"2e-3", 18, .decimal⟩, ⟨")", 22, .delimiter⟩], none⟩ := by decide +kernel
  obtain ⟨partition, _, nextVisible, _⟩ := lex_partition lexed rfl
  have numeral := nextVisible [⟨"é", 1, .plainHead⟩, ⟨":", 3, .plainTail⟩] _ _ rfl
  exact ⟨_, _, lexed, rfl, rfl, partition, numeral⟩

end ExprLexer
