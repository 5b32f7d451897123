/-
This file joins and parts the runs of neighbouring texts. A run has no memory of the text before a
place where a token ends, but for the number of its bytes.
-/

import ExprLexer.Proofs.Lexeme.Locality
import ExprLexer.Proofs.Run.Basic

namespace ExprLexer

namespace Lexeme

variable {suffixes : Suffixes} {start : Nat} {front body rest : List Char} {origin : Token.Origin}
  {before given : List Token}

/-- A text and its tokens end closed if a blank, a delimiter or the closing quote of a quotation
comes last. -/
def EndsClosed (text : List Char) (stop : Nat) (tokens : List Token) : Prop :=
  text = [] ∨ (∃ c ∈ text.getLast?, c ∈ Category.whitespace ∨ c ∈ Category.structural) ∨
    ∃ token ∈ tokens, token.stop = stop ∧ ∃ quote, token.origin = .quotation quote

/-- Only a delimiter or a quotation is the last lexeme of a text that ends closed. -/
theorem EndsClosed.last {stop : Nat} (starts : Starts (body ++ rest) (.whole origin body rest))
    (closed : EndsClosed body stop [⟨String.ofList body, start, origin⟩]) :
    origin = .delimiter ∨ ∃ quote, origin = .quotation quote := by
  rcases closed with nothing | ⟨c, last, closes⟩ | ⟨token, member, _, quoted⟩
  · exact absurd nothing starts.append.2
  · by_contra other
    rw [not_or, not_exists] at other
    have solid := starts.shape.solid other.1 other.2 c (List.mem_of_mem_getLast? last)
    exact closes.elim solid.1 solid.2
  · rw [List.mem_singleton.mp member] at quoted
    exact Or.inr quoted

/-- What goes on behind a blank or a lexeme ends closed if the whole text does. -/
theorem EndsClosed.later (closed : EndsClosed (body ++ front)
      (start + Text.byteLength (body ++ front)) (before ++ given)) (some : front ≠ [])
    (settled : ∀ token ∈ before, ∀ quote, token.origin = .quotation quote →
      token.stop = start + Text.byteLength body) :
    EndsClosed front (start + Text.byteLength body + Text.byteLength front) given := by
  have wide := Text.byteLength_pos_iff.mpr some
  rw [Text.byteLength_append, ← Nat.add_assoc] at closed
  rcases closed with nothing | ⟨c, last, closes⟩ | ⟨token, member, stop, quote, quoted⟩
  · exact absurd (List.append_eq_nil_iff.mp nothing).2 some
  · rw [List.getLast?_append_of_ne_nil _ some] at last
    exact Or.inr (Or.inl ⟨c, last, closes⟩)
  · rcases List.mem_append.mp member with first | inside
    · have bound := settled token first quote quoted
      omega
    · exact Or.inr (Or.inr ⟨token, inside, stop, quote, quoted⟩)

/-- Nothing goes on with the lexemes of a text that ends closed. -/
theorem Covers.closed (covers : Covers suffixes start front [] given)
    (closed : EndsClosed front (start + Text.byteLength front) given) (more : List Char) :
    Covers suffixes start front more given := by
  revert closed
  refine covers.whole_induction ?done ?blank ?last ?lexeme
  case done => exact fun start _ => .done start more
  case blank =>
    intro start c front given blank inductionHypothesis closed
    apply Covers.blank blank
    apply inductionHypothesis
    by_cases last : front = []
    · exact Or.inl last
    · have whole : EndsClosed ([c] ++ front) (start + Text.byteLength ([c] ++ front))
        ([] ++ given) := closed
      exact whole.later last nofun
  case last =>
    intro start origin body starts closed
    -- Whatever comes next, a delimiter or a quotation ends, and neither loses a suffix.
    have ends := closed.last starts
    have single : Starts (body ++ more) (.whole origin body more) := by
      apply starts.shape.starts
      rcases ends with rfl | ⟨quote, rfl⟩ <;> trivial
    have other : origin ≠ .plain := by
      rcases ends with rfl | ⟨quote, rfl⟩ <;> simp
    rw [← tokens_other other suffixes start body more]
    exact .single suffixes start single
  case lexeme =>
    intro start origin body front given some starts inductionHypothesis closed
    have next : front.head? = (front ++ more).head? := (List.head?_append_of_ne_nil _ some).symm
    have later := inductionHypothesis <| closed.later some fun _ member _ quoted =>
      stop_of_quotation member quoted
    rw [tokens_congr_head suffixes start origin body next]
    exact .lexeme (starts.congr_head next) later

end Lexeme

/-- A source that is accepted and ends closed does not change what is read behind it. The run over
both parts has the tokens of the first part and then does what the run over the second part does,
as many bytes further on as the first part is long. -/
theorem lex_append {suffixes : Suffixes} {front : String} {first : Run} {tokens : List Token}
    (lexed : lex suffixes front = .ok first) (accepted : first.result = .ok tokens)
    (closed : Lexeme.EndsClosed front.toList front.utf8ByteSize tokens) (back : String) :
    ∃ second joined, lex suffixes back = .ok second ∧ lex suffixes (front ++ back) = .ok joined ∧
      joined = (second.shift front.utf8ByteSize).prepend tokens ∧
      (∀ later, second.result = .ok later →
        joined.result = .ok (tokens ++ later.map (Token.shift front.utf8ByteSize))) ∧
      ∀ rejection, second.result = .error rejection →
        joined.result = .error (rejection.shift front.utf8ByteSize) := by
  have covers := covers_of_accepted lexed accepted
  rw [← Text.byteLength_toList, ← Nat.zero_add (Text.byteLength _)] at closed
  have joined := Lexeme.runFrom_covers (covers.closed closed back.toList)
  rw [Text.byteLength_toList, Lexeme.runFrom_shift, ← String.toList_append] at joined
  refine ⟨_, _, lex_eq_ok_iff.mpr rfl, lex_eq_ok_iff.mpr rfl, joined, ?_, ?_⟩
  · intro later done
    rw [joined, Run.result_eq_ok_iff.mp done]
    rfl
  · intro rejection failed
    rw [Run.result_eq_error_iff] at failed ⊢
    rw [joined, Run.prepend, Run.shift, failed]
    rfl

/-- A quotation ends the first part, and the second part ends inside a numeral. -/
theorem lex_append_quotation : ∃ first tokens joined,
    lex .standard "é: \x27a b\x27" = .ok first ∧ first.result = .ok tokens ∧
      Lexeme.EndsClosed "é: \x27a b\x27".toList "é: \x27a b\x27".utf8ByteSize tokens ∧
      lex .standard ("é: \x27a b\x27" ++ "x:1e") = .ok joined ∧
      Token.texts joined.tokens = ["é", ":", "\x27a b\x27", "x", ":"] ∧
      joined.result = .error ⟨.missingExponent, 13, .numeral 11⟩ := by
  have lexed : lex .standard "é: \x27a b\x27" = .ok
      ⟨[⟨"é", 0, .plainHead⟩, ⟨":", 2, .plainTail⟩, ⟨"\x27a b\x27", 4, .quotation '\x27'⟩],
        none⟩ := by decide +kernel
  have behind : lex .standard "x:1e" = .ok
      ⟨[⟨"x", 0, .plainHead⟩, ⟨":", 1, .plainTail⟩],
        some ⟨.missingExponent, 4, .numeral 2⟩⟩ := by decide +kernel
  have closed : Lexeme.EndsClosed "é: \x27a b\x27".toList "é: \x27a b\x27".utf8ByteSize
      [⟨"é", 0, .plainHead⟩, ⟨":", 2, .plainTail⟩, ⟨"\x27a b\x27", 4, .quotation '\x27'⟩] :=
    Or.inr (Or.inr ⟨⟨"\x27a b\x27", 4, .quotation '\x27'⟩, by simp, by decide, '\x27', rfl⟩)
  obtain ⟨second, joined, same, both, run, _, failing⟩ :=
    lex_append lexed rfl closed "x:1e"
  rw [behind] at same
  cases same
  exact ⟨_, _, joined, lexed, rfl, closed, both, by rw [run]; rfl, failing _ rfl⟩

/-- A source can be cut where a token ends, unless the token was cut itself there. The run over the
rest emits the later tokens and meets the same rejection, as many bytes before. Without suffixes the
run over the part in front emits the earlier tokens. -/
theorem lex_cut {suffixes : Suffixes} {source : String} {run : Run} {before after : List Token}
    {token : Token} (lexed : lex suffixes source = .ok run)
    (emitted : run.tokens = before ++ token :: after) (whole : token.origin ≠ .plainHead) :
    ∃ front back, Text.slice source 0 token.stop = .ok front ∧
      Text.slice source token.stop source.utf8ByteSize = .ok back ∧
      (∃ later, lex suffixes back = .ok later ∧
        after = later.tokens.map (Token.shift token.stop) ∧
        run.rejection = later.rejection.map (Rejection.shift token.stop)) ∧
      (suffixes = .empty → lex suffixes front = .ok ⟨before ++ [token], none⟩) := by
  obtain ⟨covered, rest, cut, covers⟩ := Lexeme.runFrom_covered suffixes 0 source.toList
  rw [← lex_eq_ok_iff.mp lexed, emitted] at covers
  obtain ⟨first, second, rfl, stop, earlier, _⟩ := covers.split whole
  rw [Nat.zero_add] at stop
  rw [List.append_assoc] at cut
  have inFront : Text.slice source 0 token.stop = .ok (String.ofList first) := by
    have whole : source.toList = [] ++ first ++ (second ++ rest) := cut
    rw [stop]
    exact Text.slice_cut whole
  have behind : Text.slice source token.stop source.utf8ByteSize =
      .ok (String.ofList (second ++ rest)) := by
    rw [stop]
    exact Text.slice_behind cut
  have parted : run = ((Lexeme.runFrom suffixes 0 (second ++ rest)).shift token.stop).prepend
      (before ++ [token]) := by
    rw [lex_eq_ok_iff.mp lexed, cut, Lexeme.runFrom_covers earlier, Lexeme.runFrom_shift, stop]
  refine ⟨_, _, inFront, behind, ⟨_, lex_ofList suffixes _, ?_, ?_⟩, ?_⟩
  · rw [parted, Run.prepend, List.append_assoc, List.singleton_append] at emitted
    exact (List.cons.inj (List.append_cancel_left emitted)).2.symm
  · rw [parted]
    rfl
  · intro without
    -- Nothing can be split off, so the last lexeme in front does not notice that the source ends.
    obtain ⟨kept, alone, same⟩ := earlier.cut
    have run := Lexeme.runFrom_covers alone
    rw [List.append_nil, Lexeme.runFrom_nil, same without] at run
    rw [lex_ofList, run]
    simp [Run.prepend]

/-- Two numerals touch where the source is cut, and the rest of it is rejected. -/
theorem lex_cut_touching : ∃ run before after,
    lex .standard "é:0b102 1e" = .ok run ∧
      run.tokens = before ++ ⟨"0b10", 3, .based .binary⟩ :: after ∧
      Token.Origin.based .binary ≠ .plainHead ∧
      ∃ back later, Text.slice "é:0b102 1e" 7 11 = .ok back ∧ lex .standard back = .ok later ∧
        after = later.tokens.map (Token.shift 7) ∧
        run.rejection = later.rejection.map (Rejection.shift 7) := by
  have lexed : lex .standard "é:0b102 1e" = .ok
      ⟨[⟨"é", 0, .plainHead⟩, ⟨":", 2, .plainTail⟩, ⟨"0b10", 3, .based .binary⟩,
        ⟨"2", 7, .decimal⟩], some ⟨.missingExponent, 11, .numeral 9⟩⟩ := by decide +kernel
  have emitted : [⟨"é", 0, .plainHead⟩, ⟨":", 2, .plainTail⟩, ⟨"0b10", 3, .based .binary⟩,
      ⟨"2", 7, .decimal⟩] = [⟨"é", 0, .plainHead⟩, ⟨":", 2, .plainTail⟩] ++
        (⟨"0b10", 3, .based .binary⟩ : Token) :: [⟨"2", 7, .decimal⟩] := rfl
  obtain ⟨_, back, _, behind, ⟨later, restarted, tokens, rejection⟩, _⟩ :=
    lex_cut lexed emitted (by decide)
  exact ⟨_, _, _, lexed, emitted, by decide, back, later, behind, restarted, tokens, rejection⟩

end ExprLexer
