/-
This file shows that every reaction fits the source. A reaction lets the token grow, closes it with
the tokens of its lexeme, or rejects a literal that is malformed.
-/

import ExprLexer.Proofs.Machine.Division
import ExprLexer.Proofs.Suffixes

namespace ExprLexer

namespace Reaction

/-- A reaction to a character fits the body that was read before it and the rest after it. -/
inductive Fits (suffixes : Suffixes) (front body : List Char) (c : Char) (rest : List Char) :
    Reaction → Prop where
  /-- The token grows by the character. -/
  | grow {mode : Mode} (shape : mode.Shape front (body ++ [c])) :
      Fits suffixes front body c rest (.past mode [])
  /-- The body and the character are done with. -/
  | close {tokens : List Token}
      (covers : Lexeme.Covers suffixes (Text.byteLength front) (body ++ [c]) rest tokens) :
      Fits suffixes front body c rest (.past .between tokens)
  /-- The body is done with, and the character is looked at again. -/
  | reread {tokens : List Token}
      (covers : Lexeme.Covers suffixes (Text.byteLength front) body (c :: rest) tokens) :
      Fits suffixes front body c rest (.again .between tokens)
  /-- The body is a malformed literal whose defect shows at the character. -/
  | reject {defect : Defect}
      (starts : Lexeme.Starts (body ++ c :: rest) (.broken defect body)) :
      Fits suffixes front body c rest (.reject
        (.ofDefect defect (Text.byteLength (front ++ body)) (Text.byteLength front)))

/-- A reaction comes without a fault and fits. -/
def Succeeds (suffixes : Suffixes) (front body : List Char) (c : Char) (rest : List Char)
    (reacted : Except Fault Reaction) : Prop :=
  ∃ reaction, reacted = .ok reaction ∧ reaction.Fits suffixes front body c rest

variable {suffixes : Suffixes} {reader : Reader} {front body rest : List Char} {c : Char}
  {span : Span}

/-- A lexeme and the blank after it cover both. -/
theorem covers_blank (suffixes : Suffixes) (start : Nat) {origin : Token.Origin}
    (starts : Lexeme.Starts (body ++ c :: rest) (.whole origin body (c :: rest)))
    (blank : c ∈ Category.whitespace) :
    Lexeme.Covers suffixes start (body ++ [c]) rest
      (Lexeme.tokens suffixes start origin body (c :: rest)) := by
  have later : Lexeme.Covers suffixes (start + Text.byteLength body) [c] rest [] :=
    .blank blank (.done _ rest)
  simpa using (Lexeme.Covers.single suffixes start starts).append later

/-- Between tokens a character is passed over, or it is a token or starts one. -/
theorem between_fits (stands : reader.Between front (c :: rest)) :
    Succeeds suffixes front [] c rest (between reader c) := by
  have here : Span.ofChar reader c = Span.ofBody front [c] := Span.ofChar_eq_ofBody stands
  rw [between, here]
  by_cases blank : c ∈ Category.whitespace
  · rw [if_pos blank]
    exact ⟨_, rfl, .close (.blank blank (.done _ rest))⟩
  rw [if_neg blank]
  by_cases delimits : c ∈ Category.structural
  · have cut : reader.text.toList = front ++ [c] ++ rest := by simpa using stands.cut
    have covers : Lexeme.Covers suffixes (Text.byteLength front) [c] rest _ :=
      .single suffixes _ (Lexeme.starts_delimiter delimits)
    rw [Lexeme.tokens_other (by decide : Token.Origin.delimiter ≠ .plain)] at covers
    rw [if_pos delimits, Span.ofBody_token cut (List.cons_ne_nil c [])]
    exact ⟨_, rfl, .close covers⟩
  rw [if_neg delimits]
  by_cases quotes : c ∈ Category.quote
  · rw [if_pos quotes]
    exact ⟨_, rfl, .grow ⟨rfl, [], rfl, quotes, rfl⟩⟩
  rw [if_neg quotes]
  by_cases number : c ∈ Category.numberBody
  · rw [if_pos number]
    have digits : Lexeme.IsDigits [c] :=
      ⟨List.cons_ne_nil c [], List.forall_mem_singleton.mpr number⟩
    exact ⟨_, rfl, .grow ⟨rfl, Or.inl digits⟩⟩
  · rw [if_neg number]
    have plain : Lexeme.IsPlain c := ⟨blank, delimits, number⟩
    have shape : Lexeme.IsPlainRun [c] :=
      ⟨c, [], rfl, quotes, List.forall_mem_singleton.mpr plain⟩
    exact ⟨_, rfl, .grow ⟨rfl, shape⟩⟩

/-- A numeral that is not plain text closes with one token. -/
theorem closeNumeral_fits (stands : reader.Between (front ++ body) (c :: rest))
    {origin : Token.Origin} (other : origin ≠ .plain)
    (starts : Lexeme.Starts (body ++ c :: rest) (.whole origin body (c :: rest))) :
    Succeeds suffixes front body c rest
      (closeNumeral reader (Span.ofBody front body) origin c) := by
  have token := Span.ofBody_token stands.cut starts.append.2 origin
  have given := Lexeme.tokens_other other suffixes (Text.byteLength front) body (c :: rest)
  rw [closeNumeral, token]
  simp only [bind, Except.bind]
  split
  · next blank =>
      have covers := covers_blank suffixes (Text.byteLength front) starts blank
      rw [given] at covers
      exact ⟨_, rfl, .close covers⟩
  · have covers := Lexeme.Covers.single suffixes (Text.byteLength front) starts
    rw [given] at covers
    exact ⟨_, rfl, .reread covers⟩

theorem namedRadix?_ofList (body : List Char) (c : Char) :
    namedRadix? (String.ofList body) c =
      if body = Radix.leader.toList then Radix.named? c else none := by
  have same : String.ofList body = Radix.leader ↔ body = Radix.leader.toList := by
    rw [← String.toList_inj, String.toList_ofList]
  simp only [namedRadix?, same]

/-- A text holds an exponent marker exactly if one of its bytes is one. This is the contract of the
search. -/
theorem hasExponent_iff {text : String} : hasExponent text = true ↔
    ∃ offset, ∃ inside : offset < text.utf8ByteSize,
      Char.ofNat (text.getUTF8Byte ⟨offset⟩ inside).toNat ∈ Category.exponent := by
  rw [Text.exists_byte_mem_iff, hasExponent, List.any_eq_true]
  simp only [decide_eq_true_iff]

/-- A numeral holds an exponent marker exactly if it has an exponent. -/
theorem hasExponent_scaled (shape : Lexeme.IsScaled body) :
    hasExponent (String.ofList body) = true := by
  obtain ⟨marked, sign, digits, ⟨whole, marker, _, marks, same⟩, _, _, scaled⟩ := shape
  rw [hasExponent_iff, Text.exists_byte_mem_iff, String.toList_ofList]
  exact ⟨marker, by simp [scaled, same], marks⟩

theorem hasExponent_digits (shape : Lexeme.IsDigits body) :
    hasExponent (String.ofList body) = false := by
  rw [Bool.eq_false_iff, ne_eq, hasExponent_iff, Text.exists_byte_mem_iff, String.toList_ofList]
  rintro ⟨marker, member, marks⟩
  have outside := Category.Apart.not_mem (by decide : Category.Apart .numberBody .exponent)
    (shape.inside marker member)
  exact outside marks

theorem numeral_fits (stands : reader.Between (front ++ body) (c :: rest))
    (shape : Lexeme.IsDigits body ∨ Lexeme.IsScaled body) :
    Succeeds suffixes front body c rest (numeral reader (Span.ofBody front body) c) := by
  have grows : (Span.ofBody front body).extend reader c = .ok (Span.ofBody front (body ++ [c])) :=
    Span.ofBody_extend stands
  rw [numeral, Span.ofBody_slice stands.cut]
  simp only [bind, Except.bind, namedRadix?_ofList, grows]
  split
  · next radix named =>
      have leads : body = Radix.leader.toList := by
        by_contra other
        rw [if_neg other] at named
        cases named
      rw [if_pos leads] at named
      have based : Lexeme.IsBased radix (body ++ [c]) := by
        rw [Radix.named?_eq_some_iff.mp named, leads]
        exact ⟨[], by simp, rfl⟩
      exact ⟨_, rfl, .grow ⟨rfl, based⟩⟩
  · next unnamed =>
      split
      · next number =>
          have longer : Lexeme.IsDigits (body ++ [c]) ∨ Lexeme.IsScaled (body ++ [c]) :=
            shape.imp (fun digits => digits.concat number) fun scaled => scaled.concat number
          exact ⟨_, rfl, .grow ⟨rfl, longer⟩⟩
      · next other =>
          split
          · next marks =>
              rcases shape with digits | scaled
              · rw [hasExponent_digits digits]
                exact ⟨_, rfl, .grow ⟨rfl, body, c, digits, marks, rfl⟩⟩
              · rw [hasExponent_scaled scaled, stands.position]
                exact ⟨_, rfl, .reject (Lexeme.starts_repeated scaled marks)⟩
          · next plain =>
              have stop : ∀ d ∈ (c :: rest).head?,
                  d ∉ Category.numberBody ∧ d ∉ Category.exponent := by simp [other, plain]
              apply closeNumeral_fits stands (by decide)
              rcases shape with digits | scaled
              · apply Lexeme.starts_digits digits _ stop
                intro leads
                rwa [if_pos leads] at unnamed
              · exact Lexeme.starts_scaled scaled stop

theorem exponent_fits (stands : reader.Between (front ++ body) (c :: rest))
    (shape : Lexeme.IsMarked body) :
    Succeeds suffixes front body c rest (exponent reader (Span.ofBody front body) c) := by
  rw [exponent, Span.ofBody_extend stands]
  split
  · next signs =>
      have scaled : Lexeme.IsScaled (body ++ [c]) := ⟨body, c, [], shape, signs, by simp, rfl⟩
      exact ⟨_, rfl, .grow ⟨rfl, Or.inr scaled⟩⟩
  · next stray =>
      rw [stands.position]
      exact ⟨_, rfl, .reject (Lexeme.starts_stray shape stray)⟩

theorem based_fits {radix : Radix} (stands : reader.Between (front ++ body) (c :: rest))
    (shape : Lexeme.IsBased radix body) :
    Succeeds suffixes front body c rest (based reader radix (Span.ofBody front body) c) := by
  rw [based, Span.ofBody_extend stands]
  split
  · next digit => exact ⟨_, rfl, .grow ⟨rfl, shape.concat digit⟩⟩
  · next other =>
      have stop : ∀ d ∈ (c :: rest).head?, d ∉ radix.digits := by simpa using other
      exact closeNumeral_fits stands (by simp) (Lexeme.starts_based shape stop)

/-- A plain run is cut into the tokens of its lexeme. -/
theorem cutPlain_tokens (suffixes : Suffixes)
    (cut : reader.text.toList = front ++ body ++ rest) (some : body ≠ []) (more : rest ≠ []) :
    cutPlain suffixes reader (Span.ofBody front body) =
      .ok (Lexeme.tokens suffixes (Text.byteLength front) .plain body rest) := by
  rw [cutPlain, Span.ofBody_slice cut]
  simp only [bind, Except.bind]
  rcases found : suffixes.find? (String.ofList body) with _ | suffix
  · have kept : suffixes.cutPoint? (String.ofList body) = none := by
      rw [Suffixes.cutPoint?, found]
      rfl
    rw [kept, Span.ofBody_token cut some, Suffixes.tokens_whole found]
    rfl
  · obtain ⟨head, before, after, same, point⟩ := Suffixes.find?_cut found
    have whole : (Reader.start (String.ofList body)).text.toList = head ++ suffix.toList := by
      simpa [Reader.start] using same
    have first : (Span.ofBody [] head).token (Reader.start (String.ofList body)) .plainHead = _ :=
      Span.ofBody_token whole before .plainHead
    have ending := whole.trans (List.append_nil _).symm
    have second : (Span.ofBody head suffix.toList).token (Reader.start (String.ofList body))
        .plainTail = _ := Span.ofBody_token ending after .plainTail
    have firstSpan : Span.mk 0 (Text.byteLength head) = Span.ofBody [] head := rfl
    have secondSpan : Span.mk (Text.byteLength head) (String.ofList body).utf8ByteSize =
        Span.ofBody head suffix.toList := by
      rw [Span.ofBody, Text.utf8ByteSize_ofList, same]
    rw [point, Suffixes.tokens_cut found same _ more]
    simp only [firstSpan, secondSpan, first, second, String.ofList_toList]
    rfl

theorem plain_fits (stands : reader.Between (front ++ body) (c :: rest))
    (shape : Lexeme.IsPlainRun body) :
    Succeeds suffixes front body c rest (plain suffixes reader (Span.ofBody front body) c) := by
  have some : body ≠ [] := by
    obtain ⟨d, more, same, _⟩ := shape
    simp [same]
  have tokens := cutPlain_tokens suffixes stands.cut some (List.cons_ne_nil c rest)
  have starts (outside : ¬ Lexeme.IsPlain c) :
      Lexeme.Starts (body ++ c :: rest) (.whole .plain body (c :: rest)) :=
    Lexeme.starts_plain shape (by simpa using outside)
  rw [plain, tokens]
  by_cases blank : c ∈ Category.whitespace
  · rw [if_pos blank]
    have outside : ¬ Lexeme.IsPlain c := fun inside => inside.1 blank
    exact ⟨_, rfl, .close (covers_blank suffixes _ (starts outside) blank)⟩
  rw [if_neg blank]
  by_cases delimits : c ∈ Category.structural
  · have outside : ¬ Lexeme.IsPlain c := fun inside => inside.2.1 delimits
    have here : Span.ofChar reader c = Span.ofBody (front ++ body) [c] :=
      Span.ofChar_eq_ofBody stands
    have cut : reader.text.toList = front ++ body ++ [c] ++ rest := by simpa using stands.cut
    have later : Lexeme.Covers suffixes (Text.byteLength front + Text.byteLength body) [c] rest _ :=
      .single suffixes _ (Lexeme.starts_delimiter delimits)
    have run := Lexeme.Covers.single suffixes (Text.byteLength front) (starts outside)
    have both : Lexeme.Covers suffixes (Text.byteLength front) (body ++ [c]) rest _ :=
      Lexeme.Covers.append run later
    rw [Lexeme.tokens_other (by decide : Token.Origin.delimiter ≠ .plain), ← Text.byteLength_append]
      at both
    rw [if_pos delimits, here, Span.ofBody_token cut (List.cons_ne_nil c [])]
    exact ⟨_, rfl, .close both⟩
  rw [if_neg delimits]
  by_cases number : c ∈ Category.numberBody
  · rw [if_pos number]
    have outside : ¬ Lexeme.IsPlain c := fun inside => inside.2.2 number
    exact ⟨_, rfl, .reread (.single suffixes _ (starts outside))⟩
  · rw [if_neg number, Span.ofBody_extend stands]
    exact ⟨_, rfl, .grow ⟨rfl, shape.concat ⟨blank, delimits, number⟩⟩⟩

/-- The bytes of a text are those of its last escapes and those before them. -/
theorem byteLength_escapes (body : List Char) :
    Text.byteLength body =
      Text.byteLength (body.rdropWhile (· ∈ Category.escape)) + Lexeme.escapesBefore body := by
  induction body using List.reverseRecOn with
  | nil => rfl
  | append_singleton body c inductionHypothesis =>
      rw [List.rdropWhile_concat, Lexeme.escapesBefore_concat]
      by_cases escape : c ∈ Category.escape
      · have single := Text.narrow_utf8Size (Category.narrow escape)
        simp only [escape, decide_true, if_true, Text.byteLength_append, Text.byteLength_cons,
          Text.byteLength_nil]
        omega
      · simp [escape]

/-- The bytes that are counted back from the last quote are the escapes before it. -/
theorem escapesBeforeLast_concat {quote : Char} (quotes : quote ∈ Category.quote)
    (body : List Char) :
    escapesBeforeLast (String.ofList (body ++ [quote])) = Lexeme.escapesBefore body := by
  have single := Text.narrow_utf8Size (Category.narrow quotes)
  have last : (String.ofList (body ++ [quote])).utf8ByteSize - 1 = Text.byteLength body := by
    simp only [Text.utf8ByteSize_ofList, Text.byteLength_append, Text.byteLength_cons,
      Text.byteLength_nil]
    omega
  have back := Text.runStart_cut .escape
    (String.toList_ofList : (String.ofList (body ++ [quote])).toList = body ++ [quote])
  have size := byteLength_escapes body
  rw [escapesBeforeLast]
  simp only [last, back]
  omega

/-- A quotation closes at a quote that has an even number of escapes right before it. Any other
character makes it longer. -/
theorem quotation_eq {quote : Char} (stands : reader.Between (front ++ body) (c :: rest))
    (quotes : quote ∈ Category.quote) :
    quotation reader quote (Span.ofBody front body) c =
      .ok (if c = quote ∧ Lexeme.escapesBefore body % 2 = 0 then
        .past .between [⟨String.ofList (body ++ [c]), Text.byteLength front, .quotation quote⟩]
      else
        .past (.quotation quote (.ofBody front (body ++ [c]))) []) := by
  have cut : reader.text.toList = front ++ (body ++ [c]) ++ rest := by simpa using stands.cut
  have some : body ++ [c] ≠ [] := by simp
  have filled : String.ofList (body ++ [c]) ≠ "" := by simp
  rw [quotation, Span.ofBody_extend stands]
  simp only [bind, Except.bind]
  by_cases same : c = quote
  · subst same
    rw [if_pos rfl, Span.ofBody_slice cut]
    simp only [if_neg filled, escapesBeforeLast_concat quotes, Span.ofBody_token cut some,
      true_and]
    split <;> rfl
  · rw [if_neg same, if_neg fun closes => same closes.1]
    rfl

theorem quotation_fits {quote : Char} (stands : reader.Between (front ++ body) (c :: rest))
    (shape : Lexeme.IsOpen quote body) :
    Succeeds suffixes front body c rest (quotation reader quote (Span.ofBody front body) c) := by
  rw [quotation_eq stands shape.quotes]
  split
  · next closes =>
      obtain ⟨rfl, even⟩ := closes
      have covers : Lexeme.Covers suffixes (Text.byteLength front) (body ++ [c]) rest _ :=
        .single suffixes _ (by simpa using Lexeme.starts_quotation shape even)
      rw [Lexeme.tokens_other (by simp : Token.Origin.quotation c ≠ .plain)] at covers
      exact ⟨_, rfl, .close covers⟩
  · next goesOn =>
      have opened : Lexeme.closeQuote quote (Lexeme.escapesBefore body) [c] = none := by
        rw [Lexeme.closeQuote_cons, if_neg goesOn]
        rfl
      exact ⟨_, rfl, .grow ⟨rfl, shape.append opened⟩⟩

end Reaction

/-- Every reaction fits the shape of its mode. -/
theorem Mode.react_fits (suffixes : Suffixes) {reader : Reader} {front body rest : List Char}
    {c : Char} {mode : Mode} (stands : reader.Between (front ++ body) (c :: rest))
    (shape : mode.Shape front body) :
    Reaction.Succeeds suffixes front body c rest (mode.react suffixes reader c) := by
  cases mode with
  | between =>
      subst shape
      rw [List.append_nil] at stands
      exact Reaction.between_fits stands
  | numeral span =>
      obtain ⟨rfl, shape⟩ := shape
      exact Reaction.numeral_fits stands shape
  | exponent span =>
      obtain ⟨rfl, shape⟩ := shape
      exact Reaction.exponent_fits stands shape
  | based radix span =>
      obtain ⟨rfl, shape⟩ := shape
      exact Reaction.based_fits stands shape
  | plain span =>
      obtain ⟨rfl, shape⟩ := shape
      exact Reaction.plain_fits stands shape
  | quotation quote span =>
      obtain ⟨rfl, shape⟩ := shape
      exact Reaction.quotation_fits stands shape

end ExprLexer
