/-
This file says how the radix of a number is read off its text. The second character names the radix
that the machine read the number in, and all digits after it have a value in that radix.
-/

import ExprLexer.Proofs.Token.Kind
import Mathlib.Data.List.Basic

namespace ExprLexer

namespace Radix

/-- The value of a digit or a letter in a numeral with a radix of up to 36. -/
def digitValue? (c : Char) : Option Nat :=
  if '0'.toNat ≤ c.toNat ∧ c.toNat ≤ '9'.toNat then
    some (c.toNat - '0'.toNat)
  else if 'A'.toNat ≤ c.toNat ∧ c.toNat ≤ 'Z'.toNat then
    some (c.toNat - 'A'.toNat + 10)
  else if 'a'.toNat ≤ c.toNat ∧ c.toNat ≤ 'z'.toNat then
    some (c.toNat - 'a'.toNat + 10)
  else
    none

/-- The character separates digits or has a value in the radix. -/
def IsDigit (radix : Radix) (c : Char) : Prop :=
  c = '_' ∨ ∃ value < radix.base, digitValue? c = some value

instance (radix : Radix) (c : Char) : Decidable (radix.IsDigit c) :=
  inferInstanceAs (Decidable (c = '_' ∨ ∃ value < radix.base, digitValue? c = some value))

variable {radix : Radix} {c : Char}

theorem digitValue?_narrow {value : Nat} (valued : digitValue? c = some value) :
    c.toNat < 128 := by
  have last : '9'.toNat < 128 ∧ 'Z'.toNat < 128 ∧ 'z'.toNat < 128 := by decide
  unfold digitValue? at valued
  split at valued
  · omega
  split at valued
  · omega
  split at valued
  · omega
  · cases valued

/-- The characters that continue a numeral are the digits of its radix. -/
theorem mem_digits_iff : c ∈ radix.digits ↔ radix.IsDigit c := by
  have ascii : ∀ code < 128,
      Char.ofNat code ∈ radix.digits ↔ radix.IsDigit (Char.ofNat code) := by
    cases radix <;> decide +kernel
  by_cases narrow : c.toNat < 128
  · simpa only [Char.ofNat_toNat] using ascii c.toNat narrow
  · constructor
    · intro digit
      exact absurd (Category.narrow digit) narrow
    · rintro (rfl | ⟨value, _, valued⟩)
      · exact absurd (by decide) narrow
      · exact absurd (digitValue?_narrow valued) narrow

end Radix

namespace Lexeme

variable {body : List Char} {radix : Radix} {origin : Token.Origin}

/-- A numeral without a radix has at most one exponent marker. A sign stands only right behind the
marker, and all other characters are those of a number. -/
structure IsDecimal (body : List Char) : Prop where
  markers : body.countP (· ∈ Category.exponent) ≤ 1
  sign : ∀ before after, body = before ++ '-' :: after →
    ∃ marker ∈ before.getLast?, marker ∈ Category.exponent
  others : ∀ c ∈ body, c ∈ Category.numberBody ∨ c ∈ Category.exponent ∨ c = '-'

/-- Nothing in the digits of a number is an exponent marker. -/
theorem countP_exponent (inside : ∀ c ∈ body, c ∈ Category.numberBody) :
    body.countP (· ∈ Category.exponent) = 0 := by
  rw [List.countP_eq_zero]
  intro c member
  have apart := Category.Apart.not_mem (by decide : Category.Apart .numberBody .exponent)
    (inside c member)
  simpa using apart

theorem IsDigits.isDecimal (shape : IsDigits body) : IsDecimal body where
  markers := (countP_exponent shape.inside).le.trans (Nat.zero_le 1)
  sign := by
    rintro before after rfl
    have sign := shape.inside '-' (by simp)
    exact absurd sign (by decide)
  others c member := Or.inl (shape.inside c member)

theorem IsScaled.isDecimal (shape : IsScaled body) : IsDecimal body where
  markers := by
    obtain ⟨_, sign, digits, ⟨front, marker, frontShape, marks, rfl⟩, signs, inside, rfl⟩ := shape
    have unmarked : sign ∉ Category.exponent :=
      signs.elim (Category.Apart.not_mem (by decide : Category.Apart .numberBody .exponent))
        (Category.Apart.not_mem (by decide : Category.Apart .exponentSign .exponent))
    simp [List.countP_append, countP_exponent frontShape.inside, countP_exponent inside, marks,
      unmarked]
  sign := by
    intro before after cut
    obtain ⟨marked, sign, digits, markedShape, signs, inside, rfl⟩ := shape
    have notMarked : '-' ∉ marked := fun member =>
      absurd (markedShape.mem '-' member) (by decide)
    have notDigit : '-' ∉ digits := fun member => absurd (inside '-' member) (by decide)
    obtain ⟨rfl, _⟩ := (List.append_cons_inj_of_notMem notMarked notDigit).mp cut
    obtain ⟨front, marker, _, marks, rfl⟩ := markedShape
    exact ⟨marker, by simp, marks⟩
  others c member := by
    have signs : c ∈ Category.exponentSign ↔ c = '-' := List.mem_singleton
    rw [← signs]
    exact shape.mem c member

theorem Shape.isDecimal (shape : Shape body .decimal) : IsDecimal body :=
  shape.elim IsDigits.isDecimal IsScaled.isDecimal

/-- No character of a numeral without a radix names one. -/
theorem IsDecimal.unnamed (shape : IsDecimal body) : ∀ c ∈ body, Radix.named? c = none := by
  intro c member
  rcases shape.others c member with number | marks | rfl
  · exact Radix.named?_eq_none Radix.indicator_not_numberBody number
  · exact Radix.named?_eq_none Radix.indicator_not_exponent marks
  · decide

theorem IsBased.digits (shape : IsBased radix body) :
    Radix.leader.toList <+: body ∧ ∀ c ∈ body.drop 2, radix.IsDigit c := by
  obtain ⟨digits, inside, rfl⟩ := shape
  exact ⟨⟨radix.indicator :: digits, rfl⟩,
    fun c member => Radix.mem_digits_iff.mp (inside c member)⟩

/-- The second character of a numeral tells whether the numeral has a radix, and which. -/
theorem Shape.second_names_iff (shape : Shape body origin) (number : origin.kind = .number) :
    body[1]?.bind Radix.named? = some radix ↔ origin = .based radix := by
  cases origin with
  | decimal =>
      constructor
      · intro named
        obtain ⟨c, second, named⟩ := Option.bind_eq_some_iff.mp named
        rw [shape.isDecimal.unnamed c (List.mem_of_getElem? second)] at named
        cases named
      · nofun
  | based other =>
      obtain ⟨digits, _, rfl⟩ := shape
      have named : Radix.named? other.indicator = some other := Radix.named?_eq_some_iff.mpr rfl
      simp [named]
  | _ => cases number

end Lexeme

namespace Reaction

variable {reader : Reader} {span : Span} {radix : Radix} {c : Char} {reaction : Reaction}

/-- In a numeral with a radix, a reaction emits no more than the numeral. -/
theorem based_tokens (reacted : based reader radix span c = .ok reaction) :
    ∀ token ∈ reaction.tokens, span.token reader (.based radix) = .ok token := by
  intro token member
  unfold based at reacted
  split at reacted
  · obtain ⟨longer, _, made⟩ := Fault.bind_eq_ok_iff.mp reacted
    cases made
    cases member
  · obtain ⟨numeral, read, made⟩ := Fault.bind_eq_ok_iff.mp reacted
    have single : reaction.tokens = [numeral] := by
      split at made <;> cases made <;> rfl
    rw [single, List.mem_singleton] at member
    rwa [member]

end Reaction

namespace Machine

variable {suffixes : Suffixes} {source : String} {machine : Machine} {radix : Radix} {span : Span}
  {token : Token}

/-- In a numeral with a radix, a turn emits no more than the numeral. -/
theorem Emits.based (emits : machine.Emits suffixes token)
    (inside : machine.mode = .based radix span) :
    span.token machine.reader (.based radix) = .ok token := by
  rcases emits.cases (by simp [inside]) with ⟨run, given, ended, same, member⟩ |
    ⟨c, reaction, reacted, member⟩
  · unfold conclude at ended
    split at ended
    · simp only [inside] at ended
      obtain ⟨numeral, read, made⟩ := Fault.bind_eq_ok_iff.mp ended
      cases made
      rw [List.append_cancel_left same.symm, List.mem_singleton] at member
      rwa [member]
    · cases ended
  · rw [inside] at reacted
    exact Reaction.based_tokens reacted token member

/-- The token of a numeral with a radix is all that was read of the numeral. -/
theorem Reaches.based_span (reached : Reaches suffixes (Machine.start source) machine)
    (emits : machine.Emits suffixes token) (inside : machine.mode = .based radix span) :
    span = ⟨token.start, token.stop⟩ := by
  obtain ⟨front, body, rest, divides⟩ := divides_of_reaches reached
  have shape := divides.shape
  rw [inside] at shape
  obtain ⟨rfl, digits, _, rfl⟩ := shape
  have read := emits.based inside
  rw [Span.ofBody_token divides.reader.cut (List.cons_ne_nil _ _)] at read
  cases read
  rw [Token.stop, Text.utf8ByteSize_ofList, Span.ofBody, Text.byteLength_append]

end Machine

namespace Token

/-- The radix that the second character of the text names. -/
def namedRadix? (token : Token) : Option Radix := token.text.toList[1]?.bind Radix.named?

/-- A run collects the token as a numeral of the radix. The machine that emits it is in the middle
of such a numeral, and what it has read of the numeral is the token. -/
def ReadIn (token : Token) (suffixes : Suffixes) (source : String) (radix : Radix) : Prop :=
  ∃ machine, Machine.Reaches suffixes (Machine.start source) machine ∧
    machine.mode = .based radix ⟨token.start, token.stop⟩ ∧ machine.Emits suffixes token

variable {suffixes : Suffixes} {source : String} {run : Run} {token : Token} {radix : Radix}

/-- The origin of a token tells whether it was read in a radix. -/
theorem readIn_iff (lexed : lex suffixes source = .ok run) (member : token ∈ run.tokens) :
    token.ReadIn suffixes source radix ↔ token.origin = .based radix := by
  constructor
  · rintro ⟨machine, _, inside, emits⟩
    have origin := emits.origin
    rw [inside] at origin
    exact List.mem_singleton.mp origin
  · intro based
    obtain ⟨machine, reached, emits⟩ := lex_emits lexed member
    have origin := emits.origin
    rw [based] at origin
    -- Only a numeral of this radix emits tokens of such an origin.
    rcases mode : machine.mode with _ | span | span | ⟨other, span⟩ | span | ⟨quote, span⟩
    all_goals simp [mode, Mode.origins] at origin
    subst origin
    rw [reached.based_span emits mode] at mode
    exact ⟨machine, reached, mode, emits⟩

/-- The text of a number has the shape of its origin, since a number is no piece of a plain run. -/
theorem number_shape {tokens : List Token} (lexed : lex suffixes source = .ok run)
    (accepted : run.result = .ok tokens) (member : token ∈ tokens)
    (number : token.kind = .number) :
    Lexeme.Shape token.text.toList token.origin ∧ token.origin.kind = .number := by
  have notTail : ¬ token.QuotedTail := fun tail => by cases number.symm.trans tail.kind
  have shape := (covers_of_accepted lexed accepted).tokens_shape token member notTail
  have kind : token.origin.kind = .number := (kind_of_shape shape).symm.trans number
  have alone : token.origin.alone = token.origin := by
    cases origin : token.origin with
    | plainHead => cases origin ▸ kind
    | plainTail => cases origin ▸ kind
    | _ => rfl
  rw [alone] at shape
  exact ⟨shape, kind⟩

end Token

/-- The text of a number is enough to tell its radix. The second character names exactly the radix
that the number was read in. If it names one, all characters behind it are digits of that radix, and
otherwise the number is a decimal one. -/
theorem lex_radix {suffixes : Suffixes} {source : String} {run : Run} {tokens : List Token}
    {token : Token} (lexed : lex suffixes source = .ok run)
    (accepted : run.result = .ok tokens) (member : token ∈ tokens)
    (number : token.kind = .number) :
    (∀ radix, token.namedRadix? = some radix ↔ token.ReadIn suffixes source radix) ∧
      (∀ radix, token.namedRadix? = some radix →
        Radix.leader.toList <+: token.text.toList ∧
          ∀ c ∈ token.text.toList.drop 2, radix.IsDigit c) ∧
      (token.namedRadix? = none → Lexeme.IsDecimal token.text.toList) := by
  obtain ⟨shape, kind⟩ := Token.number_shape lexed accepted member number
  have inRun : token ∈ run.tokens := by
    rwa [Run.result_eq_ok_iff.mp accepted]
  have named (radix : Radix) : token.namedRadix? = some radix ↔ token.origin = .based radix :=
    shape.second_names_iff kind
  refine ⟨fun radix => ?_, fun radix second => ?_, fun unnamed => ?_⟩
  · rw [named, Token.readIn_iff lexed inRun]
  · rw [(named radix).mp second] at shape
    exact shape.digits
  · cases origin : token.origin with
    | decimal =>
        rw [origin] at shape
        exact shape.isDecimal
    | based radix => cases unnamed.symm.trans ((named radix).mpr origin)
    | _ =>
        rw [origin] at kind
        cases kind

/-- A letter is a digit of one numeral, ends another and marks the exponent of a third. -/
theorem lex_radix_letters : ∃ run tokens,
    lex .standard "0b1_0e0xfE_ 1e-2" = .ok run ∧ run.result = .ok tokens ∧
      Token.kinds tokens = [.number, .plain, .number, .number] ∧
      (⟨"0xfE_", 6, .based .hexadecimal⟩ : Token) ∈ tokens ∧
      Token.ReadIn ⟨"0xfE_", 6, .based .hexadecimal⟩ .standard "0b1_0e0xfE_ 1e-2" .hexadecimal ∧
      (∀ c ∈ ['f', 'E', '_'], Radix.IsDigit .hexadecimal c) ∧
      (⟨"1e-2", 12, .decimal⟩ : Token) ∈ tokens ∧ Lexeme.IsDecimal ['1', 'e', '-', '2'] := by
  have lexed : lex .standard "0b1_0e0xfE_ 1e-2" = .ok
      ⟨[⟨"0b1_0", 0, .based .binary⟩, ⟨"e", 5, .plain⟩, ⟨"0xfE_", 6, .based .hexadecimal⟩,
        ⟨"1e-2", 12, .decimal⟩], none⟩ := by
    decide +kernel
  obtain ⟨read, digits, _⟩ := lex_radix lexed rfl
    (by simp : (⟨"0xfE_", 6, .based .hexadecimal⟩ : Token) ∈ _) (by decide)
  obtain ⟨_, _, decimal⟩ := lex_radix lexed rfl
    (by simp : (⟨"1e-2", 12, .decimal⟩ : Token) ∈ _) (by decide)
  exact ⟨_, _, lexed, rfl, by decide, by simp, (read _).mp (by decide),
    (digits .hexadecimal (by decide)).2, by simp, decimal (by decide)⟩

end ExprLexer
