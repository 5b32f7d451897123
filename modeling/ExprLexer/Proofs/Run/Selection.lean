/-
This file compares lists of suffixes. Lists that split the same suffix off every plain run lead to
the same runs, so dead suffixes can go, and suffixes that do not end each other can change places.
-/

import ExprLexer.Proofs.Lexeme.Shape
import ExprLexer.Proofs.Run.Basic
import ExprLexer.Proofs.Suffixes
import Mathlib.Data.List.Find
import Mathlib.Data.List.Pairwise

namespace ExprLexer

namespace Suffixes

/-- Two lists agree if the same suffix applies first to every plain run. -/
def Agree (first second : Suffixes) : Prop :=
  ∀ body, Lexeme.IsPlainRun body →
    first.find? (String.ofList body) = second.find? (String.ofList body)

/-- A suffix is live behind earlier ones if it can end a plain run and does not end with one of
them itself. -/
def Live (earlier : List String) (suffix : String) : Prop :=
  suffix ≠ "" ∧ (∀ c ∈ suffix.toList, Lexeme.IsPlain c) ∧
    ∀ other ∈ earlier, other ≠ "" → ¬ other.toList <:+ suffix.toList

instance (earlier : List String) (suffix : String) : Decidable (Live earlier suffix) :=
  let plain := List.decidableBAll Lexeme.IsPlain suffix.toList
  let leading := List.decidableBAll
    (fun other => other ≠ "" → ¬ other.toList <:+ suffix.toList) earlier
  @instDecidableAnd _ _ _ (@instDecidableAnd _ _ plain leading)

/-- The live ones among the entries that stand behind earlier ones. -/
def liveFrom (earlier : List String) : List String → List String
  | [] => []
  | suffix :: rest =>
      let later := liveFrom (earlier ++ [suffix]) rest
      if Live earlier suffix then suffix :: later else later

/-- The list without its dead suffixes. -/
def live (suffixes : Suffixes) : Suffixes := ⟨liveFrom [] suffixes.entries⟩

/-- Neither of two texts ends with the other. -/
def Incomparable (first second : String) : Prop :=
  ¬ first.toList <:+ second.toList ∧ ¬ second.toList <:+ first.toList

instance (first second : String) : Decidable (Incomparable first second) :=
  inferInstanceAs (Decidable (_ ∧ _))

instance : Std.Symm Incomparable where
  symm _ _ apart := ⟨apart.2, apart.1⟩

/-- No entry ends with an entry at another position. -/
def Independent (suffixes : Suffixes) : Prop := suffixes.entries.Pairwise Incomparable

instance (suffixes : Suffixes) : Decidable suffixes.Independent :=
  inferInstanceAs (Decidable (suffixes.entries.Pairwise Incomparable))

variable {first second suffixes : Suffixes} {earlier : List String} {body : List Char}
  {text suffix other : String}

/-- What ends a suffix applies wherever the suffix does. -/
theorem Applies.ending (applies : Applies (String.ofList body) suffix) (some : other ≠ "")
    (ends : other.toList <:+ suffix.toList) : Applies (String.ofList body) other := by
  rw [applies_iff] at applies ⊢
  obtain ⟨head, before, _, same⟩ := applies
  obtain ⟨more, whole⟩ := ends
  refine ⟨head ++ more, List.append_ne_nil_of_left_ne_nil before more, by simpa using some, ?_⟩
  rw [same, ← whole, List.append_assoc]

/-- A suffix that applies to a plain run is live behind entries that do not apply to it. -/
theorem Applies.live (applies : Applies (String.ofList body) suffix)
    (run : Lexeme.IsPlainRun body)
    (absent : ∀ other ∈ earlier, ¬ Applies (String.ofList body) other) : Live earlier suffix := by
  refine ⟨applies.1, fun c member => ?_, fun other member some ends => ?_⟩
  · obtain ⟨head, _, _, same⟩ := applies_iff.mp applies
    obtain ⟨_, _, _, _, inside⟩ := run
    apply inside
    rw [same]
    exact List.mem_append_right head member
  · exact absent other member (applies.ending some ends)

/-- Behind entries that do not apply, no entry that is dead can be the first one to apply. -/
theorem find?_liveFrom (run : Lexeme.IsPlainRun body) (rest : List String)
    (absent : ∀ other ∈ earlier, ¬ Applies (String.ofList body) other) :
    find? ⟨liveFrom earlier rest⟩ (String.ofList body) = find? ⟨rest⟩ (String.ofList body) := by
  -- The induction passes the entries one by one, and none of those that it has passed applies.
  induction rest generalizing earlier with
  | nil => rfl
  | cons suffix rest inductionHypothesis =>
      rw [liveFrom]
      by_cases applies : Applies (String.ofList body) suffix
      · rw [if_pos (applies.live run absent), find?_cons_of_applies applies,
          find?_cons_of_applies applies]
      · have further : ∀ other ∈ earlier ++ [suffix], ¬ Applies (String.ofList body) other :=
          List.forall_mem_append.mpr ⟨absent, List.forall_mem_singleton.mpr applies⟩
        rw [find?_cons_of_not_applies applies, ← inductionHypothesis further]
        split
        · exact find?_cons_of_not_applies applies _
        · rfl

theorem agree_live (suffixes : Suffixes) : suffixes.live.Agree suffixes :=
  fun _ run => find?_liveFrom run suffixes.entries nofun

/-- Of two endings of one text the longer ends with the shorter, so at most one entry applies. -/
theorem Independent.subsingleton (independent : suffixes.Independent) (text : String) :
    {suffix ∈ suffixes.entries | Applies text suffix}.Subsingleton := by
  rintro first ⟨member, applies⟩ second ⟨also, appliesToo⟩
  by_contra differ
  have apart := List.Pairwise.forall independent member also differ
  rcases List.suffix_or_suffix_of_suffix applies.2.2 appliesToo.2.2 with ends | ends
  · exact apart.1 ends
  · exact apart.2 ends

/-- Independent entries can change places. -/
theorem agree_of_perm (reordered : first.entries.Perm second.entries)
    (independent : first.Independent) : first.Agree second := by
  intro body _
  apply List.find?_eq_find?_of_perm reordered
  simpa using independent.subsingleton (String.ofList body)

end Suffixes

namespace Lexeme

variable {first second : Suffixes} {body : List Char} {origin : Token.Origin}

theorem Shape.tokens_congr (shape : Shape body origin) (agree : first.Agree second) (start : Nat)
    (rest : List Char) :
    tokens first start origin body rest = tokens second start origin body rest := by
  by_cases plain : origin = .plain
  · subst plain
    simp only [tokens, agree body shape]
  · rw [tokens_other plain, tokens_other plain]

/-- Lists that agree lead to the same run over every text. -/
theorem runFrom_congr (agree : first.Agree second) (start : Nat) (cs : List Char) :
    runFrom first start cs = runFrom second start cs := by
  induction cs using sequence_induction generalizing start with
  | nil => rw [runFrom_nil, runFrom_nil]
  | blank c rest blank inductionHypothesis =>
      rw [runFrom_blank blank, runFrom_blank blank, inductionHypothesis]
  | whole origin body rest starts inductionHypothesis =>
      rw [runFrom_whole starts, runFrom_whole starts, inductionHypothesis,
        starts.shape.tokens_congr agree]
  | broken cs defect body starts => rw [runFrom_broken starts, runFrom_broken starts]

end Lexeme

/-- Lists that agree lead to the same run over every source. -/
theorem lex_congr {first second : Suffixes} (agree : first.Agree second) (source : String) :
    ∃ run, lex first source = .ok run ∧ lex second source = .ok run :=
  ⟨_, lex_eq_ok_iff.mpr rfl, lex_eq_ok_iff.mpr (Lexeme.runFrom_congr agree 0 source.toList)⟩

/-- The dead suffixes of a list do nothing. Without them the lexer emits the same tokens and rejects
the same sources for the same reasons. -/
theorem lex_live (suffixes : Suffixes) (source : String) :
    ∃ run, lex suffixes.live source = .ok run ∧ lex suffixes source = .ok run :=
  lex_congr suffixes.agree_live source

/-- A shadowed suffix, a repeated one and one that holds a digit are dead. -/
example : Suffixes.live ⟨[">", "", "=>", ";", ">", "v2"]⟩ = ⟨[">", ";"]⟩ := by
  decide +kernel

/-- Suffixes of which none ends with another can be declared in any order. -/
theorem lex_reordered {first second : Suffixes} (reordered : first.entries.Perm second.entries)
    (independent : first.Independent) (source : String) :
    ∃ run, lex first source = .ok run ∧ lex second source = .ok run :=
  lex_congr (Suffixes.agree_of_perm reordered independent) source

/-- Each suffix applies to one of the runs, and the first entry of either list is not the one that
applies first in the source. -/
theorem lex_reordered_arrow : ["=>", "é"].Perm ["é", "=>"] ∧ Suffixes.Independent ⟨["=>", "é"]⟩ ∧
    ∃ run, lex ⟨["=>", "é"]⟩ "aé b=> =>" = .ok run ∧ lex ⟨["é", "=>"]⟩ "aé b=> =>" = .ok run ∧
      Token.texts run.tokens = ["a", "é", "b", "=>", "=>"] := by
  have reordered : ["=>", "é"].Perm ["é", "=>"] := .swap _ _ _
  have independent : Suffixes.Independent ⟨["=>", "é"]⟩ := by decide
  have lexed : lex ⟨["=>", "é"]⟩ "aé b=> =>" = .ok ⟨[⟨"a", 0, .plainHead⟩, ⟨"é", 1, .plainTail⟩,
      ⟨"b", 4, .plainHead⟩, ⟨"=>", 5, .plainTail⟩, ⟨"=>", 8, .plain⟩], none⟩ := by decide +kernel
  obtain ⟨run, known, same⟩ :=
    @lex_reordered ⟨["=>", "é"]⟩ ⟨["é", "=>"]⟩ reordered independent "aé b=> =>"
  rw [lexed] at known
  cases known
  exact ⟨reordered, independent, _, lexed, same, rfl⟩

end ExprLexer
