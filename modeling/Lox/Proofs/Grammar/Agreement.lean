import Lox.Grammar.CrossCheck
import Lox.Proofs.Grammar.Complete
import Lox.Proofs.Grammar.Sound
import Lox.Proofs.Grammar.Terminals

/-!
# The parser agrees with the grammar

A text is in the language if it can be cut into terminals and the tokens are derived from the start
of the grammar by a derivation in which every `else` belongs to the nearest conditional, and which
has a tree: it assigns to names and properties alone, and has no more than the permitted parameters
and arguments.

**Main definition.**
* `HasTree`: a text is in the language and has a program for its tree.

**Results.**
* `hasTree_iff`: the program is the one that is parsed, if there are no errors.
* `parser_agrees`: the parser and every reader of the language agree on every text.
-/

namespace Lox
namespace Grammar

/-- A text is derived from the grammar, and the derivation has this program for its tree. -/
def HasTree (source : String) (program : List Stmt) : Prop :=
  ∃ (tokens : List Token) (d : Derivation),
    Tokenized 1 source.toList tokens
      ∧ d.Valid
      ∧ d.NearestElse
      ∧ d.symbol = .category .program
      ∧ d.tokens = tokens
      ∧ d.program? = some program

/-- A reader of sources gives the texts of the trees of the language, and nothing else. -/
def ReadsLanguage (reference : String → Option String) (source : String) : Prop :=
  ∀ text, reference source = some text
    ↔ ∃ program, HasTree source program ∧ programText program = text

theorem Derivation.program?_eq_some
    {d : Derivation}
    {program : List Stmt} :
    d.program? = some program ↔ d.phrase? = some (.stmts program) := by
  unfold program?
  cases d.phrase? with
  | none => simp
  | some phrase => cases phrase <;> simp

/-- A text has a tree if and only if it is scanned and parsed without errors, and has that tree. -/
theorem hasTree_iff
    {source : String}
    {program : List Stmt} :
    HasTree source program
      ↔ (scan source).errors = []
        ∧ (Parse.ofTokens (scan source).tokens).errors = []
        ∧ program = (Parse.ofTokens (scan source).tokens).statements := by
  constructor
  · rintro ⟨tokens, d, hcut, hvalid, hnearest, hsymbol, htokens, hprogram⟩
    obtain ⟨hscan, rfl⟩ := (tokenized_iff source tokens).mp hcut
    have hbuilds : Builds (.category .program) (scan source).tokens d.phrase? d.endsOpen :=
      ⟨d, hvalid, hnearest, hsymbol, htokens, rfl, rfl⟩
    have hphrase := Parse.read_of_builds hbuilds
    rw [Derivation.program?_eq_some.mp hprogram] at hphrase
    split at hphrase
    · next hparse =>
        cases hphrase
        exact ⟨hscan, hparse, rfl⟩
    · cases hphrase
  · rintro ⟨hscan, hparse, rfl⟩
    obtain ⟨_, d, hvalid, hnearest, hsymbol, htokens, hphrase, -⟩ :=
      Parse.derives_of_no_errors hparse
    exact ⟨_, d, (tokenized_iff source _).mpr ⟨hscan, rfl⟩, hvalid, hnearest, hsymbol, htokens,
      Derivation.program?_eq_some.mpr hphrase⟩

/--
A text is scanned and parsed without errors if and only if it is in the language, and then the
program that is parsed is written as the tree of every derivation.  So the parser agrees with every
reader of the language on every text.
-/
theorem parser_agrees (source : String) :
    ((scan source).errors = [] ∧ (Parse.ofTokens (scan source).tokens).errors = []
        ↔ ∃ program, HasTree source program)
      ∧ (∀ program, HasTree source program →
        programText program = programText (Parse.ofTokens (scan source).tokens).statements)
      ∧ ∀ reference, ReadsLanguage reference source →
        (checkAgainst reference source).agree = true := by
  refine ⟨⟨fun ⟨hscan, hparse⟩ => ⟨_, hasTree_iff.mpr ⟨hscan, hparse, rfl⟩⟩, ?_⟩, ?_, ?_⟩
  · rintro ⟨program, htree⟩
    obtain ⟨hscan, hparse, -⟩ := hasTree_iff.mp htree
    exact ⟨hscan, hparse⟩
  · intro program htree
    rw [(hasTree_iff.mp htree).2.2]
  · intro reference hreference
    have hparsed : parsedText? source = reference source := by
      apply Option.ext
      intro text
      rw [hreference text, parsedText?]
      constructor
      · intro h
        by_cases hnone : (scan source).errors = []
            ∧ (Parse.ofTokens (scan source).tokens).errors = []
        · obtain ⟨hscan, hparse⟩ := hnone
          refine ⟨_, hasTree_iff.mpr ⟨hscan, hparse, rfl⟩, ?_⟩
          simpa [hscan, hparse] using h
        · simp at h hnone
          exact absurd h.1.2 (hnone h.1.1)
      · rintro ⟨program, htree, rfl⟩
        obtain ⟨hscan, hparse, rfl⟩ := hasTree_iff.mp htree
        simp [hscan, hparse]
    rw [checkAgainst, hparsed]
    cases reference source with
    | none => rfl
    | some text => simp [compareTexts]

/-- A reader that knows one text with an `else` after two conditionals, and rejects all others. -/
theorem parser_agrees_dangling_else :
    let source := "if (a) if (b) c; else d;"
    let reference := ([(source, "(if a (if b (; c) (; d)))")].lookup ·)
    (∃ program, HasTree source program)
      ∧ ReadsLanguage reference source
      ∧ (checkAgainst reference source).agree = true
      ∧ ReadsLanguage reference "a + b = c;"
      ∧ (checkAgainst reference "a + b = c;").agree = true := by
  intro source reference
  have hscan : (scan source).errors = [] := by cbv
  have hparse : (Parse.ofTokens (scan source).tokens).errors = [] := by cbv
  have htext : programText (Parse.ofTokens (scan source).tokens).statements
      = "(if a (if b (; c) (; d)))" := by
    cbv
  have hknown : reference source = some "(if a (if b (; c) (; d)))" := by
    simp [reference]
  have hother : reference "a + b = c;" = none := by
    simp [reference, source]
  have hreads : ReadsLanguage reference source := by
    intro text
    rw [hknown]
    constructor
    · rintro ⟨⟩
      exact ⟨_, hasTree_iff.mpr ⟨hscan, hparse, rfl⟩, htext⟩
    · rintro ⟨program, htree, rfl⟩
      rw [(hasTree_iff.mp htree).2.2, htext]
  have hrejects : ReadsLanguage reference "a + b = c;" := by
    intro text
    rw [hother]
    refine ⟨by rintro ⟨⟩, ?_⟩
    rintro ⟨program, htree, -⟩
    have herrors : (Parse.ofTokens (scan "a + b = c;").tokens).errors.isEmpty = false := by cbv
    rw [(hasTree_iff.mp htree).2.1] at herrors
    cases herrors
  exact ⟨(parser_agrees source).1.mp ⟨hscan, hparse⟩, hreads,
    (parser_agrees source).2.2 reference hreads, hrejects,
    (parser_agrees "a + b = c;").2.2 reference hrejects⟩

end Grammar
end Lox
