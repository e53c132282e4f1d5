import Lox.Proofs.Grammar.Sound
import Lox.Proofs.Session.Course
import Lox.Text.Blank

/-!
# Texts that open with a slash

No declaration opens with a slash.  So a text without errors, whose first character behind the white
space is a slash, opens with a comment; and if the text is a single line, it has nothing else.

White space is more than what the scanner skips, but what the scanner does not skip is an error.

**Results.**
* `Grammar.program_opens`: the tokens with which a program can open.
* `compile_opens_with_comment`: a slash at the start of an accepted text has another one behind it.
* `statementsOf_comment`: a single line that opens with a comment holds no statement.
-/

namespace Lox
namespace Grammar

/-- The kinds of the tokens that open a declaration or a statement. -/
def declarationOpenings : List TokenKind :=
  declarationWords ++ statementWords ++ expressionOpenings

theorem symbols_of_declarations :
    ∀ r ∈ rules, r.category = .declarations →
      r.symbols = [] ∨ r.symbols = [.category .declarations, .category .declaration] := by
  decide

theorem symbols_of_program :
    ∀ r ∈ rules, r.category = .program → r.symbols = [.category .declarations] := by
  decide

/-- The tokens are none, or the first of them opens a declaration. -/
def OpensDeclaration (tokens : List Token) : Prop :=
  ∀ t ∈ tokens.head?, t.kind ∈ declarationOpenings

theorem Derivation.declarations_open :
    ∀ d : Derivation, d.Valid → d.symbol = .category .declarations → OpensDeclaration d.tokens
  | .leaf t, _, hsymbol => by simp [symbol] at hsymbol
  | .node rule parts, hvalid, hsymbol => by
      obtain ⟨hmem, hrow, hparts⟩ := hvalid
      have hcategory : rule.category = .declarations := by simpa [symbol] using hsymbol
      rcases symbols_of_declarations rule hmem hcategory with hsymbols | hsymbols <;>
        rw [hsymbols] at hrow
      · obtain rfl := List.map_eq_nil_iff.mp hrow
        simp [OpensDeclaration, tokens, tokensOfAll]
      · match parts, hparts, hrow with
        | [before, last], hparts, hrow =>
            simp only [List.map_cons, List.map_nil, List.cons.injEq, and_true] at hrow
            have hbefore := declarations_open before hparts.1 hrow.1
            obtain ⟨t, rest, htokens, ht⟩ := last.opens rfl hparts.2.1 hrow.2
            have heq : (node rule [before, last]).tokens = before.tokens ++ last.tokens := by
              simp [tokens, tokensOfAll]
            rw [heq]
            -- The first token is one of the declarations before, if there are any.
            cases hfirst : before.tokens with
            | nil =>
                rw [List.nil_append, htokens]
                rintro _ ⟨⟩
                exact ht
            | cons u us => simpa [OpensDeclaration, hfirst] using hbefore
        | [], _, hrow => simp at hrow
        | [_], _, hrow => simp at hrow
        | _ :: _ :: _ :: _, _, hrow => simp at hrow

/-- A program is empty or opens with a declaration. -/
theorem program_opens
    {tokens : List Token}
    {phrase : Phrase}
    (h : Makes .program tokens phrase) :
    OpensDeclaration tokens := by
  obtain ⟨_, d, hvalid, -, hsymbol, rfl, -, -⟩ := h
  match d, hvalid, hsymbol with
  | .node rule parts, hvalid, hsymbol =>
      obtain ⟨hmem, hrow, hparts⟩ := hvalid
      have hcategory : rule.category = .program := by simpa [Derivation.symbol] using hsymbol
      rw [symbols_of_program rule hmem hcategory] at hrow
      obtain ⟨inner, rfl⟩ := List.length_eq_one_iff.mp (by simpa using congrArg List.length hrow)
      have hinner : inner.symbol = .category .declarations := by simpa using hrow
      simpa [Derivation.tokens, Derivation.tokensOfAll] using
        inner.declarations_open hparts.1 hinner

end Grammar

namespace Text

/-- White space is not among the characters that are written. -/
theorem not_visible_of_isBlank
    {c : Char}
    (h : isBlank c = true) :
    c.toNat ≤ 32 ∨ 127 ≤ c.toNat := by
  simp only [isBlank, blankRanges, List.any_cons, List.any_nil, Bool.or_eq_true,
    Bool.and_eq_true, decide_eq_true_eq, Bool.or_false] at h
  omega

/-- What is left out at the end of a text is white space. -/
theorem trimStart_eq_trim_append
    (text : List Char) :
    ∃ blanks, trimStart text = trim text ++ blanks ∧ ∀ c ∈ blanks, isBlank c = true := by
  refine ⟨((trimStart text).reverse.takeWhile isBlank).reverse, ?_, fun c hc => ?_⟩
  · rw [trim, ← List.reverse_append, trimStart, trimStart, List.takeWhile_append_dropWhile,
      List.reverse_reverse]
  · exact List.mem_takeWhile_imp (List.mem_reverse.mp hc)

end Text

namespace Segment

theorem visible_of_isDigit
    {c : Char}
    (h : isDigit c = true) :
    33 ≤ c.toNat ∧ c.toNat ≤ 126 := by
  simp only [isDigit, Bool.and_eq_true, decide_eq_true_eq, Char.le_def, UInt32.le_iff_toNat_le] at h
  obtain ⟨hlow, hhigh⟩ := h
  exact ⟨Nat.le_trans (by decide) hlow, Nat.le_trans hhigh (by decide)⟩

theorem visible_of_isLetter
    {c : Char}
    (h : isLetter c = true) :
    33 ≤ c.toNat ∧ c.toNat ≤ 126 := by
  simp only [isLetter, Bool.and_eq_true, Bool.or_eq_true, decide_eq_true_eq, Char.le_def,
    UInt32.le_iff_toNat_le, beq_iff_eq] at h
  rcases h with (⟨hlow, hhigh⟩ | ⟨hlow, hhigh⟩) | rfl
  · exact ⟨Nat.le_trans (by decide) hlow, Nat.le_trans hhigh (by decide)⟩
  · exact ⟨Nat.le_trans (by decide) hlow, Nat.le_trans hhigh (by decide)⟩
  · decide

/-- White space starts no token and no comment. -/
theorem start_of_isBlank
    {c : Char}
    (h : Text.isBlank c = true)
    (rest : List Char) :
    start c rest = (.blank, 0) ∨ start c rest = (.stray, 0) := by
  have hvisible := Text.not_visible_of_isBlank h
  unfold start
  split
  · next hkind =>
      unfold TokenKind.ofPunctuation? at hkind
      split at hkind <;> first | exact absurd h (by decide) | cases hkind
  · next hkind =>
      unfold TokenKind.ofComparison? at hkind
      split at hkind <;> first | exact absurd h (by decide) | cases hkind
  · split
    · next hslash => exact absurd h (by rw [eq_of_beq hslash]; decide)
    · split
      · exact .inl rfl
      · split
        · next hquote => exact absurd h (by rw [eq_of_beq hquote]; decide)
        · split
          · next hdigit =>
              have := visible_of_isDigit hdigit
              omega
          · split
            · next hletter =>
                have := visible_of_isLetter hletter
                omega
            · exact .inr rfl

/-- White space without errors at the start of a text leaves the tokens and errors as they are. -/
theorem splitFrom_trimStart
    {line : Int}
    {text : List Char}
    (herrors : (splitFrom line text).filterMap error? = []) :
    ∃ line',
      (splitFrom line text).filterMap token? =
        (splitFrom line' (Text.trimStart text)).filterMap token?
        ∧ (splitFrom line' (Text.trimStart text)).filterMap error? = [] := by
  induction text generalizing line with
  | nil => exact ⟨line, rfl, herrors⟩
  | cons c rest ih =>
      cases hblank : Text.isBlank c with
      | false =>
          rw [Text.trimStart, List.dropWhile_cons_of_neg (by simp [hblank])]
          exact ⟨line, rfl, herrors⟩
      | true =>
          rw [Text.trimStart, List.dropWhile_cons_of_pos hblank]
          rcases start_of_isBlank hblank rest with hstart | hstart
          · rw [splitFrom_cons, hstart] at herrors ⊢
            have hkind : (first line c rest).kind = .blank := congrArg Prod.fst hstart
            simp only [List.filterMap_cons, token?, error?, hkind, List.drop_zero] at herrors ⊢
            exact ih herrors
          · rw [splitFrom_cons, List.filterMap_cons] at herrors
            have hkind : (first line c rest).kind = .stray := congrArg Prod.fst hstart
            simp [error?, hkind] at herrors

end Segment

/-- Behind a slash at the start of an accepted text there is another one. -/
theorem compile_opens_with_comment
    {limits : Limits}
    {source : String}
    {program : List Stmt}
    (hcompile : compile limits source = .ok program)
    {rest : List Char}
    (hslash : Text.trimStart source.toList = '/' :: rest) :
    rest.head? = some '/' := by
  obtain ⟨hscan, hparse, -, -⟩ := compile_eq_ok_iff.mp hcompile
  have hopens := Grammar.program_opens (Parse.derives_of_no_errors hparse)
  obtain ⟨line, htokens, -⟩ := @Segment.splitFrom_trimStart 1 _ hscan
  change Grammar.OpensDeclaration ((Segment.splitFrom 1 source.toList).filterMap Segment.token?)
    at hopens
  by_contra hsingle
  have hstart : Segment.start '/' rest = (.token .slash, 0) := by
    have hfalse : (rest.head? == some '/') = false := by simpa using hsingle
    change Segment.slashStart rest = _
    rw [Segment.slashStart, hfalse]
    rfl
  have hkind : (Segment.first line '/' rest).kind = .token .slash := congrArg Prod.fst hstart
  rw [htokens, hslash, Segment.splitFrom_cons, List.filterMap_cons] at hopens
  simp only [Segment.token?, hkind, Grammar.OpensDeclaration, List.head?_cons, Option.mem_def,
    Option.some.injEq, forall_eq'] at hopens
  exact absurd hopens (by decide)

/-- A comment reaches to the end of a text of a single line. -/
theorem statementsOf_comment
    {limits : Limits}
    {source : String}
    {program : List Stmt}
    (hcompile : compile limits source = .ok program)
    {rest : List Char}
    (hslashes : Text.trimStart source.toList = '/' :: '/' :: rest)
    (hline : '\n' ∉ source.toList) :
    program = [] := by
  obtain ⟨hscan, hparse, -, rfl⟩ := compile_eq_ok_iff.mp hcompile
  obtain ⟨line, htokens, -⟩ := @Segment.splitFrom_trimStart 1 _ hscan
  have hrest : ∀ c ∈ '/' :: rest, (c != '\n') = true := by
    intro c hc
    have hmem : c ∈ Text.trimStart source.toList := by
      rw [hslashes]
      exact List.mem_cons_of_mem '/' hc
    have hne : c ≠ '\n' := by
      rintro rfl
      exact hline ((List.dropWhile_sublist Text.isBlank).subset hmem)
    simpa using hne
  have hstart : Segment.start '/' ('/' :: rest) = (.comment, ('/' :: rest).length) := by
    change (SegmentKind.comment, Segment.countWhile (· != '\n') ('/' :: rest)) = _
    rw [Segment.countWhile, List.takeWhile_eq_self_iff.mpr hrest]
  have hkind : (Segment.first line '/' ('/' :: rest)).kind = .comment := congrArg Prod.fst hstart
  have hnone : (scan source).tokens = [] := by
    change (Segment.splitFrom 1 source.toList).filterMap Segment.token? = []
    rw [htokens, hslashes, Segment.splitFrom_cons, hstart, List.drop_length,
      Segment.splitFrom_nil]
    simp [Segment.token?, hkind]
  rw [statementsOf, hnone]
  rfl

end Lox
