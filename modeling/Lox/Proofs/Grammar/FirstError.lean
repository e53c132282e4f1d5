import Lox.Proofs.Grammar.NearestElse
import Lox.Proofs.Tree.FirstError
import Lox.Proofs.Tree.Pursues

/-!
# The first error is at the right token

A parser that does not recover reads whatever is derived, and the tokens that it has taken before it
fails can be completed to a program.  With the next token they cannot: the parser looks no further
than that, so it would fail on the completed text as well.  By `Cursor.Text.firstMajor_cases` its
error is the first one of the parse that says that something is missing.

**Results.**
* `Parser.reads_program_strictly`: a parser that does not recover reads whatever is derived.
* `Parser.not_derives_of_failed`: when it fails, no program goes on with the next token.
* `Cursor.first_error_exact`: the first error is where the tokens are no longer the beginning of a
  program.
-/

namespace Lox
namespace Parser

open Grammar

theorem readsItems_strictly
    {n : Nat}
    {parser : Parser Stmt}
    (h : ReadsUpTo n parser .declaration .stmt EndsStmt) :
    ReadsItemsUpTo n (Steps.strictly parser) := by
  intro used phrase o hn hbuilt
  obtain ⟨tree, hphrase, hreads⟩ := h used phrase o hn hbuilt
  refine ⟨tree, hphrase, fun rest errors hrest => ?_⟩
  obtain ⟨s, new, hrun, htree⟩ := hreads rest errors hrest
  refine ⟨s, new, ?_, htree⟩
  rw [Steps.strictly, map_eq_pure_bind, bind_eq_of_ok hrun]
  rfl

mutual

theorem reads_declaration_strictly :
    ∀ allowance n, 2 * n + 1 ≤ allowance →
      ReadsItemsUpTo n (Steps.declaration Steps.strictly allowance)
  | 0, _, h => by omega
  | allowance + 1, 0, h => by
      intro used phrase o hn hbuilt
      obtain ⟨t, ts, rfl, -⟩ := hbuilt.opens rfl
      simp at hn
  | allowance + 1, n + 1, h => by
      rw [Steps.declaration, steps_declarationOf, steps_expression]
      exact readsItems_strictly <| reads_declarationOf (reads_expression allowance n (by omega))
        (reads_declaration_strictly allowance n (by omega))
        (reads_statement_strictly allowance (n + 1) (by omega))

theorem reads_statement_strictly :
    ∀ allowance n, 2 * n ≤ allowance →
      ReadsUpTo n (Steps.statement Steps.strictly allowance) .statement .stmt EndsStmt
  | _, 0, _ => readsUpTo_zero rfl
  | 0, n + 1, h => by omega
  | allowance + 1, n + 1, h => by
      rw [Steps.statement, steps_statementOf, steps_expression]
      exact reads_statementOf (reads_expression allowance n (by omega))
        (reads_statement_strictly allowance n (by omega))
        (reads_declaration_strictly allowance n (by omega))

end

/-- Without recovery, a parser goes to the end of whatever is derived. -/
theorem reads_program_strictly
    {allowance : Nat}
    {tokens : List Token}
    (h : Derives .program tokens)
    (hallowance : 2 * tokens.length + 1 ≤ allowance) :
    ∃ statements s, (Steps.program Steps.strictly allowance : Parser (List Stmt)) ⟨tokens, []⟩ =
      .ok statements s := by
  obtain ⟨phrase, o, hbuilt⟩ := h.builds
  have hrules : rules.filter (·.category == .program) = alternatives .program [.declarations] := rfl
  obtain ⟨c, hc, hdeclarations⟩ := (builds_alternatives_iff hrules).mp hbuilt
  obtain rfl := List.mem_singleton.mp hc
  obtain ⟨tree, -, hreads⟩ := reads_declarations
    (reads_declaration_strictly allowance tokens.length hallowance) [] (by decide) le_rfl
    hdeclarations
  obtain ⟨statements, new, hrun, -⟩ := hreads [] [] ⟨stops_nil _, .inl rfl⟩
  rw [List.append_nil] at hrun
  exact ⟨statements, _, hrun⟩

section Runs

variable {allowance : Nat} {tokens : List Token} {s : ParseState}

/-- Without recovery, whatever is parsed to the end is derived. -/
theorem derives_of_strictly
    {statements : List Stmt}
    (hrun : (Steps.program Steps.strictly allowance : Parser (List Stmt)) ⟨tokens, []⟩ =
      .ok statements s) :
    Derives .program tokens := by
  have hpursued := pursues_program allowance ⟨tokens, []⟩
  have hend := (takes_steps_declaration movesOn_strictly allowance).upTo_atEnd hrun
  rw [hrun] at hpursued
  obtain ⟨used, hused, hmem⟩ := hpursued
  rw [hend, List.append_nil] at hused
  obtain rfl : tokens = used := hused
  exact hmem

variable
  (hrun : (Steps.program Steps.strictly allowance : Parser (List Stmt)) ⟨tokens, []⟩ =
    .error .failed s)

include hrun

/-- What has been taken before an error can be completed. -/
theorem viable_of_failed : ∃ used, tokens = used ++ s.ahead ∧ Viable used := by
  have hpursued := pursues_program allowance ⟨tokens, []⟩
  rw [hrun] at hpursued
  obtain ⟨used, more, hused, hmem⟩ := hpursued
  exact ⟨used, hused, more, hmem⟩

/-- What has been taken cannot be completed by a text that starts with the next token. -/
theorem not_derives_of_failed
    {used rest : List Token}
    (hused : tokens = used ++ s.ahead)
    (hnext : rest.head? = s.ahead.head?) :
    ¬ Derives .program (used ++ rest) := by
  intro hderives
  -- an allowance that is enough for both texts
  obtain ⟨enough, hless, henough⟩ :
      ∃ n, allowance ≤ n ∧ 2 * (used ++ rest).length + 1 ≤ n :=
    ⟨allowance + (2 * (used ++ rest).length + 1), Nat.le_add_right _ _, Nat.le_add_left _ _⟩
  obtain ⟨statements, s', hreads⟩ := reads_program_strictly hderives henough
  have halike := alike_strictly.program hless
  have hkept := halike.kept used s.ahead rest [] [] hnext.symm
  rw [← hused, hrun, hreads] at hkept
  obtain hbeyond | ⟨left, new, -, hother⟩ := hkept
  · exact absurd hbeyond (lt_irrefl _)
  · cases hother

end Runs

end Parser

namespace Cursor

open Grammar

/--
The first error that is not a minor one is at the right token.  If there is none, the tokens are a
program, and the other way round.  If it is at the token with an index, then the tokens before it
are the beginning of a program; with that token they are the beginning of none, or if it is the
token for the end, they are no program themselves.
-/
theorem first_error_exact
    (text : Text)
    {fuel : Nat}
    (hfuel : 2 * text.tokens.length + 4 ≤ fuel) :
    ∃ statements c, parse (text.tokens ++ [text.ending]) fuel = .ok statements c
      ∧ Parse.ofTokens text.tokens = ⟨statements, (c.errors.map text.located).reverse⟩
      ∧ (firstMajor c.errors = none ↔ Derives .program text.tokens)
      ∧ ∀ e ∈ firstMajor c.errors, Viable (text.tokens.take e.place)
        ∧ (e.place < text.tokens.length ∧ ¬ Viable (text.tokens.take (e.place + 1))
          ∨ e.place = text.tokens.length ∧ ¬ Derives .program text.tokens) := by
  obtain ⟨statements, c, hparse, -, -, hsame⟩ := text.parse_eq hfuel
  refine ⟨statements, c, hparse, hsame, ?_⟩
  rcases text.firstMajor_cases hfuel hparse with
    ⟨hnone, found, s, hstrict⟩ | ⟨e, s, hsome, hplace, hahead, hstrict⟩
  · rw [hnone]
    exact ⟨iff_of_true rfl (Parser.derives_of_strictly hstrict), nofun⟩
  · obtain ⟨used, hused, hviable⟩ := Parser.viable_of_failed hstrict
    have hdead : ∀ rest : List Token, rest.head? = s.ahead.head? →
        ¬ Derives .program (used ++ rest) :=
      fun _ hnext => Parser.not_derives_of_failed hstrict hused hnext
    have hlength : used.length = e.place := by
      have hsplit := congrArg List.length hused
      rw [hahead, List.length_append, List.length_drop] at hsplit
      omega
    have htake : text.tokens.take e.place = used := by
      rw [hused, ← hlength, List.take_left]
    have hnever : ¬ Derives .program text.tokens := by
      rw [hused]
      exact hdead s.ahead rfl
    rw [hsome]
    refine ⟨iff_of_false nofun hnever, ?_⟩
    rintro _ ⟨⟩
    refine ⟨htake ▸ hviable, ?_⟩
    rcases Nat.lt_or_eq_of_le hplace with hlt | heq
    · refine .inl ⟨hlt, ?_⟩
      rintro ⟨rest, hrest⟩
      rw [List.take_add_one, htake, List.append_assoc] at hrest
      refine hdead _ ?_ hrest
      rw [hahead, List.head?_drop, List.getElem?_eq_getElem hlt]
      rfl
    · exact .inr ⟨heq, hnever⟩

/-- An assignment to no target is a minor error; then the name of a variable is missing. -/
theorem first_error_exact_variable_name :
    let text : Text := ⟨[⟨.thisWord, "this", 1⟩, ⟨.equal, "=", 1⟩, ⟨.nilWord, "nil", 1⟩,
      ⟨.semicolon, ";", 1⟩, ⟨.varWord, "var", 2⟩, ⟨.semicolon, ";", 2⟩], ⟨.endOfText, "", 2⟩,
      by decide, rfl⟩
    2 * text.tokens.length + 4 ≤ 16
      ∧ Viable (text.tokens.take 5) ∧ ¬ Viable (text.tokens.take 6)
      ∧ ¬ Derives .program text.tokens := by
  intro text
  have hfuel : 2 * text.tokens.length + 4 ≤ 16 := by decide
  obtain ⟨statements, c, hparse, -, hnone, hsome⟩ := first_error_exact text hfuel
  have hfirst : firstMajor c.errors = some ⟨.expected .variableName, 5⟩ := by
    have herrors : firstMajor (endOf (parse (text.tokens ++ [text.ending]) 16)).errors =
      some ⟨.expected .variableName, 5⟩ := by decide
    rwa [hparse] at herrors
  obtain ⟨hviable, ⟨-, hdead⟩ | ⟨hend, -⟩⟩ := hsome _ hfirst
  · refine ⟨hfuel, hviable, hdead, fun hderives => ?_⟩
    rw [hnone.mpr hderives] at hfirst
    cases hfirst
  · cases hend

end Cursor
end Lox
