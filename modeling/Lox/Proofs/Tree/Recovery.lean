import Lox.Proofs.Tree.Alike
import Lox.Proofs.Tree.Plain

/-!
# Independent errors

After an error the parser passes over tokens up to the end of a statement or to the start of
another.  A broken statement that is plain ends with the semicolon at which the parser goes on,
since the error is found before it is taken.  So the statements around it are parsed as if it were
not there, and its errors are those that it has alone.

**Main definitions.**
* `Parse.Broken`: a broken statement from which the parser recovers at its end.
* `Parser.Collects`: the declarations and errors that are found from some tokens on.

**Result.**
* `Parse.errors_stay_apart`: where correct texts and broken statements follow each other, the parser
  finds the statements and errors of each of them.
-/

namespace Lox

/--
A broken statement: its only semicolon is its last token, it has no braces and no `for`, no other
statement seems to start in it, and it continues no conditional.  By itself it has errors and yields
nothing.
-/
structure Parse.Broken (segment : List Token) : Prop where
  plain : Plain segment
  noStarts : ∀ t ∈ segment.tail, t.kind ∉ Parser.statementStarts
  noElse : ∀ t ∈ segment.head?, t.kind ≠ .elseWord
  noStatements : (Parse.ofTokens segment).statements = []
  someErrors : (Parse.ofTokens segment).errors ≠ []

namespace Parser

variable {α : Type}

/-- Items are found one after another up to the end, with new errors, the latest first. -/
inductive Collects (item : Parser (Option α)) : List Token → List α → List ParseError → Prop
  | nil : Collects item [] [] []
  | cons
      {ahead left : List Token} {x : Option α} {items : List α} {new newer : List ParseError}
      (hrun : ∀ errors, item ⟨ahead, errors⟩ = .ok x ⟨left, new ++ errors⟩)
      (hlength : left.length < ahead.length)
      (hrest : Collects item left items newer) :
      Collects item ahead (x.toList ++ items) (newer ++ new)

section Collecting

variable {item : Parser (Option α)}

theorem Collects.of_nil {items : List α} {new : List ParseError}
    (h : Collects item [] items new) : items = [] ∧ new = [] := by
  cases h with
  | nil => exact ⟨rfl, rfl⟩
  | cons _ hlength => exact absurd hlength (Nat.not_lt_zero _)

theorem Collects.run {ahead : List Token} {items : List α} {new : List ParseError}
    (h : Collects item ahead items new) :
    ∀ (bound : List Token) (found : List α) (errors : List ParseError),
      ahead.length ≤ bound.length →
      collectUpTo [] item bound found ⟨ahead, errors⟩ =
        .ok (found.reverse ++ items) ⟨[], new ++ errors⟩ := by
  induction h with
  | nil =>
      intro bound found errors _
      rw [collectUpTo_ends (by simp), List.append_nil, List.nil_append]
  | @cons ahead left x items new newer hrun hlength _ ih =>
      intro bound found errors hbound
      obtain ⟨u, rest, rfl⟩ := List.exists_cons_of_length_pos (Nat.zero_lt_of_lt hlength)
      obtain ⟨t, bound, rfl⟩ := List.exists_cons_of_length_pos (Nat.lt_of_lt_of_le
        (Nat.zero_lt_succ rest.length) hbound)
      simp only [List.length_cons] at hlength hbound
      rw [collectUpTo_goesOn List.not_mem_nil, bind_eq_of_ok (hrun errors), ih bound _ _ (by omega)]
      cases x <;> simp

/-- Whatever a loop finds is found one after another, whatever was found and reported before. -/
theorem collects_of_run (halike : Alike item item) (htakes : Takes item) (bound : List Token) :
    ∀ (found : List α) (ahead : List Token) (errors : List ParseError) (result : List α)
      (s' : ParseState), ahead.length ≤ bound.length →
      collectUpTo [] item bound found ⟨ahead, errors⟩ = .ok result s' →
      ∃ items new, Collects item ahead items new ∧ result = found.reverse ++ items
        ∧ s'.errors = new ++ errors := by
  induction bound with
  | nil =>
      intro found ahead errors result s' hbound hrun
      obtain rfl : ahead = [] := List.length_eq_zero_iff.mp (Nat.le_zero.mp hbound)
      cases hrun
      exact ⟨[], [], .nil, (List.append_nil _).symm, rfl⟩
  | cons t bound ih =>
      intro found ahead errors result s' hbound hrun
      cases ahead with
      | nil =>
          rw [collectUpTo_ends (by simp)] at hrun
          cases hrun
          exact ⟨[], [], .nil, (List.append_nil _).symm, rfl⟩
      | cons u rest =>
          rw [collectUpTo_goesOn List.not_mem_nil] at hrun
          simp only [Bind.bind, EStateM.bind] at hrun
          have hkept := halike.kept (u :: rest) [] [] errors errors rfl
          rw [List.append_nil] at hkept
          cases hitem : item ⟨u :: rest, errors⟩ with
          | error abort s₁ => simp [hitem] at hrun
          | ok x s₁ =>
              have htook := htakes _ x s₁ (List.cons_ne_nil u rest) hitem
              rw [hitem] at hkept hrun
              obtain hbeyond | ⟨left, new, rfl, -⟩ := hkept
              · exact absurd hbeyond (Nat.not_lt_zero _)
              · rw [List.append_nil] at hitem hrun htook
                simp only [List.length_cons] at hbound htook
                obtain ⟨items, newer, hcollects, hresult, herrors⟩ :=
                  ih _ left _ result s' (by omega) hrun
                refine ⟨x.toList ++ items, newer ++ new,
                  .cons (halike.framed hitem) (Nat.lt_succ_of_le (by omega)) hcollects, ?_, ?_⟩
                · rw [hresult]
                  cases x <;> simp
                · rw [herrors, List.append_assoc]

end Collecting

section Parses

variable {allowance : Nat} {tokens : List Token}

theorem alike_declaration (a : Nat) : Alike (declaration a) (declaration a) := by
  have halike := alike_recovering.declaration (Nat.le_refl a)
  rwa [steps_declaration] at halike

/-- A parse finds declarations one after another. -/
theorem collects_ofTokens (h : 2 * tokens.length + 4 ≤ allowance) :
    Collects (declaration allowance) tokens (Parse.ofTokens tokens).statements
      (Parse.ofTokens tokens).errors.reverse := by
  obtain ⟨statements, s, hrun, -⟩ := program_ends (s := ⟨tokens, []⟩) (a := allowance) h
  have htakes := takes_steps_declaration movesOn_recovering allowance
  rw [steps_declaration] at htakes
  obtain ⟨items, new, hcollects, hitems, hnew⟩ := collects_of_run (alike_declaration allowance)
    htakes tokens [] tokens [] statements s le_rfl hrun
  have hparse : Parse.ofTokens tokens = ⟨items, new.reverse⟩ := by
    rw [← Parse.within_eq_ofTokens h, Parse.within, hrun]
    simp [hitems, hnew]
  rw [hparse, List.reverse_reverse]
  exact hcollects

theorem Collects.ofTokens
    {items : List Stmt}
    {new : List ParseError}
    (h : Collects (declaration allowance) tokens items new)
    (hallowance : 2 * tokens.length + 4 ≤ allowance) :
    Parse.ofTokens tokens = ⟨items, new.reverse⟩ := by
  have hrun : program allowance ⟨tokens, []⟩ = .ok ([].reverse ++ items) ⟨[], new ++ []⟩ :=
    h.run tokens [] [] le_rfl
  rw [← Parse.within_eq_ofTokens hallowance, Parse.within, hrun]
  simp

end Parses

section Correct

variable {allowance : Nat} {more : List Token}

/-- A declaration without errors is the same where no `else` follows. -/
theorem declaration_append
    {ahead left : List Token}
    {x : Option Stmt}
    (hmore : EndsConditional more)
    (hrun : declaration allowance ⟨ahead, []⟩ = .ok x ⟨left, []⟩) :
    ∀ errors, declaration allowance ⟨ahead ++ more, errors⟩ = .ok x ⟨left ++ more, errors⟩ := by
  have hfollows : Follows .none more 1 (EndsConditional more) (Option.map (Stmt.relabel .none))
      (declaration allowance) (declaration allowance) := declaration_follows rfl allowance
  have hfollowed := hfollows ⟨ahead, []⟩
  rw [hrun] at hfollowed
  obtain ⟨-, hother⟩ := (hfollowed rfl).2 trivial
  have hrelabel : ∀ tokens : List Token, tokens.map (Token.relabel .none) = tokens :=
    fun tokens => List.map_id tokens
  have hstatement : Option.map (Stmt.relabel .none) x = x := by
    cases x with
    | none => rfl
    | some s => exact congrArg some s.relabel_none
  have hsame := hother fun _ => hmore
  rw [hrelabel, hrelabel, hstatement] at hsame
  change declaration allowance ⟨ahead ++ more, []⟩ = .ok x ⟨left ++ more, [] ++ []⟩ at hsame
  exact (alike_declaration allowance).framed hsame

/-- What is parsed without errors is found first where no `else` follows. -/
theorem Collects.append
    {first : List Token}
    {items items' : List Stmt}
    {errors new : List ParseError}
    (h : Collects (declaration allowance) first items errors)
    (hnone : errors = [])
    (hmore : EndsConditional more)
    (hrest : Collects (declaration allowance) more items' new) :
    Collects (declaration allowance) (first ++ more) (items ++ items') new := by
  induction h with
  | nil => exact hrest
  | @cons ahead left x items new' newer hrun hlength _ ih =>
      obtain ⟨hnewer, rfl⟩ := List.append_eq_nil_iff.mp hnone
      have hlonger : (left ++ more).length < (ahead ++ more).length := by simpa using hlength
      have hcons : Collects (declaration allowance) (ahead ++ more) (x.toList ++ (items ++ items'))
          (new ++ []) :=
        .cons (declaration_append hmore (hrun [])) hlonger (ih hnewer)
      rwa [List.append_nil, ← List.append_assoc] at hcons

end Correct

section Broken

theorem resume_semicolon (ahead : List Token) : resume .semicolon ahead = ahead := by
  cases ahead <;> rfl

/-- Tokens are passed over up to a semicolon, and the semicolon too. -/
theorem resume_skips
    {last : TokenKind}
    {skipped more : List Token}
    {semicolon : Token}
    (hlast : last ≠ .semicolon)
    (hskipped : ∀ t ∈ skipped, t.kind ≠ .semicolon ∧ t.kind ∉ statementStarts)
    (hsemicolon : semicolon.kind = .semicolon) :
    resume last (skipped ++ semicolon :: more) = more := by
  induction skipped generalizing last with
  | nil =>
      have hstarts : semicolon.kind ∉ statementStarts := by rw [hsemicolon]; decide
      rw [List.nil_append, resume, if_neg (by simp [hlast, hstarts]), hsemicolon, resume_semicolon]
  | cons t skipped ih =>
      obtain ⟨hne, hstarts⟩ := hskipped t List.mem_cons_self
      rw [List.cons_append, resume, if_neg (by simp [hlast, hstarts])]
      exact ih hne fun u hu => hskipped u (List.mem_cons_of_mem t hu)

theorem synchronize_skips
    {skipped more : List Token}
    {semicolon : Token}
    (hskipped : ∀ t ∈ skipped, t.kind ≠ .semicolon)
    (hstarts : ∀ t ∈ skipped.tail, t.kind ∉ statementStarts)
    (hsemicolon : semicolon.kind = .semicolon) :
    synchronize (skipped ++ semicolon :: more) = more := by
  cases skipped with
  | nil => rw [List.nil_append, synchronize, hsemicolon, resume_semicolon]
  | cons t skipped =>
      refine resume_skips (hskipped t List.mem_cons_self) (fun u hu => ?_) hsemicolon
      exact ⟨hskipped u (List.mem_cons_of_mem t hu), hstarts u hu⟩

variable {allowance : Nat} {segment : List Token}

/-- A parser that fails in a broken statement does so before the semicolon, whatever follows it. -/
theorem fails_in_broken
    (h : Parse.Broken segment)
    {parser : Parser Stmt}
    (halike : Alike parser parser)
    (hfinishes : Finishes parser)
    {s : ParseState}
    (hfailed : parser ⟨segment, []⟩ = .error .failed s)
    (more : List Token)
    (errors : List ParseError) :
    ∃ s', parser ⟨segment ++ more, errors⟩ = .error .failed s' ∧ synchronize s'.ahead = more
      ∧ s'.errors = s.errors ++ errors := by
  have hleft := hfinishes ⟨segment, []⟩ h.plain
  rw [hfailed] at hleft
  obtain ⟨⟨used, hused⟩, hplain⟩ := hleft
  obtain ⟨body, last, rfl, hlast, -⟩ := h.plain
  have hkept := halike.kept body [last] (last :: more) [] errors rfl
  rw [hfailed] at hkept
  obtain hbeyond | ⟨skipped, new, rfl, hother⟩ := hkept
  · exact absurd (List.length_eq_zero_iff.mp (Nat.lt_one_iff.mp hbeyond)) hplain.ne_nil
  · dsimp only at hused hplain
    -- nothing behind its first token stops the parser from passing over what is left
    have hskipped : ∀ t ∈ skipped, t.kind ≠ .semicolon := by
      obtain ⟨body', last', heq, -, hbody'⟩ := hplain
      obtain ⟨rfl, -⟩ := List.append_inj' heq rfl
      exact fun t ht hkind => hbody' t ht (by simp [hkind])
    have hstarts : ∀ t ∈ skipped.tail, t.kind ∉ statementStarts := by
      intro t ht
      have htail : t ∈ (skipped ++ [last]).tail := by
        cases skipped with
        | nil => exact absurd ht List.not_mem_nil
        | cons u skipped => exact List.mem_append_left _ ht
      refine h.noStarts t ?_
      rw [← hused]
      cases used with
      | nil => exact htail
      | cons u used => exact List.mem_append_right used (List.mem_of_mem_tail htail)
    refine ⟨⟨skipped ++ last :: more, new ++ errors⟩, ?_,
      synchronize_skips hskipped hstarts hlast, by rw [List.append_nil]⟩
    rw [List.append_assoc]
    exact hother

/-- From a broken statement, a declaration recovers behind its semicolon, with errors of its own. -/
theorem declaration_broken
    (h : Parse.Broken segment)
    {left : List Token}
    {new : List ParseError}
    (hrun : declaration allowance ⟨segment, []⟩ = .ok none ⟨left, new⟩) :
    left = [] ∧ ∀ more errors,
      declaration allowance ⟨segment ++ more, errors⟩ = .ok none ⟨more, new ++ errors⟩ := by
  cases allowance with
  | zero => cases hrun
  | succ a =>
      let parser : Parser Stmt :=
        Steps.declarationOf (Steps.expression a) (Steps.statement recovering a)
          (Steps.declaration recovering a)
      have hdeclaration : declaration (a + 1) = recovering parser := by
        rw [← steps_declaration]
        rfl
      have halike : Alike parser parser :=
        alike.declarationOf (alike.expression le_rfl) (alike_recovering.statement le_rfl)
          (alike_recovering.declaration le_rfl) (alike_recovering.taking_declaration a)
          (alike_recovering.taking_method a)
      have hfinishes : Finishes parser :=
        finishes_declarationOf (pursues_expression a) (finishes_statement a)
      rw [hdeclaration] at hrun ⊢
      obtain ⟨s, hfailed⟩ : ∃ s, parser ⟨segment, []⟩ = .error .failed s := by
        unfold recovering at hrun
        split at hrun
        · cases hrun
        · next s hfailed => exact ⟨s, hfailed⟩
        · cases hrun
      have hfails := fails_in_broken h halike hfinishes hfailed
      simp only [recovering, hfailed] at hrun
      cases hrun
      refine ⟨?_, fun more errors => ?_⟩
      · obtain ⟨s', hsame, hmore, -⟩ := hfails [] []
        rw [List.append_nil, hfailed] at hsame
        cases hsame
        exact hmore
      · obtain ⟨⟨ahead, errors'⟩, hother, hmore, herrors⟩ := hfails more errors
        dsimp only at hmore herrors
        simp only [recovering, hother, hmore, herrors]

/-- A broken statement adds its errors to those of what follows it. -/
theorem Collects.broken
    (h : Parse.Broken segment)
    (hallowance : 2 * segment.length + 4 ≤ allowance)
    {more : List Token}
    {items : List Stmt}
    {new : List ParseError}
    (hrest : Collects (declaration allowance) more items new) :
    Collects (declaration allowance) (segment ++ more) items
      (new ++ (Parse.ofTokens segment).errors.reverse) := by
  have hcollects := collects_ofTokens hallowance
  rw [h.noStatements] at hcollects
  generalize hitems : ([] : List Stmt) = found at hcollects
  generalize (Parse.ofTokens segment).errors.reverse = errors at hcollects
  cases hcollects with
  | nil => exact absurd rfl h.plain.ne_nil
  | @cons _ left x _ new' _ hrun _ hleft =>
      obtain ⟨hx, rfl⟩ := List.append_eq_nil_iff.mp hitems.symm
      obtain rfl : x = none := by simpa using hx
      have hfirst := hrun []
      rw [List.append_nil] at hfirst
      obtain ⟨rfl, hother⟩ := declaration_broken h hfirst
      obtain ⟨-, rfl⟩ := hleft.of_nil
      have hlength : more.length < (segment ++ more).length := by
        have hpos := List.length_pos_of_ne_nil h.plain.ne_nil
        rw [List.length_append]
        omega
      exact .cons (hother more) hlength hrest

end Broken

/-- Of correct texts and broken statements, statements and errors are found in their order. -/
theorem collects_flatten
    {allowance : Nat}
    (segments : List (List Token))
    (h : ∀ segment ∈ segments, (Parse.ofTokens segment).errors = [] ∨ Parse.Broken segment)
    (hallowance : ∀ segment ∈ segments, 2 * segment.length + 4 ≤ allowance) :
    Collects (declaration allowance) segments.flatten
        (segments.flatMap fun segment => (Parse.ofTokens segment).statements)
        (segments.flatMap fun segment => (Parse.ofTokens segment).errors).reverse
      ∧ EndsConditional segments.flatten := by
  induction segments with
  | nil => exact ⟨.nil, by simp [EndsConditional]⟩
  | cons segment segments ih =>
      obtain ⟨hcollects, hends⟩ := ih (fun s hs => h s (List.mem_cons_of_mem _ hs))
        fun s hs => hallowance s (List.mem_cons_of_mem _ hs)
      have hfirst := hallowance segment List.mem_cons_self
      have hhead : EndsConditional segment → EndsConditional (segment ++ segments.flatten) := by
        intro hsegment t ht
        cases segment with
        | nil => exact hends t ht
        | cons u segment => exact hsegment t ht
      rw [List.flatten_cons, List.flatMap_cons, List.flatMap_cons, List.reverse_append]
      rcases h segment List.mem_cons_self with hcorrect | hbroken
      · have hwithin : (Parse.within (2 * segment.length + 4) segment).errors = [] := hcorrect
        obtain ⟨s, hrun, hnone⟩ := Parse.within_of_errors_eq_nil hwithin
        refine ⟨?_, hhead (endsConditional_of_program hrun hnone)⟩
        rw [hcorrect, List.reverse_nil, List.append_nil]
        exact (collects_ofTokens hfirst).append (by rw [hcorrect]; rfl) hends hcollects
      · refine ⟨?_, hhead hbroken.noElse⟩
        rw [hbroken.noStatements, List.nil_append]
        exact hcollects.broken hbroken hfirst

end Parser

/--
Errors do not reach beyond their statement.  Where correct texts and broken statements follow each
other in any order, the parse finds the statements of the correct texts, and the errors that each
broken statement has by itself.
-/
theorem Parse.errors_stay_apart
    (segments : List (List Token))
    (h : ∀ segment ∈ segments, (Parse.ofTokens segment).errors = [] ∨ Parse.Broken segment) :
    Parse.ofTokens segments.flatten =
      ⟨segments.flatMap fun segment => (Parse.ofTokens segment).statements,
        segments.flatMap fun segment => (Parse.ofTokens segment).errors⟩ := by
  have hallowance : ∀ segment ∈ segments,
      2 * segment.length + 4 ≤ 2 * segments.flatten.length + 4 := by
    intro segment hsegment
    have hlength := (List.sublist_flatten_of_mem hsegment).length_le
    omega
  have hparse := (Parser.collects_flatten segments h hallowance).1.ofTokens le_rfl
  rw [List.reverse_reverse] at hparse
  exact hparse

/-- Between two prints, an expression is missing where its statement ends. -/
theorem Parse.errors_stay_apart_between_prints :
    let print (digit : String) (line : Nat) : List Token :=
      [⟨.printWord, "print", line⟩, ⟨.number, digit, line⟩, ⟨.semicolon, ";", line⟩]
    let broken : List Token := [⟨.rightParen, ")", 2⟩, ⟨.semicolon, ";", 2⟩]
    Parse.Broken broken
      ∧ Parse.ofTokens (print "1" 1 ++ broken ++ print "2" 3) =
        ⟨(Parse.ofTokens (print "1" 1)).statements ++ (Parse.ofTokens (print "2" 3)).statements,
          (Parse.ofTokens broken).errors⟩ := by
  intro print broken
  have hbroken : Parse.Broken broken :=
    { plain := ⟨[⟨.rightParen, ")", 2⟩], ⟨.semicolon, ";", 2⟩, rfl, rfl, by decide⟩
      noStarts := by decide
      noElse := by decide
      noStatements := by decide
      someErrors := by decide }
  have hfirst : (Parse.ofTokens (print "1" 1)).errors = [] := by decide
  have hlast : (Parse.ofTokens (print "2" 3)).errors = [] := by decide
  refine ⟨hbroken, ?_⟩
  have hsegments : ∀ segment ∈ [print "1" 1, broken, print "2" 3],
      (Parse.ofTokens segment).errors = [] ∨ Parse.Broken segment := by
    intro segment hsegment
    simp only [List.mem_cons, List.not_mem_nil, or_false] at hsegment
    rcases hsegment with rfl | rfl | rfl
    · exact .inl hfirst
    · exact .inr hbroken
    · exact .inl hlast
  have hparse := Parse.errors_stay_apart _ hsegments
  simpa [hbroken.noStatements, hfirst, hlast] using hparse

end Lox
