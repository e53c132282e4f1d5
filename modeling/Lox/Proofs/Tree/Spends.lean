import Lox.Proofs.Tree.Joined
import Lox.Proofs.Tree.Steps
import Mathlib.Order.Basic

/-!
# What parsers spend

A parser never gives back a token, and most parsers take at least one before they succeed.  Between
two steps of nesting of the same kind a token is taken, so a parser that has an allowance of twice
the number of tokens ahead, and a little more, does not use it up.

**Main definitions.**
* `Parser.Spends`: how many tokens a parser takes, and how many must be ahead if it nests too
  deeply.
* `Parser.Takes`: an item of a loop takes a token, if there is one.

**Results.**
* `Parser.spends_expression`, `Parser.spends_steps_statement`, `Parser.spends_steps_declaration`:
  the allowance that the tokens ahead require.
* `Parser.declaration_ends`, `Parser.program_ends`: with that allowance, a parse goes to the end,
  and a declaration takes a token also if it recovers from an error.
-/

namespace Lox
namespace Parser

variable {α β : Type} {k k₁ k₂ b c : Nat}

/--
The tokens left at the end of a run: at least `k` are taken if it succeeds, and if it nests too
deeply, then at least half of `b` tokens were ahead.
-/
def Spent (k b : Nat) (s : ParseState) : EStateM.Result Abort ParseState α → Prop
  | .ok _ s' => s'.ahead.length + k ≤ s.ahead.length
  | .error .failed s' => s'.ahead.length ≤ s.ahead.length
  | .error .tooDeep _ => b ≤ 2 * s.ahead.length

/-- The same of all runs of a parser. -/
def Spends (k b : Nat) (x : Parser α) : Prop :=
  ∀ s, Spent k b s (x s)

/-- If a token is ahead and the parser succeeds, it takes one. -/
def Takes (x : Parser α) : Prop :=
  ∀ s a s', s.ahead ≠ [] → x s = .ok a s' → s'.ahead.length < s.ahead.length

section Steps

/-- A parser that takes more or needs more takes and needs less. -/
theorem Spends.mono {x : Parser α} (h : Spends k₁ c x) (hk : k ≤ k₁) (hb : b ≤ c) :
    Spends k b x := by
  intro s
  have hs := h s
  unfold Spent at hs ⊢
  split at hs <;> omega

/-- Of the second parser, the tokens that the first has taken are no longer ahead. -/
theorem Spends.bindBehind {x : Parser α} {f : α → Parser β}
    (hx : Spends k₁ b x)
    (hf : ∀ a, Spends k₂ c (f a))
    (hb : b ≤ c + 2 * k₁) :
    Spends (k₁ + k₂) b (x >>= f) := by
  intro s
  have hs := hx s
  simp only [bind, EStateM.bind]
  cases hresult : x s with
  | error abort s' =>
      rw [hresult] at hs
      cases abort <;> exact hs
  | ok a s' =>
      rw [hresult] at hs
      have hs' := hf a s'
      dsimp only [Spent] at hs ⊢
      unfold Spent at hs'
      split at hs' <;> omega

/-- Two parsers take what each of them takes. -/
theorem Spends.bind {x : Parser α} {f : α → Parser β}
    (hx : Spends k₁ b x)
    (hf : ∀ a, Spends k₂ b (f a)) :
    Spends (k₁ + k₂) b (x >>= f) :=
  hx.bindBehind hf (Nat.le_add_right b _)

/-- A parser that takes tokens, and then one that may take none. -/
theorem Spends.before {x : Parser α} {f : α → Parser β}
    (hx : Spends k b x)
    (hf : ∀ a, Spends 0 b (f a)) :
    Spends k b (x >>= f) :=
  hx.bind hf

/-- What is known if at least one token is taken is known if none may be. -/
theorem Spends.loosen {x : Parser α} (h : Spends 1 b x) : Spends 0 b x :=
  h.mono (Nat.zero_le 1) le_rfl

/-- A parser that may take no tokens, and then one that does. -/
theorem Spends.behind {x : Parser α} {f : α → Parser β}
    (hx : Spends 0 b x)
    (hf : ∀ a, Spends k b (f a)) :
    Spends k b (x >>= f) :=
  (hx.bind hf).mono (Nat.le_add_left k 0) le_rfl

/-- Nothing is taken without a parser. -/
theorem spends_pure (a : α) : Spends 0 b (pure a : Parser α) :=
  fun _ => le_rfl

/-- What is made of the tree takes no token. -/
theorem Spends.map {x : Parser α} (h : Spends k b x) (f : α → β) : Spends k b (f <$> x) := by
  rw [map_eq_pure_bind]
  exact h.before fun a => spends_pure (f a)

/-- To look at the next token takes none. -/
theorem spends_check (kinds : List TokenKind) : Spends 0 b (check kinds) :=
  fun _ => le_rfl

/-- A parser that fails takes as many tokens as one likes. -/
theorem spends_fail (missing : Expectation) : Spends k b (fail missing : Parser α) :=
  fun _ => le_rfl

/-- A parser without allowance has nothing to take. -/
theorem spends_tooDeep : Spends k 0 (tooDeep : Parser α) :=
  fun _ => Nat.zero_le _

/-- To report an error takes no token. -/
theorem spends_report (fault : ParseFault) (found : Option Token) :
    Spends 0 b (report fault found) :=
  fun _ => le_rfl

/-- What follows a token has one token less ahead. -/
theorem spends_accept {kinds : List TokenKind} {f : Option Token → Parser α} {n : Nat}
    (hnone : Spends k b (f none))
    (hsome : ∀ t : Token, t.kind ∈ kinds → Spends n c (f (some t)))
    (hk : k ≤ n + 1)
    (hb : b ≤ c + 2) :
    Spends k b (accept kinds >>= f) := by
  rintro ⟨ahead, errors⟩
  simp only [Bind.bind, EStateM.bind]
  cases ahead with
  | nil => exact hnone _
  | cons t rest =>
      by_cases hkind : t.kind ∈ kinds
      · have hs := hsome t hkind ⟨rest, errors⟩
        simp only [accept, List.contains_iff_mem, hkind, if_true]
        have hrest : (ParseState.mk rest errors).ahead.length = rest.length := rfl
        unfold Spent at hs ⊢
        simp only [List.length_cons]
        split at hs <;> omega
      · simp only [accept, List.contains_iff_mem, hkind, if_false]
        exact hnone _

/-- A token that is expected is taken. -/
theorem spends_expect (kind : TokenKind) (missing : Expectation) :
    Spends 1 b (expect kind missing) :=
  spends_accept (n := 0) (c := b) (spends_fail missing) (fun t _ => spends_pure t) le_rfl
    (Nat.le_add_right b 2)

/-- A bound on the rounds takes no token. -/
theorem spends_bounded {parser : List Token → Parser α} (h : ∀ bound, Spends k b (parser bound)) :
    Spends k b (bounded parser) :=
  fun s => h s.ahead s

end Steps

section Loops

theorem spends_collectUpTo {closing : List TokenKind} {item : Parser (Option α)}
    (hitem : Spends 0 b item)
    (bound : List Token)
    (found : List α) :
    Spends 0 b (collectUpTo closing item bound found) := by
  induction bound generalizing found with
  | nil => exact spends_pure _
  | cons t bound ih =>
      have hend : Spends 0 b atEnd := fun _ => le_rfl
      refine hend.before fun ended => (spends_check closing).before fun closed => ?_
      split
      · exact spends_pure _
      · refine hitem.before fun x => ?_
        cases x with
        | none => exact ih found
        | some a => exact ih (a :: found)

/-- Items up to a closing token need what one of them needs. -/
theorem spends_upTo {closing : List TokenKind} {item : Parser (Option α)}
    (hitem : Spends 0 b item) :
    Spends 0 b (upTo closing item) :=
  spends_bounded fun bound => spends_collectUpTo hitem bound []

/-- Rounds behind a tree need what one of them needs behind its first token. -/
theorem spends_repeatOnto {kinds : List TokenKind} {step : Token → α → Parser α}
    (hstep : ∀ t v, Spends 0 c (step t v))
    (hb : b ≤ c + 2)
    (bound : List Token)
    (v : α) :
    Spends 0 b (repeatOnto kinds step bound v) := by
  induction bound generalizing v with
  | nil => exact spends_pure v
  | cons t bound ih =>
      refine spends_accept (n := 0) (c := b - 2) (spends_pure v) (fun t _ => ?_) (Nat.zero_le _)
        (by omega)
      exact ((hstep t v).mono le_rfl (by omega)).before fun v => (ih v).mono le_rfl (by omega)

/-- A list in parentheses needs what one of its items needs. -/
theorem spends_inParentheses {item : Parser α} (hitem : Spends 1 b item) (excess : ParseFault) :
    Spends 0 b (inParentheses excess item) := by
  refine (spends_check _).before fun found => ?_
  cases found with
  | true => exact spends_pure []
  | false =>
      refine (hitem.before fun first => spends_bounded fun bound => ?_).loosen
      have hloop := collectSeparated_eq_repeatOnto excess item bound [first]
      rw [List.length_singleton] at hloop
      rw [hloop]
      have hround : b ≤ b + 2 := Nat.le_add_right b 2
      refine Spends.map (spends_repeatOnto (c := b) (fun _ found => ?_) hround _ _) _
      have hlast : Spends 0 b (item >>= fun x => pure (x :: found)) :=
        (hitem.before fun x => spends_pure _).loosen
      dsimp only
      split
      · exact Spends.before (fun _ => le_rfl) fun next =>
          (spends_report excess next).before fun _ => hlast
      · exact hlast

end Loops

section Expressions

variable {inner operand : Parser Expr}

/-- A chain of operators takes a token, since its first operand does. -/
theorem spends_joined (hoperand : Spends 1 b operand) (levels : List OperatorLevel) :
    Spends 1 b (joined levels operand) := by
  induction levels with
  | nil => exact hoperand
  | cons level tighter ih =>
      refine ih.before fun left => spends_bounded fun bound => ?_
      rw [(chainOnto_continues level _).eq_map_repeatOnto]
      refine Spends.map (spends_repeatOnto (c := b) (fun operator left => ?_)
        (Nat.le_add_right b 2) _ _) _
      exact (ih.map _).loosen

/-- An operand takes a token. -/
theorem spends_primary (hinner : Spends 1 c inner) (hb : b ≤ c + 2) :
    Spends 1 b (primary inner) := by
  rw [← steps_primary]
  refine spends_accept (n := 0) (c := c) (spends_fail _) (fun t _ => ?_) le_rfl hb
  dsimp only
  split
  case h_4 =>
    exact ((spends_expect _ _).before fun _ => (spends_expect _ _).loosen.before
      fun _ => spends_pure _).loosen
  case h_7 =>
    exact (hinner.before fun _ => (spends_expect _ _).loosen.before
      fun _ => spends_pure _).loosen
  all_goals exact spends_pure _

/-- A call takes a token. -/
theorem spends_postfixed (hinner : Spends 1 c inner) (hb : b ≤ c + 2) :
    Spends 1 b (postfixed inner) := by
  rw [← steps_postfixed]
  refine Spends.before (by rw [steps_primary]; exact spends_primary hinner hb) fun object =>
    spends_bounded fun bound => spends_repeatOnto (c := c) (fun t object => ?_) hb _ _
  split
  · rw [steps_inParentheses]
    exact (spends_inParentheses hinner _).before fun _ =>
      (spends_expect _ _).loosen.before fun _ => spends_pure _
  · exact (spends_expect _ _).loosen.before fun _ => spends_pure _

/-- An assignment takes a token. -/
theorem spends_assignment
    (hoperand : Spends 1 b operand)
    (hvalue : Spends 1 c inner)
    (hb : b ≤ c + 2) :
    Spends 1 b (assignment operand inner) := by
  refine (spends_joined hoperand _).before fun target => ?_
  refine spends_accept (n := 1) (c := c) (spends_pure _) (fun equals _ => ?_) (Nat.zero_le _) hb
  refine hvalue.before fun v => ?_
  split
  · exact spends_pure _
  · exact (spends_report _ _).before fun _ => spends_pure _

mutual

/-- An expression takes a token, and nests only as deeply as there are tokens. -/
theorem spends_expression : ∀ a : Nat, Spends 1 (a - 1) (expression a)
  | 0 => spends_tooDeep
  | a + 1 => spends_assignment (spends_unary a) (spends_expression a) (by omega)

/-- A unary expression takes a token, and nests only as deeply as there are tokens. -/
theorem spends_unary : ∀ a : Nat, Spends 1 a (unary a)
  | 0 => spends_tooDeep
  | a + 1 => by
      refine spends_accept (n := 1) (c := a) ?_ (fun operator _ => ?_) (by omega) (by omega)
      · exact spends_postfixed (spends_expression a) (by omega)
      · exact (spends_unary a).before fun _ => spends_pure _

end

end Expressions

section Statements

variable {inner : Parser Expr} (hinner : Spends 1 b inner)
variable {branch : Parser Stmt} (hbranch : Spends 1 b branch)
variable {item : Parser (Option Stmt)} (hitem : Spends 0 b item)

/-- A token that is expected is taken, whatever follows. -/
theorem spends_expect_then
    {kind : TokenKind}
    {missing : Expectation}
    {f : Token → Parser α}
    (hf : ∀ t, Spends 0 b (f t)) :
    Spends 1 b (expect kind missing >>= f) :=
  (spends_expect kind missing).before hf

include hitem in
/-- A body takes its closing brace. -/
theorem spends_blockBody : Spends 1 b (blockBody item) :=
  (spends_upTo hitem).behind fun _ => spends_expect_then fun _ => spends_pure _

include hitem in
/-- A function takes its name. -/
theorem spends_routine (sort : RoutineSort) : Spends 1 b (routine sort item) :=
  spends_expect_then fun _ => (spends_expect_then fun _ =>
    (spends_inParentheses (spends_expect _ _) _).before fun _ => (spends_expect_then fun _ =>
      (spends_expect_then fun _ => (spends_blockBody hitem).loosen.before fun _ =>
        spends_pure _).loosen).loosen).loosen

/-- A class may have no superclass, and then nothing is taken. -/
theorem spends_superclass : Spends 0 b superclass :=
  spends_accept (n := 0) (c := b) (spends_pure _)
    (fun _ _ => (spends_expect_then fun _ => spends_pure _).loosen) (Nat.zero_le _)
    (Nat.le_add_right b 2)

include hitem in
/-- A class takes its name. -/
theorem spends_classDeclaration : Spends 1 b (classDeclaration item) :=
  spends_expect_then fun _ => spends_superclass.before fun _ => (spends_expect_then fun _ =>
    (spends_upTo ((spends_routine hitem .method).map some).loosen).before fun _ =>
      (spends_expect_then fun _ => spends_pure _).loosen).loosen

include hinner

theorem spends_initializer : Spends 0 b (initializer inner) :=
  spends_accept (n := 0) (c := b) (spends_pure _) (fun _ _ => (hinner.map some).loosen)
    (Nat.zero_le _) (Nat.le_add_right b 2)

theorem spends_variableDeclaration : Spends 1 b (variableDeclaration inner) :=
  spends_expect_then fun _ => (spends_initializer hinner).before fun _ =>
    (spends_expect_then fun _ => spends_pure _).loosen

theorem spends_constantDeclaration : Spends 1 b (constantDeclaration inner) :=
  spends_expect_then fun _ => (spends_initializer hinner).before fun _ =>
    (spends_expect_then fun _ => spends_pure _).loosen

theorem spends_expressionStatement : Spends 1 b (expressionStatement inner) :=
  hinner.before fun _ => (spends_expect_then fun _ => spends_pure _).loosen

theorem spends_unlessAt (closing : TokenKind) : Spends 0 b (unlessAt closing inner) := by
  refine (spends_check _).before fun found => ?_
  split
  · exact spends_pure _
  · exact (hinner.map some).loosen

/-- The first clause of a loop takes its semicolon. -/
theorem spends_forInitializer : Spends 1 b (forInitializer inner) := by
  refine spends_accept (n := 0) (c := b) ((spends_expressionStatement hinner).map some)
    (fun t _ => ?_) le_rfl (Nat.le_add_right b 2)
  dsimp only
  split
  · exact spends_pure _
  · exact ((spends_variableDeclaration hinner).map some).loosen

theorem spends_printStatement : Spends 1 b (printStatement inner) :=
  hinner.before fun _ => (spends_expect_then fun _ => spends_pure _).loosen

theorem spends_returnStatement (keyword : Token) : Spends 1 b (returnStatement keyword inner) :=
  (spends_unlessAt hinner _).behind fun _ => spends_expect_then fun _ => spends_pure _

include hbranch

/-- A loop takes a parenthesis. -/
theorem spends_forStatement : Spends 1 b (forStatement inner branch) :=
  spends_expect_then fun _ => (spends_forInitializer hinner).loosen.before fun _ =>
    (spends_unlessAt hinner _).before fun _ => (spends_expect_then fun _ =>
      (spends_unlessAt hinner _).before fun _ => (spends_expect_then fun _ =>
        hbranch.loosen.before fun _ => spends_pure _).loosen).loosen

/-- A conditional takes a parenthesis. -/
theorem spends_ifStatement : Spends 1 b (ifStatement inner branch) := by
  refine spends_expect_then fun _ => hinner.loosen.before fun _ => (spends_expect_then fun _ =>
    hbranch.loosen.before fun _ => ?_).loosen
  exact spends_accept (n := 0) (c := b) (spends_pure _)
    (fun _ _ => hbranch.loosen.before fun _ => spends_pure _) (Nat.zero_le _)
    (Nat.le_add_right b 2)

/-- A loop without clauses takes a parenthesis. -/
theorem spends_whileStatement : Spends 1 b (whileStatement inner branch) :=
  spends_expect_then fun _ => hinner.loosen.before fun _ => (spends_expect_then fun _ =>
    hbranch.loosen.before fun _ => spends_pure _).loosen

omit hbranch hinner

/-- All but an expression stands behind a token. -/
theorem spends_statementOf
    (hinner : Spends 1 c inner)
    (hbranch : Spends 1 (c - 2) branch)
    (hitem : Spends 0 (c - 2) item) :
    Spends 1 c (statementOf inner branch item) := by
  have hbehind : Spends 1 (c - 2) inner := hinner.mono le_rfl (Nat.sub_le c 2)
  refine spends_accept (n := 1) (c := c - 2) (spends_expressionStatement hinner) (fun t _ => ?_)
    (by omega) (by omega)
  dsimp only
  split
  · exact spends_forStatement hbehind hbranch
  · exact spends_ifStatement hbehind hbranch
  · exact spends_printStatement hbehind
  · exact spends_returnStatement hbehind t
  · exact spends_whileStatement hbehind hbranch
  · exact (spends_blockBody hitem).map _

/-- All but a statement stands behind a token. -/
theorem spends_declarationOf
    (hinner : Spends 1 (c - 2) inner)
    (hbranch : Spends 1 c branch)
    (hitem : Spends 0 (c - 2) item) :
    Spends 1 c (declarationOf inner branch item) := by
  refine spends_accept (n := 1) (c := c - 2) hbranch (fun t _ => ?_) (by omega) (by omega)
  dsimp only
  split
  · exact spends_classDeclaration hitem
  · exact (spends_routine hitem .function).map _
  · exact spends_constantDeclaration hinner
  · exact spends_variableDeclaration hinner

end Statements

section Recovery

/-- What is skipped to resume is not read again. -/
theorem length_resume_le (last : TokenKind) (ahead : List Token) :
    (resume last ahead).length ≤ ahead.length := by
  induction ahead generalizing last with
  | nil => exact le_rfl
  | cons t rest ih =>
      rw [resume]
      split
      · exact le_rfl
      · exact Nat.le_succ_of_le (ih t.kind)

/-- A recovery skips a token, if there is one. -/
theorem length_synchronize_le (ahead : List Token) :
    (synchronize ahead).length ≤ ahead.length - 1 := by
  cases ahead with
  | nil => exact le_rfl
  | cons t rest => exact length_resume_le t.kind rest

/-- A way to recover that takes a token in any case, if there is one. -/
def MovesOn (recover : Parser Stmt → Parser (Option Stmt)) : Prop :=
  ∀ x b, Spends 1 b x → Spends 0 b (recover x) ∧ Takes (recover x)

/-- A parser that recovers from errors moves on. -/
theorem movesOn_recovering : MovesOn recovering := by
  intro x b hx
  -- what is left after an error is synchronized, which takes a token if one is left
  have hrun : ∀ s, Spent 0 b s (recovering x s)
      ∧ (s.ahead ≠ [] → ∀ a s', recovering x s = .ok a s' →
        s'.ahead.length < s.ahead.length) := by
    intro s
    have hs := hx s
    unfold recovering
    cases hresult : x s with
    | ok a s' =>
        rw [hresult] at hs
        refine ⟨Nat.le_of_succ_le hs, fun _ _ _ h => ?_⟩
        cases h
        exact hs
    | error abort s' =>
        rw [hresult] at hs
        cases abort with
        | tooDeep => exact ⟨hs, fun _ _ _ h => nomatch h⟩
        | failed =>
            have hleft := length_synchronize_le s'.ahead
            dsimp only [Spent] at hs ⊢
            refine ⟨by omega, fun hne _ _ h => ?_⟩
            cases h
            have hpos := List.length_pos_of_ne_nil hne
            dsimp only
            omega
  exact ⟨fun s => (hrun s).1, fun s a s' hne h => (hrun s).2 hne a s' h⟩

/-- A parser that stops at the first error moves on. -/
theorem movesOn_strictly : MovesOn Steps.strictly := by
  refine fun x b hx => ⟨(hx.map some).loosen, fun s a s' hne hrun => ?_⟩
  have hs := hx.map some s
  rw [Steps.strictly] at hrun
  rw [hrun] at hs
  exact Nat.lt_of_succ_le hs

variable {recover : Parser Stmt → Parser (Option Stmt)}

mutual

/-- A declaration nests only as deeply as there are tokens. -/
theorem spends_steps_declaration (hrecover : MovesOn recover) :
    ∀ a : Nat, Spends 0 (a - 3) (Steps.declaration recover a)
  | 0 => spends_tooDeep
  | a + 1 => by
      rw [Steps.declaration, steps_declarationOf, steps_expression]
      have hinner : Spends 1 (a - 2 - 2) (expression a) :=
        (spends_expression a).mono le_rfl (by omega)
      have hitem : Spends 0 (a - 2 - 2) (Steps.declaration recover a) :=
        (spends_steps_declaration hrecover a).mono le_rfl (by omega)
      exact (hrecover _ _ (spends_declarationOf hinner (spends_steps_statement hrecover a) hitem)).1

/-- A statement takes a token, and nests only as deeply as there are tokens. -/
theorem spends_steps_statement (hrecover : MovesOn recover) :
    ∀ a : Nat, Spends 1 (a - 2) (Steps.statement recover a)
  | 0 => spends_tooDeep
  | a + 1 => by
      rw [Steps.statement, steps_statementOf, steps_expression]
      refine spends_statementOf (c := a - 1) (spends_expression a) ?_ ?_
      · exact (spends_steps_statement hrecover a).mono le_rfl (by omega)
      · exact (spends_steps_declaration hrecover a).mono le_rfl (by omega)

end

variable (hrecover : MovesOn recover)

include hrecover

/-- A declaration takes a token if there is one, also where it recovers from an error. -/
theorem takes_steps_declaration : ∀ a : Nat, Takes (Steps.declaration recover a)
  | 0 => fun _ _ _ _ hrun => nomatch hrun
  | a + 1 => by
      rw [Steps.declaration, steps_declarationOf, steps_expression]
      refine (hrecover _ 0 (spends_declarationOf ?_ ?_ ?_)).2
      · exact (spends_expression a).mono le_rfl (Nat.zero_le _)
      · exact (spends_steps_statement hrecover a).mono le_rfl (Nat.zero_le _)
      · exact (spends_steps_declaration hrecover a).mono le_rfl (Nat.zero_le _)

/-- A method takes a token. -/
theorem takes_steps_method (a : Nat) :
    Takes (some <$> Steps.routine .method (Steps.declaration recover a)) := by
  intro s f s' _ hrun
  have hs := (spends_routine (spends_steps_declaration hrecover a) .method).map some s
  rw [steps_routine] at hrun
  rw [hrun] at hs
  exact Nat.lt_of_succ_le hs

/-- A program nests only as deeply as there are tokens. -/
theorem spends_steps_program (a : Nat) : Spends 0 (a - 3) (Steps.program recover a) :=
  spends_upTo (spends_steps_declaration hrecover a)

end Recovery

section Ends

/-- Items that take tokens are collected up to the end, if no token closes them. -/
theorem Takes.upTo_atEnd
    {item : Parser (Option α)}
    (htakes : Takes item)
    {s s' : ParseState}
    {found : List α}
    (hrun : upTo [] item s = .ok found s') :
    s'.ahead = [] := by
  suffices hcollect : ∀ (bound : List Token) (before : List α) (s : ParseState),
      s.ahead.length ≤ bound.length → collectUpTo [] item bound before s = .ok found s' →
        s'.ahead = [] from
    hcollect s.ahead [] s le_rfl hrun
  intro bound
  induction bound with
  | nil =>
      rintro before s hbound hrun
      cases hrun
      exact List.length_eq_zero_iff.mp (Nat.le_zero.mp hbound)
  | cons t bound ih =>
      rintro before ⟨ahead, errors⟩ hbound hrun
      cases ahead with
      | nil =>
          cases hrun
          rfl
      | cons u rest =>
          rw [collectUpTo_goesOn List.not_mem_nil] at hrun
          simp only [bind, EStateM.bind] at hrun
          cases hitem : item ⟨u :: rest, errors⟩ with
          | error abort s₁ => simp [hitem] at hrun
          | ok x s₁ =>
              rw [hitem] at hrun
              have htook := htakes _ x s₁ (List.cons_ne_nil u rest) hitem
              simp only [List.length_cons] at hbound htook
              exact ih _ s₁ (by omega) hrun

/-- Collecting items does not fail if no item does. -/
theorem upTo_ne_failed
    {closing : List TokenKind}
    {item : Parser (Option α)}
    (hitem : ∀ s s', item s ≠ .error .failed s')
    (s s' : ParseState) :
    upTo closing item s ≠ .error .failed s' := by
  suffices hcollect : ∀ (bound : List Token) (before : List α) (s : ParseState),
      collectUpTo closing item bound before s ≠ .error .failed s' from hcollect s.ahead [] s
  intro bound
  induction bound with
  | nil => exact fun _ _ h => nomatch h
  | cons t bound ih =>
      rintro before ⟨ahead, errors⟩ hrun
      rcases ends_or_goesOn closing ahead with hends | ⟨u, rest, rfl, hkind⟩
      · rw [collectUpTo_ends hends] at hrun
        cases hrun
      · rw [collectUpTo_goesOn hkind] at hrun
        simp only [bind, EStateM.bind] at hrun
        cases hresult : item ⟨u :: rest, errors⟩ with
        | ok x s₁ =>
            rw [hresult] at hrun
            exact ih _ s₁ hrun
        | error abort s₁ =>
            rw [hresult] at hrun
            cases hrun
            exact hitem _ _ hresult

/-- A declaration recovers from every error. -/
theorem declaration_ne_failed (a : Nat) (s s' : ParseState) :
    declaration a s ≠ .error .failed s' := by
  intro hfailed
  cases a with
  | zero => cases hfailed
  | succ a =>
      rw [declaration, recovering] at hfailed
      split at hfailed <;> cases hfailed

/-- With enough allowance, a declaration ends, and takes a token if there is one. -/
theorem declaration_ends
    {a : Nat}
    {s : ParseState}
    (ha : 2 * s.ahead.length + 4 ≤ a) :
    ∃ x s', declaration a s = .ok x s' ∧ (s.ahead ≠ [] → s'.ahead.length < s.ahead.length) := by
  have hspends := spends_steps_declaration movesOn_recovering a s
  have htakes := takes_steps_declaration movesOn_recovering a s
  rw [steps_declaration] at hspends htakes
  cases hrun : declaration a s with
  | ok x s' => exact ⟨x, s', rfl, fun hne => htakes x s' hne hrun⟩
  | error abort s' =>
      cases abort with
      | failed => exact absurd hrun (declaration_ne_failed a s s')
      | tooDeep =>
          rw [hrun] at hspends
          dsimp only [Spent] at hspends
          omega

/-- With enough allowance, a parse goes to the end. -/
theorem program_ends
    {a : Nat}
    {s : ParseState}
    (ha : 2 * s.ahead.length + 4 ≤ a) :
    ∃ statements s', program a s = .ok statements s' ∧ s'.ahead = [] := by
  have hspends := spends_steps_program movesOn_recovering a s
  rw [steps_program] at hspends
  cases hrun : program a s with
  | ok statements s' =>
      have htakes := takes_steps_declaration movesOn_recovering a
      rw [steps_declaration] at htakes
      exact ⟨statements, s', rfl, htakes.upTo_atEnd hrun⟩
  | error abort s' =>
      cases abort with
      | failed => exact absurd hrun (upTo_ne_failed (declaration_ne_failed a) s s')
      | tooDeep =>
          rw [hrun] at hspends
          dsimp only [Spent] at hspends
          omega

end Ends

end Parser
end Lox
