import Lox.Proofs.Tree.Pursues

/-!
# Statements without blocks

A text is plain if its only semicolon is its last token, and it has no braces and no `for`.  A
statement takes a semicolon only at its end, if it has no block and is no `for` loop.  So a parser
that fails on a plain text has not taken the semicolon.

**Main definitions.**
* `Plain`: a text with its only semicolon at its end, without braces and without `for`.
* `Parser.Leaves`: what a parser leaves of the tokens ahead; where it fails, they are plain.

**Results.**
* `Grammar.Derives.no_semicolon`: expressions and the like have no semicolons.
* `Parser.finishes_declarationOf`: a declaration takes all of a plain text, or fails before its end.
-/

namespace Lox

/-- The only semicolon of a text is its last token, and it has no braces and no `for`. -/
def Plain (text : List Token) : Prop :=
  ∃ (body : List Token) (last : Token), text = body ++ [last] ∧ last.kind = .semicolon
    ∧ ∀ t ∈ body, t.kind ∉ [.semicolon, .leftBrace, .rightBrace, .forWord]

namespace Plain

variable {text rest : List Token} {t : Token}

theorem ne_nil (h : Plain text) : text ≠ [] := by
  obtain ⟨body, last, rfl, -⟩ := h
  simp

/-- Behind another token than a semicolon, a text stays plain. -/
theorem of_cons (h : Plain (t :: rest)) (ht : t.kind ≠ .semicolon) : Plain rest := by
  obtain ⟨body, last, heq, hlast, hbody⟩ := h
  cases body with
  | nil =>
      obtain ⟨rfl, rfl⟩ := List.cons.inj heq
      exact absurd hlast ht
  | cons u body =>
      obtain ⟨rfl, rfl⟩ := List.cons.inj heq
      exact ⟨body, last, rfl, hlast, fun v hv => hbody v (List.mem_cons_of_mem t hv)⟩

theorem of_append {used : List Token} (h : Plain (used ++ rest))
    (hused : ∀ t ∈ used, t.kind ≠ .semicolon) :
    Plain rest := by
  induction used with
  | nil => exact h
  | cons t used ih =>
      exact ih (h.of_cons (hused t List.mem_cons_self)) fun u hu =>
        hused u (List.mem_cons_of_mem t hu)

/-- Behind its semicolon, a plain text is at its end. -/
theorem eq_nil_of_semicolon (h : Plain (t :: rest)) (ht : t.kind = .semicolon) : rest = [] := by
  obtain ⟨body, last, heq, -, hbody⟩ := h
  cases body with
  | nil => exact (List.cons.inj heq).2
  | cons u body =>
      obtain ⟨rfl, -⟩ := List.cons.inj heq
      exact absurd (by simp [ht]) (hbody t List.mem_cons_self)

theorem kind_notMem (h : Plain text) (ht : t ∈ text) :
    t.kind ∉ [.leftBrace, .rightBrace, .forWord] := by
  obtain ⟨body, last, rfl, hlast, hbody⟩ := h
  rcases List.mem_append.mp ht with ht | ht
  · exact fun hkind => hbody t ht (List.mem_cons_of_mem _ hkind)
  · rw [List.mem_singleton.mp ht, hlast]
    decide

end Plain

namespace Grammar

/-- The categories of expressions, and of other parts of statements. -/
def Category.isPart : Category → Bool
  | .parent | .parameterList | .parameters | .initializer | .optionalExpression | .expression
  | .assignment | .logicOr | .logicAnd | .equality | .comparison | .term | .factor | .unary | .call
  | .argumentList | .arguments | .primary => true
  | _ => false

/-- The symbols of these parts: their categories, and all terminals but the semicolon. -/
def Symbol.isPart : Symbol → Bool
  | .terminal kind => kind != .semicolon
  | .category c => c.isPart

/-- The rules of these categories lead to such symbols only. -/
theorem rules_isPart :
    ∀ r ∈ rules, r.category.isPart = true → ∀ s ∈ r.symbols, s.isPart = true := by
  decide

mutual

theorem Derivation.no_semicolon :
    ∀ d : Derivation, d.Valid → d.symbol.isPart = true → ∀ t ∈ d.tokens, t.kind ≠ .semicolon
  | .leaf t, _, hpart => by
      simpa [Derivation.tokens, Derivation.symbol, Symbol.isPart] using hpart
  | .node rule parts, ⟨hmem, hrow, hvalid⟩, hpart => by
      refine Derivation.no_semicolonAll parts hvalid fun d hd => ?_
      exact rules_isPart rule hmem hpart d.symbol (hrow ▸ List.mem_map_of_mem hd)

theorem Derivation.no_semicolonAll :
    ∀ ds : List Derivation, ValidAll ds → (∀ d ∈ ds, d.symbol.isPart = true) →
      ∀ t ∈ tokensOfAll ds, t.kind ≠ .semicolon
  | [], _, _, t, ht => by simp [tokensOfAll] at ht
  | d :: ds, ⟨hd, hds⟩, hparts, t, ht => by
      rw [tokensOfAll, List.mem_append] at ht
      rcases ht with ht | ht
      · exact Derivation.no_semicolon d hd (hparts d List.mem_cons_self) t ht
      · exact Derivation.no_semicolonAll ds hds (fun e he => hparts e (List.mem_cons_of_mem d he))
          t ht

end

/-- Expressions and other parts of statements have no semicolons. -/
theorem Derives.no_semicolon {c : Category} {text : List Token}
    (h : Derives c text)
    (hpart : c.isPart = true) :
    ∀ t ∈ text, t.kind ≠ .semicolon := by
  obtain ⟨d, hvalid, hsymbol, rfl⟩ := h
  exact d.no_semicolon hvalid (by rwa [hsymbol])

end Grammar

namespace Parser

open Grammar

variable {α β : Type}

/-- At the end of a run, the last tokens are left, and they are plain if the run has failed. -/
def Left (Q : List Token → Prop) (s : ParseState) : EStateM.Result Abort ParseState α → Prop
  | .ok _ s' => s'.ahead <:+ s.ahead ∧ Q s'.ahead
  | .error .failed s' => s'.ahead <:+ s.ahead ∧ Plain s'.ahead
  | .error .tooDeep _ => True

/-- What a parser leaves of tokens of which something is known. -/
def Leaves (P Q : List Token → Prop) (x : Parser α) : Prop :=
  ∀ s, P s.ahead → Left Q s (x s)

/-- A parser that takes all of a plain text, or fails before the end of it. -/
abbrev Finishes (x : Parser α) : Prop :=
  Leaves Plain (· = []) x

section Steps

variable {P Q R : List Token → Prop}

theorem Left.after {s s' : ParseState} {result : EStateM.Result Abort ParseState α}
    (hsuffix : s'.ahead <:+ s.ahead)
    (h : Left Q s' result) :
    Left Q s result := by
  unfold Left at h ⊢
  split at h
  · exact ⟨h.1.trans hsuffix, h.2⟩
  · exact ⟨h.1.trans hsuffix, h.2⟩
  · trivial

theorem leaves_pure {a : α} : Leaves P P (pure a : Parser α) :=
  fun _ hs => ⟨List.suffix_rfl, hs⟩

theorem leaves_fail {missing : Expectation} : Leaves Plain Q (fail missing : Parser α) :=
  fun _ hs => ⟨List.suffix_rfl, hs⟩

theorem Leaves.bind {x : Parser α} {f : α → Parser β}
    (hx : Leaves P Q x)
    (hf : ∀ a, Leaves Q R (f a)) :
    Leaves P R (x >>= f) := by
  intro s hs
  have hleft := hx s hs
  simp only [Bind.bind, EStateM.bind]
  cases hrun : x s with
  | ok a s' =>
      rw [hrun] at hleft
      exact (hf a s' hleft.2).after hleft.1
  | error abort s' =>
      rw [hrun] at hleft
      cases abort <;> exact hleft

theorem Leaves.map {x : Parser α} (h : Leaves P Q x) (f : α → β) : Leaves P Q (f <$> x) := by
  rw [map_eq_pure_bind]
  exact h.bind fun a => leaves_pure

theorem leaves_tooDeep : Leaves P Q (tooDeep : Parser α) :=
  fun _ _ => trivial

/-- At the end, no token is taken. -/
theorem leaves_accept_atEnd {kinds : List TokenKind} {f : Option Token → Parser α}
    (hnone : Leaves (· = []) Q (f none)) :
    Leaves (· = []) Q (Steps.accept kinds >>= f) := by
  rintro ⟨ahead, errors⟩ rfl
  exact hnone ⟨[], errors⟩ rfl

/-- A token of a plain text, if it is no semicolon, leaves a plain text. -/
theorem leaves_accept {kinds : List TokenKind} {f : Option Token → Parser α}
    (hnone : Leaves Plain Q (f none))
    (hsome : ∀ t : Token, t.kind ∈ kinds → t.kind ∉ [.leftBrace, .rightBrace, .forWord] →
      Leaves Plain Q (f (some t)))
    (hkinds : .semicolon ∉ kinds) :
    Leaves Plain Q (Steps.accept kinds >>= f) := by
  rintro ⟨ahead, errors⟩ hs
  rcases stops_or_cons kinds ahead with hstops | ⟨t, rest, rfl, hkind⟩
  · have hrun : (Steps.accept kinds : Parser (Option Token)) ⟨ahead, errors⟩ =
      .ok none ⟨ahead, errors⟩ := accept_stops hstops
    rw [bind_eq_of_ok hrun]
    exact hnone _ hs
  · have hrun : (Steps.accept kinds : Parser (Option Token)) ⟨t :: rest, errors⟩ =
      .ok (some t) ⟨rest, errors⟩ := accept_cons hkind
    rw [bind_eq_of_ok hrun]
    have hleft := hsome t hkind (hs.kind_notMem List.mem_cons_self) ⟨rest, errors⟩
      (hs.of_cons fun heq => hkinds (heq ▸ hkind))
    exact hleft.after (List.suffix_cons t rest)

theorem leaves_expect {kind : TokenKind} {missing : Expectation} (hkind : kind ≠ .semicolon) :
    Leaves Plain Plain (Steps.expect kind missing : Parser Token) :=
  leaves_accept leaves_fail (fun _ _ _ => leaves_pure) (by simpa using hkind.symm)

/-- The semicolon is the end of a plain text. -/
theorem finishes_semicolon {missing : Expectation} :
    Finishes (Steps.expect .semicolon missing : Parser Token) := by
  rintro ⟨ahead, errors⟩ hs
  rcases stops_or_cons [.semicolon] ahead with hstops | ⟨t, rest, rfl, hkind⟩
  · have hrun : (Steps.expect .semicolon missing : Parser Token) ⟨ahead, errors⟩ =
        fail missing ⟨ahead, errors⟩ := bind_eq_of_ok (accept_stops hstops)
    rw [hrun]
    exact leaves_fail _ hs
  · have hrun : (Steps.expect .semicolon missing : Parser Token) ⟨t :: rest, errors⟩ =
        .ok t ⟨rest, errors⟩ := bind_eq_of_ok (accept_cons hkind)
    rw [hrun]
    exact ⟨List.suffix_cons t rest, hs.eq_nil_of_semicolon (List.mem_singleton.mp hkind)⟩

/-- There is no brace in a plain text. -/
theorem leaves_brace {missing : Expectation} {f : Token → Parser α} :
    Leaves Plain Q (Steps.expect .leftBrace missing >>= f) := by
  have hnever : Leaves Plain (fun _ => False)
      (Steps.expect .leftBrace missing : Parser Token) :=
    leaves_accept leaves_fail
      (fun t hkind hbrace => absurd (by simp [List.mem_singleton.mp hkind]) hbrace) (by decide)
  exact hnever.bind fun _ _ => False.elim

/-- A parser of a part of a statement takes no semicolon. -/
theorem Pursues.leaves {x : Parser α} {c : Category}
    (h : Pursues (.of (.category c)) x)
    (hpart : c.isPart = true) :
    Leaves Plain Plain x := by
  intro s hs
  have hpursued := h s
  cases hrun : x s with
  | ok a s' =>
      rw [hrun] at hpursued
      obtain ⟨used, hused, hmem⟩ := hpursued
      rw [hused] at hs
      exact ⟨⟨used, hused.symm⟩, hs.of_append (Derives.no_semicolon hmem hpart)⟩
  | error abort s' =>
      rw [hrun] at hpursued
      cases abort with
      | tooDeep => trivial
      | failed =>
          obtain ⟨used, more, hused, hmem⟩ := hpursued
          rw [hused] at hs
          exact ⟨⟨used, hused.symm⟩, hs.of_append fun t ht =>
            Derives.no_semicolon hmem hpart t (List.mem_append_left more ht)⟩

end Steps

section Statements

variable {inner : Parser Expr} (hinner : Pursues (.of (.category .expression)) inner)
variable {branch : Parser Stmt} (hbranch : Finishes branch)
variable {item : Parser (Option Stmt)}

theorem finishes_routine (sort : RoutineSort) : Finishes (Steps.routine sort item) :=
  (leaves_expect (by decide)).bind fun _ => (leaves_expect (by decide)).bind fun _ =>
    (pursues_parameters.leaves rfl).bind fun _ => (leaves_expect (by decide)).bind fun _ =>
    leaves_brace

theorem finishes_classDeclaration : Finishes (Steps.classDeclaration item) :=
  (leaves_expect (by decide)).bind fun _ => (pursues_superclass.leaves rfl).bind fun _ =>
    leaves_brace

include hinner

theorem finishes_variableDeclaration : Finishes (Steps.variableDeclaration inner) :=
  (leaves_expect (by decide)).bind fun _ => ((pursues_initializer hinner).leaves rfl).bind fun _ =>
    finishes_semicolon.bind fun _ => leaves_pure

theorem finishes_constantDeclaration : Finishes (Steps.constantDeclaration inner) :=
  (leaves_expect (by decide)).bind fun _ => ((pursues_initializer hinner).leaves rfl).bind fun _ =>
    finishes_semicolon.bind fun _ => leaves_pure

theorem finishes_expressionStatement : Finishes (Steps.expressionStatement inner) :=
  (hinner.leaves rfl).bind fun _ => finishes_semicolon.bind fun _ => leaves_pure

theorem finishes_printStatement : Finishes (Steps.printStatement inner) :=
  (hinner.leaves rfl).bind fun _ => finishes_semicolon.bind fun _ => leaves_pure

theorem finishes_returnStatement (keyword : Token) :
    Finishes (Steps.returnStatement keyword inner) :=
  ((pursues_unlessAt hinner _).leaves rfl).bind fun _ => finishes_semicolon.bind fun _ =>
    leaves_pure

include hbranch

theorem finishes_whileStatement : Finishes (Steps.whileStatement inner branch) :=
  (leaves_expect (by decide)).bind fun _ => (hinner.leaves rfl).bind fun _ =>
    (leaves_expect (by decide)).bind fun _ => hbranch.bind fun _ => leaves_pure

theorem finishes_ifStatement : Finishes (Steps.ifStatement inner branch) :=
  (leaves_expect (by decide)).bind fun _ => (hinner.leaves rfl).bind fun _ =>
    (leaves_expect (by decide)).bind fun _ => hbranch.bind fun _ =>
    leaves_accept_atEnd leaves_pure

theorem finishes_statementOf : Finishes (Steps.statementOf inner branch item) := by
  refine leaves_accept (finishes_expressionStatement hinner) (fun t hkind hother => ?_) (by decide)
  simp only [List.mem_cons, List.not_mem_nil, or_false, not_or] at hkind hother
  dsimp only
  split
  case h_1 hfor => exact absurd hfor hother.2.2
  case h_2 => exact finishes_ifStatement hinner hbranch
  case h_3 => exact finishes_printStatement hinner
  case h_4 => exact finishes_returnStatement hinner t
  case h_5 => exact finishes_whileStatement hinner hbranch
  case h_6 => exact absurd (by tauto) hother.1

/-- A declaration takes all of a plain text, or fails before the end of it. -/
theorem finishes_declarationOf : Finishes (Steps.declarationOf inner branch item) := by
  refine leaves_accept hbranch (fun t _ _ => ?_) (by decide)
  dsimp only
  split
  · exact finishes_classDeclaration
  · exact (finishes_routine .function).map _
  · exact finishes_constantDeclaration hinner
  · exact finishes_variableDeclaration hinner

end Statements

variable {recover : Parser Stmt → Parser (Option Stmt)}

theorem finishes_statement (a : Nat) : Finishes (Steps.statement recover a) := by
  induction a with
  | zero => exact leaves_tooDeep
  | succ a ih => exact finishes_statementOf (pursues_expression a) ih

end Parser
end Lox
