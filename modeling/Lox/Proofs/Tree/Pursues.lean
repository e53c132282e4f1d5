import Lox.Proofs.Grammar.Complete
import Lox.Proofs.Grammar.Viable
import Lox.Proofs.Tree.Steps

/-!
# What a parser has taken can be completed

A parser follows the rules of its category, and fails only where the next symbol of a row is
missing.  So what it has taken then is the beginning of some text of the category.

**Main definition.**
* `Parser.Pursues`: a parser takes texts of a language, and when it fails, the beginning of one.

**Results.**
* `Parser.pursues_expression`: parsers of expressions pursue their category.
* `Parser.pursues_program`: so do parsers that do not recover from an error.
-/

namespace Lox

namespace Parser

open Grammar

variable {α β : Type}

/-- What has been taken is a text of the language, or of a parser that failed, the start of one. -/
def Pursued (L : Language) (s : ParseState) : EStateM.Result Abort ParseState α → Prop
  | .ok _ s' => ∃ used, s.ahead = used ++ s'.ahead ∧ L.mem used
  | .error .failed s' => ∃ used more, s.ahead = used ++ s'.ahead ∧ L.mem (used ++ more)
  | .error .tooDeep _ => True

/-- The same of all runs of a parser. -/
def Pursues (L : Language) (x : Parser α) : Prop :=
  ∀ s, Pursued L s (x s)

/-- The same of a parser that stands behind a token. -/
def PursuesBehind (t : Token) (L : Language) (x : Parser α) : Prop :=
  ∃ M : Language, Pursues M x ∧ ∀ text, M.mem text → L.mem (t :: text)

section Steps

variable {K L M : Language}

/-- A larger language is pursued as well. -/
theorem Pursues.mono {x : Parser α} (h : Pursues K x) (hKL : ∀ text, K.mem text → L.mem text) :
    Pursues L x := by
  intro s
  have hs := h s
  unfold Pursued at hs ⊢
  split at hs
  · obtain ⟨used, hused, hmem⟩ := hs
    exact ⟨used, hused, hKL _ hmem⟩
  · obtain ⟨used, more, hused, hmem⟩ := hs
    exact ⟨used, more, hused, hKL _ hmem⟩
  · trivial

/-- Nothing is taken without a parser, if the language has the empty text. -/
theorem pursues_pure {a : α} (h : L.mem []) : Pursues L (pure a : Parser α) :=
  fun _ => ⟨[], rfl, h⟩

/-- What a first parser has not finished, it can finish, and then there is a text for the second. -/
theorem Pursues.bind {x : Parser α} {f : α → Parser β}
    (hx : Pursues K x)
    (hf : ∀ a, Pursues M (f a)) :
    Pursues (K.before M) (x >>= f) := by
  intro s
  have hs := hx s
  simp only [Bind.bind, EStateM.bind]
  cases hrun : x s with
  | ok a s' =>
      rw [hrun] at hs
      obtain ⟨used, hused, hmem⟩ := hs
      have hs' := hf a s'
      dsimp only
      unfold Pursued at hs' ⊢
      split at hs'
      · obtain ⟨used', hused', hmem'⟩ := hs'
        refine ⟨used ++ used', ?_, used, used', rfl, hmem, hmem'⟩
        rw [hused, hused', List.append_assoc]
      · obtain ⟨used', more, hused', hmem'⟩ := hs'
        refine ⟨used ++ used', more, ?_, used, used' ++ more, List.append_assoc _ _ _, hmem, hmem'⟩
        rw [hused, hused', List.append_assoc]
      · trivial
  | error abort s' =>
      rw [hrun] at hs
      cases abort with
      | tooDeep => trivial
      | failed =>
          obtain ⟨used, more, hused, hmem⟩ := hs
          obtain ⟨rest, hrest⟩ := M.exists_mem
          have hjoined : used ++ (more ++ rest) = used ++ more ++ rest :=
            (List.append_assoc _ _ _).symm
          exact ⟨used, more ++ rest, hused, used ++ more, rest, hjoined, hmem, hrest⟩

/-- A parser that takes nothing more does not change what is taken. -/
theorem Pursues.ending {x : Parser α} {f : α → Parser β}
    (h : Pursues L x)
    (hf : ∀ a, Pursues .done (f a)) :
    Pursues L (x >>= f) := by
  refine (h.bind hf).mono ?_
  rintro _ ⟨first, _, rfl, hfirst, rfl⟩
  rwa [List.append_nil]

/-- What is made of the tree does not change what is taken. -/
theorem Pursues.map {x : Parser α} (h : Pursues L x) (f : α → β) : Pursues L (f <$> x) := by
  rw [map_eq_pure_bind]
  exact h.ending fun a => pursues_pure rfl

/-- A parser that fails has taken nothing, which is the start of any text. -/
theorem pursues_fail (missing : Expectation) : Pursues L (fail missing : Parser α) := by
  obtain ⟨text, htext⟩ := L.exists_mem
  exact fun s => ⟨[], text, rfl, htext⟩

theorem pursues_tooDeep : Pursues L (tooDeep : Parser α) :=
  fun _ => trivial

/-- To look at the next token takes none. -/
theorem pursues_check {kinds : List TokenKind} {f : Bool → Parser α}
    (hf : ∀ found, Pursues L (f found)) :
    Pursues L (check kinds >>= f) :=
  fun s => hf _ s

/-- A token is taken or not, and the rest pursues what is left of the language. -/
theorem pursues_accept {kinds : List TokenKind} {f : Option Token → Parser α}
    (hnone : Pursues L (f none))
    (hsome : ∀ t : Token, t.kind ∈ kinds → PursuesBehind t L (f (some t))) :
    Pursues L (accept kinds >>= f) := by
  rintro ⟨ahead, errors⟩
  rcases stops_or_cons kinds ahead with hstops | ⟨t, rest, rfl, hkind⟩
  · rw [bind_eq_of_ok (accept_stops hstops)]
    exact hnone _
  · obtain ⟨M, hM, hML⟩ := hsome t hkind
    have hs := hM ⟨rest, errors⟩
    rw [bind_eq_of_ok (accept_cons hkind)]
    unfold Pursued at hs ⊢
    split at hs
    · obtain ⟨used, hused, hmem⟩ := hs
      exact ⟨t :: used, congrArg (t :: ·) hused, hML _ hmem⟩
    · obtain ⟨used, more, hused, hmem⟩ := hs
      exact ⟨t :: used, more, congrArg (t :: ·) hused, hML _ hmem⟩
    · trivial

/-- A bound on the rounds does not change what is taken. -/
theorem pursues_bounded {parser : List Token → Parser α} (h : ∀ bound, Pursues L (parser bound)) :
    Pursues L (bounded parser) :=
  fun s => h s.ahead s

/-- A token that is missing can be put there. -/
theorem pursues_token {kind : TokenKind} {missing : Expectation} :
    Pursues (.of (.terminal kind)) (Steps.expect kind missing : Parser Token) := by
  refine pursues_accept (pursues_fail missing) fun t ht => ?_
  refine ⟨.done, pursues_pure rfl, ?_⟩
  rintro _ rfl
  exact ⟨t, List.mem_singleton.mp ht, rfl⟩

/-- At the end of a row nothing is left to be taken. -/
theorem pursues_done {a : α} : Pursues (.row []) (pure a : Parser α) :=
  pursues_pure rfl

/-- Nothing more, or a token and then the rest of a row. -/
theorem pursues_optional {kind : TokenKind} {row : List Symbol} {f : Option Token → Parser α}
    (hnone : Pursues (.row []) (f none))
    (hsome : ∀ t, Pursues (.row row) (f (some t))) :
    Pursues (Language.or (.row []) (.row (.terminal kind :: row)))
      (Steps.accept [kind] >>= f) := by
  refine pursues_accept (hnone.mono fun _ => .inl) fun t ht => ⟨_, hsome t, fun text hmem => ?_⟩
  exact .inr ⟨[t], text, rfl, ⟨t, List.mem_singleton.mp ht, rfl⟩, hmem⟩

/-- A parser of the first symbol of a row, and then one of the others. -/
theorem Pursues.followed {x : Parser α} {f : α → Parser β} {symbol : Symbol} {row : List Symbol}
    (hx : Pursues (.of symbol) x)
    (hf : ∀ a, Pursues (.row row) (f a)) :
    Pursues (.row (symbol :: row)) (x >>= f) :=
  hx.bind hf

end Steps

section Loops

variable {L : Language}

/-- If texts of a language can be joined, then a loop whose rounds pursue it pursues it. -/
theorem pursues_repeatOnto {kinds : List TokenKind} {step : Token → α → Parser α}
    (hnil : L.mem [])
    (happend : ∀ u v, L.mem u → L.mem v → L.mem (u ++ v))
    (hstep : ∀ (t : Token) (v : α), t.kind ∈ kinds → PursuesBehind t L (step t v))
    (bound : List Token)
    (v : α) :
    Pursues L (repeatOnto kinds step bound v) := by
  induction bound generalizing v with
  | nil => exact pursues_pure hnil
  | cons t bound ih =>
      refine pursues_accept (pursues_pure hnil) fun u hu => ?_
      obtain ⟨M, hM, hML⟩ := hstep u v hu
      refine ⟨M.before L, hM.bind ih, ?_⟩
      rintro _ ⟨first, rest, rfl, hfirst, hrest⟩
      exact happend (u :: first) rest (hML first hfirst) hrest

theorem pursues_repeating {kinds : List TokenKind} {step : Token → α → Parser α} {c : Category}
    (hstep : ∀ (t : Token) (v : α), t.kind ∈ kinds → PursuesBehind t (.continuing c) (step t v))
    (v : α) :
    Pursues (.continuing c) (Steps.repeating kinds step v) :=
  pursues_bounded fun bound => pursues_repeatOnto (Language.continuing_nil c)
    (fun _ _ => Language.continuing_append) hstep bound v

/-- Items up to a closing token continue each other. -/
theorem pursues_upTo {item : Parser (Option α)} {c : Category}
    (hitem : Pursues (.continuing c) item)
    (closing : List TokenKind) :
    Pursues (.continuing c) (upTo closing item) := by
  suffices hcollect : ∀ (bound : List Token) (found : List α),
      Pursues (.continuing c) (collectUpTo closing item bound found) from
    pursues_bounded fun bound => hcollect bound []
  intro bound
  induction bound with
  | nil => exact fun found => pursues_pure (Language.continuing_nil c)
  | cons t bound ih =>
      rintro found ⟨ahead, errors⟩
      rcases ends_or_goesOn closing ahead with hends | ⟨u, rest, rfl, hkind⟩
      · rw [collectUpTo_ends hends]
        exact ⟨[], rfl, Language.continuing_nil c⟩
      · rw [collectUpTo_goesOn hkind]
        refine (hitem.bind fun x => ih (x.toList ++ found)).mono ?_ _
        rintro _ ⟨first, rest, rfl, hfirst, hrest⟩
        exact Language.continuing_append hfirst hrest

end Loops

section Rules

variable {c inner : Category} {m : Meaning} {row : List Symbol} {x : Parser α}

/-- A parser of the row of a rule pursues its category. -/
theorem Pursues.of_rule
    (h : Pursues (.row row) x)
    (hrule : ⟨c, m, row⟩ ∈ rules) :
    Pursues (.of (.category c)) x :=
  h.mono fun _ hmem => .of_rule hrule (Language.mem_row.mp hmem)

/-- A parser of the only symbol of a rule pursues its category. -/
theorem Pursues.alone
    {symbol : Symbol}
    (h : Pursues (.of symbol) x)
    (hrule : ⟨c, m, [symbol]⟩ ∈ rules) :
    Pursues (.of (.category c)) x :=
  h.mono fun _ hmem => .of_rule hrule (derivesAll_single hmem)

/-- A parser of a further item continues the category of lists of them. -/
theorem Pursues.item
    {symbol : Symbol}
    (h : Pursues (.of symbol) x)
    (hrule : ⟨c, m, [.category c, symbol]⟩ ∈ rules) :
    Pursues (.continuing c) x :=
  h.mono fun _ hmem => Language.continuing_of_rule hrule (derivesAll_single hmem)

/-- Behind its first token, a parser of the rest of the row of a rule pursues the category. -/
theorem PursuesBehind.of_rule
    {t : Token}
    (h : Pursues (.row row) x)
    (hrule : ⟨c, m, .terminal t.kind :: row⟩ ∈ rules) :
    PursuesBehind t (.of (.category c)) x :=
  ⟨.row row, h, fun text hmem =>
    .of_rule hrule ⟨[t], text, rfl, ⟨t, rfl, rfl⟩, Language.mem_row.mp hmem⟩⟩

/-- What is pursued behind a token is pursued by the category above. -/
theorem PursuesBehind.alone
    {t : Token}
    (h : PursuesBehind t (.of (.category inner)) x)
    (hrule : ⟨c, m, [.category inner]⟩ ∈ rules) :
    PursuesBehind t (.of (.category c)) x := by
  obtain ⟨M, hM, hbehind⟩ := h
  exact ⟨M, hM, fun text hmem => .of_rule hrule (derivesAll_single (hbehind text hmem))⟩

/-- The same of a category that has the category of the rule as an alternative. -/
theorem PursuesBehind.of_inner_rule
    {t : Token}
    (inner : Category)
    (m : Meaning)
    (h : Pursues (.row row) x)
    (hrule : ⟨inner, m, .terminal t.kind :: row⟩ ∈ rules)
    (hsame : ⟨c, .same, [.category inner]⟩ ∈ rules) :
    PursuesBehind t (.of (.category c)) x :=
  (PursuesBehind.of_rule h hrule).alone hsame

/-- A parser of a first symbol and then of what continues its category. -/
theorem Pursues.continued
    {f : α → Parser β}
    (hx : Pursues (.of (.category c)) x)
    (hf : ∀ a, Pursues (.continuing c) (f a)) :
    Pursues (.of (.category c)) (x >>= f) := by
  refine (hx.bind hf).mono ?_
  rintro _ ⟨first, rest, rfl, hfirst, hrest⟩
  exact hrest first hfirst

/-- Behind its category and a token, a parser of the rest of the row continues the category. -/
theorem PursuesBehind.of_continuing
    {t : Token}
    (h : Pursues (.row row) x)
    (hrule : ⟨c, m, .category c :: .terminal t.kind :: row⟩ ∈ rules) :
    PursuesBehind t (.continuing c) x :=
  ⟨.row row, h, fun text hmem => Language.continuing_of_rule hrule
    ⟨[t], text, rfl, ⟨t, rfl, rfl⟩, Language.mem_row.mp hmem⟩⟩

end Rules

section Lists

/-- The rules of a category of lists with commas, and of one of such lists that may be empty. -/
structure CommaRules (outer c : Category) (item : Symbol) : Prop where
  none : ∃ m, ⟨outer, m, []⟩ ∈ rules
  some : ⟨outer, .same, [.category c]⟩ ∈ rules
  one : ∃ m, ⟨c, m, [item]⟩ ∈ rules
  more : ∃ m, ⟨c, m, [.category c, .terminal .comma, item]⟩ ∈ rules

/-- A list in parentheses is pursued with its commas. -/
theorem pursues_inParentheses
    {outer c : Category}
    {item : Symbol}
    {parser : Parser α}
    (hrules : CommaRules outer c item)
    (hitem : Pursues (.of item) parser)
    (excess : ParseFault) :
    Pursues (.of (.category outer)) (Steps.inParentheses excess parser) := by
  obtain ⟨none, hnone⟩ := hrules.none
  obtain ⟨one, hone⟩ := hrules.one
  obtain ⟨more, hmore⟩ := hrules.more
  refine pursues_check fun found => ?_
  cases found with
  | true => exact pursues_pure (.empty hnone)
  | false =>
      have hfirst : Pursues (.of (.category c)) parser :=
        hitem.alone hone
      refine (hfirst.continued fun first => ?_).alone hrules.some
      refine Pursues.map (pursues_repeating (fun comma found hcomma => ?_) _) List.reverse
      have hkind : comma.kind = .comma := List.mem_singleton.mp hcomma
      have hlast : Pursues (.row [item]) (do let x ← parser; pure (x :: found)) :=
        hitem.followed fun x => pursues_done
      refine .of_continuing (m := more) ?_ (hkind ▸ hmore)
      dsimp only
      split
      · exact fun s => hlast _
      · exact hlast

/-- The parameters of a function are pursued. -/
theorem pursues_parameters :
    Pursues (.of (.category .parameterList)) (Steps.parameters : Parser (List Token)) := by
  have hrules : CommaRules .parameterList .parameters (.terminal .identifier) :=
    ⟨⟨.noNames, by decide⟩, by decide, ⟨.oneName, by decide⟩, ⟨.moreNames, by decide⟩⟩
  exact pursues_inParentheses hrules pursues_token _

end Lists

section Expressions

variable {operand inner : Parser Expr}

/-- A chain of operators pursues the category of its level. -/
theorem pursues_joined
    (hoperand : Pursues (.of (.category .unary)) operand)
    {levels : List OperatorLevel}
    {c : Category}
    (hladder : Ladder levels c) :
    Pursues (.of (.category c)) (Steps.joined levels operand) := by
  induction hladder with
  | bottom => exact hoperand
  | @level level levels c tighter m hlevel _ _ ih =>
      have hrules : ∀ r ∈ binaryLevel c tighter m level.operators, r ∈ rules := by
        intro r hr
        rw [← hlevel.rules_eq] at hr
        exact List.mem_of_mem_filter hr
      have hsame : ⟨c, .same, [.category tighter]⟩ ∈ rules :=
        hrules _ (by simp [binaryLevel, alternatives])
      refine (ih.alone hsame).continued fun left => ?_
      refine pursues_repeating (fun operator left hoperator => ?_) left
      have hrest : Pursues (.row [.category tighter])
          (level.node left operator <$> Steps.joined levels operand) :=
        (ih.map _).mono fun _ hmem => Language.mem_row.mpr (derivesAll_single hmem)
      refine .of_continuing (m := m) hrest (hrules _ ?_)
      simp [binaryLevel, alternatives, hoperator]

variable (hinner : Pursues (.of (.category .expression)) inner)

include hinner

/-- The arguments of a call are pursued. -/
theorem pursues_arguments :
    Pursues (.of (.category .argumentList)) (Steps.inParentheses .tooManyArguments inner) := by
  have hrules : CommaRules .argumentList .arguments (.category .expression) :=
    ⟨⟨.noArguments, by decide⟩, by decide, ⟨.oneArgument, by decide⟩, ⟨.moreArguments, by decide⟩⟩
  exact pursues_inParentheses hrules hinner _

/-- An operand is pursued. -/
theorem pursues_primary : Pursues (.of (.category .primary)) (Steps.primary inner) := by
  refine pursues_accept (pursues_fail _) fun t hstarts => ?_
  have hsingle : ∀ (e : Expr) (m : Meaning), ⟨.primary, m, [.terminal t.kind]⟩ ∈ rules →
      PursuesBehind t (.of (.category .primary)) (pure e : Parser Expr) :=
    fun e m hrule => .of_rule pursues_done hrule
  dsimp only
  split
  case h_1 hkind => exact hsingle _ .constant (by rw [hkind]; decide)
  case h_2 hkind => exact hsingle _ .constant (by rw [hkind]; decide)
  case h_3 hkind => exact hsingle _ .constant (by rw [hkind]; decide)
  case h_4 hkind =>
    exact .of_rule (m := .super)
      (pursues_token.followed fun _ => pursues_token.followed fun _ => pursues_done)
      (by rw [hkind]; decide)
  case h_5 hkind => exact hsingle _ .this (by rw [hkind]; decide)
  case h_6 hkind => exact hsingle _ .read (by rw [hkind]; decide)
  case h_7 hkind =>
    exact .of_rule (m := .grouping)
      (hinner.followed fun _ => pursues_token.followed fun _ => pursues_done)
      (by rw [hkind]; decide)
  case h_8 =>
    -- of the kinds that open a primary expression, numbers and strings are left
    obtain hkind | hkind : t.kind = .number ∨ t.kind = .string := by
      simp only [Steps.primaryStarts, List.mem_cons, List.not_mem_nil, or_false] at hstarts
      tauto
    all_goals exact hsingle _ .constant (by rw [hkind]; decide)

/-- A call is pursued, with all that stands behind its callee. -/
theorem pursues_postfixed : Pursues (.of (.category .call)) (Steps.postfixed inner) := by
  refine ((pursues_primary hinner).alone (m := .same) (by decide)).continued fun object => ?_
  refine pursues_repeating (fun t object ht => ?_) object
  split
  · next hkind =>
      have hkind : t.kind = .leftParen := eq_of_beq hkind
      exact .of_continuing (m := .call)
        ((pursues_arguments hinner).followed fun _ => pursues_token.followed fun _ => pursues_done)
        (by rw [hkind]; decide)
  · next hkind =>
      have hne : t.kind ≠ .leftParen := by simpa using hkind
      have hkind : t.kind = .dot := by simpa [hne] using ht
      exact .of_continuing (m := .get) (pursues_token.followed fun _ => pursues_done)
        (by rw [hkind]; decide)

omit hinner

/-- What stands behind a token is the rest, or the token is not there. -/
theorem pursues_behind
    {L : Language}
    {x : Parser α}
    (hx : Pursues L x)
    (kind : TokenKind)
    (use : α → Option β)
    (fault : ParseFault) :
    Pursues (Language.done.or ((Language.of (.terminal kind)).before L))
      (behind kind x use fault) := by
  refine pursues_accept (pursues_pure (.inl rfl)) fun t ht => ⟨L, ?_, fun text hmem => ?_⟩
  · refine hx.ending fun a => ?_
    split
    · exact pursues_pure rfl
    · exact fun s => ⟨[], rfl, rfl⟩
  · exact .inr ⟨[t], text, rfl, ⟨t, List.mem_singleton.mp ht, rfl⟩, hmem⟩

/-- An assignment is pursued. -/
theorem pursues_assignment
    (hoperand : Pursues (.of (.category .unary)) operand)
    (hvalue : Pursues (.of (.category .assignment)) inner) :
    Pursues (.of (.category .assignment)) (Steps.assignment operand inner) := by
  have hpursues : Pursues ((Language.of (.category .logicOr)).before (Language.done.or
      ((Language.of (.terminal .equal)).before (.of (.category .assignment)))))
      (Steps.assignment operand inner) := by
    refine (pursues_joined hoperand ladder_operatorLevels).bind fun target => ?_
    refine (pursues_behind hvalue _ _ _).ending fun result => ?_
    split <;> exact pursues_pure rfl
  refine hpursues.mono ?_
  rintro _ ⟨first, rest, rfl, hfirst, rfl | ⟨equals, value, rfl, hequals, hvalue⟩⟩
  · rw [List.append_nil]
    exact Derives.same hfirst (by decide)
  · have hrow : DerivesAll [.category .logicOr, .terminal .equal, .category .assignment]
        (first ++ (equals ++ value)) :=
      ⟨first, _, rfl, hfirst, equals, value, rfl, hequals, derivesAll_single hvalue⟩
    exact .of_rule (m := .assign) (by decide) hrow

mutual

/-- An expression pursues the category of assignments. -/
theorem pursues_assigned : ∀ a : Nat,
    Pursues (.of (.category .assignment)) (Steps.expression a : Parser Expr)
  | 0 => pursues_tooDeep
  | a + 1 => pursues_assignment (pursues_unary a) (pursues_assigned a)

/-- A unary expression is pursued. -/
theorem pursues_unary : ∀ a : Nat,
    Pursues (.of (.category .unary)) (Steps.unary a : Parser Expr)
  | 0 => pursues_tooDeep
  | a + 1 => by
      have hexpression := (pursues_assigned a).alone (c := .expression) (m := .same) (by decide)
      refine pursues_accept ((pursues_postfixed hexpression).alone (m := .same) (by decide))
        fun operator hoperator => ?_
      have hoperand : Pursues (.row [.category .unary])
          (Steps.unary a >>= fun operand => pure (.unary operator operand) : Parser Expr) :=
        (pursues_unary a).followed fun _ => pursues_done
      refine .of_rule (m := .unary) hoperand ?_
      rcases (by simpa using hoperator : operator.kind = .bang ∨ operator.kind = .minus)
        with h | h <;> rw [h] <;> decide

end

/-- An expression is pursued. -/
theorem pursues_expression (a : Nat) :
    Pursues (.of (.category .expression)) (Steps.expression a : Parser Expr) :=
  (pursues_assigned a).alone (m := .same) (by decide)

end Expressions

section Statements

variable {inner : Parser Expr} (hinner : Pursues (.of (.category .expression)) inner)
variable {branch : Parser Stmt} (hbranch : Pursues (.of (.category .statement)) branch)
variable {item : Parser (Option Stmt)} (hitem : Pursues (.continuing .declarations) item)

include hitem in
/-- The declarations up to a closing token are pursued. -/
theorem pursues_declarations (closing : List TokenKind) :
    Pursues (.of (.category .declarations)) (Steps.upTo closing item) := by
  refine (pursues_upTo hitem closing).mono fun text hmem => ?_
  exact hmem [] (.empty (m := .noStatements) (by decide))

include hitem in
theorem pursues_blockBody :
    Pursues (.row [.category .declarations, .terminal .rightBrace]) (Steps.blockBody item) :=
  (pursues_declarations hitem _).followed fun _ => pursues_token.followed fun _ => pursues_done

include hitem in
/-- A function or a method is pursued. -/
theorem pursues_routine (sort : RoutineSort) :
    Pursues (.of (.category .routine)) (Steps.routine sort item) := by
  have hrow : Pursues (.row [.terminal .identifier, .terminal .leftParen, .category .parameterList,
      .terminal .rightParen, .terminal .leftBrace, .category .declarations, .terminal .rightBrace])
      (Steps.routine sort item) :=
    pursues_token.followed fun _ => pursues_token.followed fun _ =>
      pursues_parameters.followed fun _ => pursues_token.followed fun _ =>
      pursues_token.followed fun _ => (pursues_blockBody hitem).ending fun _ => pursues_done
  exact hrow.of_rule (m := .routine) (by decide)

/-- The superclass of a class is pursued, if there is one. -/
theorem pursues_superclass :
    Pursues (.of (.category .parent)) (Steps.superclass : Parser (Option Expr)) := by
  refine pursues_accept (pursues_pure (.empty (m := .noParent) (by decide))) fun t ht => ?_
  exact .of_rule (m := .parent) (pursues_token.followed fun _ => pursues_done)
    (by rw [List.mem_singleton.mp ht]; decide)

include hitem in
/-- A class is pursued behind its keyword. -/
theorem pursues_classDeclaration :
    Pursues (.row [.terminal .identifier, .category .parent, .terminal .leftBrace,
      .category .methods, .terminal .rightBrace]) (Steps.classDeclaration item) := by
  have hmethod : Pursues (.continuing .methods) (some <$> Steps.routine .method item) :=
    ((pursues_routine hitem .method).map some).item (m := .moreMethods) (by decide)
  have hmethods : Pursues (.of (.category .methods))
      (Steps.upTo [.rightBrace] (some <$> Steps.routine .method item)) :=
    (pursues_upTo hmethod _).mono fun text hmem =>
      hmem [] (.empty (m := .noMethods) (by decide))
  exact pursues_token.followed fun _ => pursues_superclass.followed fun _ =>
    pursues_token.followed fun _ => hmethods.followed fun _ =>
    pursues_token.followed fun _ => pursues_done

include hinner

theorem pursues_initializer :
    Pursues (.of (.category .initializer)) (Steps.initializer inner) := by
  refine pursues_accept (pursues_pure (.empty (m := .noExpression) (by decide)))
    fun t ht => ?_
  have hvalue : Pursues (.row [.category .expression]) (some <$> inner) :=
    hinner.followed fun _ => pursues_done
  exact .of_rule (m := .initializer) hvalue (by rw [List.mem_singleton.mp ht]; decide)

theorem pursues_variableDeclaration :
    Pursues (.row [.terminal .identifier, .category .initializer, .terminal .semicolon])
      (Steps.variableDeclaration inner) :=
  pursues_token.followed fun _ => (pursues_initializer hinner).followed fun _ =>
    pursues_token.followed fun _ => pursues_done

theorem pursues_constantDeclaration :
    Pursues (.row [.terminal .identifier, .category .initializer, .terminal .semicolon])
      (Steps.constantDeclaration inner) :=
  pursues_token.followed fun _ => (pursues_initializer hinner).followed fun _ =>
    pursues_token.followed fun _ => pursues_done

theorem pursues_expressionStatement :
    Pursues (.of (.category .exprStmt)) (Steps.expressionStatement inner) :=
  Pursues.of_rule (m := .exprStmt)
    (hinner.followed fun _ => pursues_token.followed fun _ => pursues_done) (by decide)

theorem pursues_unlessAt (closing : TokenKind) :
    Pursues (.of (.category .optionalExpression)) (Steps.unlessAt closing inner) := by
  refine pursues_check fun found => ?_
  split
  · exact pursues_pure (.empty (m := .noExpression) (by decide))
  · exact (hinner.map some).alone (m := .anExpression) (by decide)

/-- The first clause of a loop is pursued in each of its three forms. -/
theorem pursues_forInitializer :
    Pursues (.of (.category .forFirst)) (Steps.forInitializer inner) := by
  refine pursues_accept (((pursues_expressionStatement hinner).map some).alone (m := .first)
    (by decide)) fun t ht => ?_
  dsimp only
  split
  · next hkind =>
      exact .of_rule (m := .noFirst) pursues_done (by rw [eq_of_beq hkind]; decide)
  · next hkind =>
      have hne : t.kind ≠ .semicolon := by simpa using hkind
      have hvar : t.kind = .varWord := by simpa [hne] using ht
      have hdeclaration : PursuesBehind t (.of (.category .varDecl))
          (some <$> Steps.variableDeclaration inner) :=
        .of_rule (m := .varDecl) ((pursues_variableDeclaration hinner).map some)
          (by rw [hvar]; decide)
      exact hdeclaration.alone (m := .first) (by decide)

include hbranch

/-- A loop with three clauses is pursued behind its keyword. -/
theorem pursues_forStatement :
    Pursues (.row [.terminal .leftParen, .category .forFirst, .category .optionalExpression,
      .terminal .semicolon, .category .optionalExpression, .terminal .rightParen,
      .category .statement]) (Steps.forStatement inner branch) :=
  pursues_token.followed fun _ => (pursues_forInitializer hinner).followed fun _ =>
    (pursues_unlessAt hinner _).followed fun _ => pursues_token.followed fun _ =>
    (pursues_unlessAt hinner _).followed fun _ => pursues_token.followed fun _ =>
    hbranch.followed fun _ => pursues_done

/-- A conditional follows one of two rules, and which one is known at its end only. -/
theorem pursues_ifStatement
    {t : Token}
    (ht : t.kind = .ifWord) :
    PursuesBehind t (.of (.category .ifStmt)) (Steps.ifStatement inner branch) := by
  refine ⟨_, pursues_token.bind fun _ => hinner.bind fun _ => pursues_token.bind fun _ =>
    hbranch.bind fun _ => pursues_optional pursues_done fun _ =>
      hbranch.followed fun _ => pursues_done, ?_⟩
  rintro _ ⟨opening, _, rfl, hopening, condition, _, rfl, hcondition, closing, _, rfl, hclosing,
    first, rest, rfl, hfirst, hrest⟩
  have hword : Symbol.Derives (.terminal .ifWord) [t] := ⟨t, ht, rfl⟩
  have hrow : ∀ row, DerivesAll row rest →
      DerivesAll (.terminal .ifWord :: .terminal .leftParen :: .category .expression
        :: .terminal .rightParen :: .category .statement :: row)
        (t :: (opening ++ (condition ++ (closing ++ (first ++ rest))))) :=
    fun row hrow => ⟨[t], _, rfl, hword, opening, _, rfl, hopening, condition, _, rfl, hcondition,
      closing, _, rfl, hclosing, first, rest, rfl, hfirst, hrow⟩
  rcases hrest with hrest | hrest
  · exact .of_rule (m := .ifStmt) (by decide) (hrow [] hrest)
  · exact .of_rule (m := .ifElseStmt) (by decide) (hrow _ (Language.mem_row.mp hrest))

omit hbranch in
theorem pursues_printStatement :
    Pursues (.row [.category .expression, .terminal .semicolon]) (Steps.printStatement inner) :=
  hinner.followed fun _ => pursues_token.followed fun _ => pursues_done

omit hbranch in
theorem pursues_returnStatement (keyword : Token) :
    Pursues (.row [.category .optionalExpression, .terminal .semicolon])
      (Steps.returnStatement keyword inner) :=
  (pursues_unlessAt hinner _).followed fun _ => pursues_token.followed fun _ => pursues_done

theorem pursues_whileStatement :
    Pursues (.row [.terminal .leftParen, .category .expression, .terminal .rightParen,
      .category .statement]) (Steps.whileStatement inner branch) :=
  pursues_token.followed fun _ => hinner.followed fun _ => pursues_token.followed fun _ =>
    hbranch.followed fun _ => pursues_done

include hitem

/-- A statement is pursued, told by its first token. -/
theorem pursues_statementOf :
    Pursues (.of (.category .statement)) (Steps.statementOf inner branch item) := by
  refine pursues_accept ((pursues_expressionStatement hinner).alone (m := .same) (by decide))
    fun t ht => ?_
  dsimp only
  split
  case h_1 hkind =>
    exact .of_inner_rule .forStmt .forStmt (pursues_forStatement hinner hbranch)
      (by rw [hkind]; decide) (by decide)
  case h_2 hkind => exact (pursues_ifStatement hinner hbranch hkind).alone (m := .same) (by decide)
  case h_3 hkind =>
    exact .of_inner_rule .printStmt .printStmt (pursues_printStatement hinner)
      (by rw [hkind]; decide) (by decide)
  case h_4 hkind =>
    exact .of_inner_rule .returnStmt .returnStmt (pursues_returnStatement hinner t)
      (by rw [hkind]; decide) (by decide)
  case h_5 hkind =>
    exact .of_inner_rule .whileStmt .whileStmt (pursues_whileStatement hinner hbranch)
      (by rw [hkind]; decide) (by decide)
  case h_6 =>
    have hkind : t.kind = .leftBrace := by
      simp only [List.mem_cons, List.not_mem_nil, or_false] at ht
      tauto
    exact .of_inner_rule .block .block ((pursues_blockBody hitem).map _)
      (by rw [hkind]; decide) (by decide)

/-- A declaration is pursued, told by its first token. -/
theorem pursues_declarationOf :
    Pursues (.of (.category .declaration)) (Steps.declarationOf inner branch item) := by
  refine pursues_accept (hbranch.alone (m := .same) (by decide)) fun t ht => ?_
  dsimp only
  split
  case h_1 hkind =>
    exact .of_inner_rule .classDecl .classDecl (pursues_classDeclaration hitem)
      (by rw [hkind]; decide) (by decide)
  case h_2 hkind =>
    have hroutine : Pursues (.row [.category .routine])
        (Stmt.funDecl <$> Steps.routine .function item) :=
      (pursues_routine hitem .function).followed fun _ => pursues_done
    exact .of_inner_rule .funDecl .funDecl hroutine (by rw [hkind]; decide) (by decide)
  case h_3 hkind =>
    exact .of_inner_rule .constDecl .constDecl (pursues_constantDeclaration hinner)
      (by rw [hkind]; decide) (by decide)
  case h_4 =>
    have hkind : t.kind = .varWord := by
      simp only [List.mem_cons, List.not_mem_nil, or_false] at ht
      tauto
    exact .of_inner_rule .varDecl .varDecl (pursues_variableDeclaration hinner)
      (by rw [hkind]; decide) (by decide)

end Statements

mutual

theorem pursues_declaration : ∀ a : Nat,
    Pursues (.of (.category .declaration))
      (Steps.declaration Steps.strictly a : Parser (Option Stmt))
  | 0 => pursues_tooDeep
  | a + 1 => (pursues_declarationOf (pursues_expression a) (pursues_statement a)
      ((pursues_declaration a).item (m := .moreStatements) (by decide))).map some

theorem pursues_statement : ∀ a : Nat,
    Pursues (.of (.category .statement)) (Steps.statement Steps.strictly a : Parser Stmt)
  | 0 => pursues_tooDeep
  | a + 1 => pursues_statementOf (pursues_expression a) (pursues_statement a)
      ((pursues_declaration a).item (m := .moreStatements) (by decide))

end

/-- Without recovery, what has been taken of a program can be completed. -/
theorem pursues_program (a : Nat) :
    Pursues (.of (.category .program)) (Steps.program Steps.strictly a : Parser (List Stmt)) :=
  (pursues_declarations ((pursues_declaration a).item (m := .moreStatements) (by decide)) []).alone
    (m := .same) (by decide)

end Parser
end Lox
