import Lox.Proofs.Tree.Follows

/-!
# Parsing joined texts

A text that has been parsed without errors is parsed in the same way where another text follows it:
of the declarations, only a conditional can be continued behind its last token, and only by an
`else`, with which no text without errors begins.  The allowance for nesting is the same for both
texts and for the longer one.

**Results.**
* `Parser.expression_follows`, `Parser.declaration_follows`: expressions and declarations with more
  tokens behind them.
* `Parse.within_joined`: the statements of two texts, one behind the other.
-/

namespace Lox
namespace Parser

variable {g : Relabeling} {more : List Token}

section Expressions

variable {expression expression' operand operand' : Parser Expr}

/-- No expression goes on behind the end. -/
theorem stops_at_end
    {kinds : List TokenKind}
    (hnil : more = []) :
    ∀ t ∈ more.head?, t.kind ∉ kinds := by
  simp [hnil]

/-- A chain goes on at each operator of its level. -/
theorem chainOnto_continues (level : OperatorLevel) (operand : Parser Expr) :
    Continues (chainOnto level operand) level.operators
      (fun operator left => level.node left operator <$> operand) id where
  nil left := rfl
  cons t bound left := by
    simp only [chainOnto, map_eq_pure_bind, bind_assoc, pure_bind]
    congr 1
    funext next
    cases next <;> rfl

/-- The nodes of a level are relabeled part by part. -/
theorem relabel_level_node
    {level : OperatorLevel}
    (hlevel : level ∈ operatorLevels)
    (left : Expr)
    (operator : Token)
    (right : Expr) :
    level.node (left.relabel g) (operator.relabel g) (right.relabel g) =
      (level.node left operator right).relabel g := by
  simp only [operatorLevels, List.mem_cons, List.not_mem_nil, or_false] at hlevel
  rcases hlevel with rfl | rfl | rfl | rfl | rfl | rfl <;> rfl

/-- Chains of operators follow if their operands do. -/
theorem joined_follows
    (hoperand : Follows g more 1 (more = []) (Expr.relabel g) operand operand')
    (levels : List OperatorLevel) :
    (∀ level ∈ levels, level ∈ operatorLevels) →
      Follows g more 1 (more = []) (Expr.relabel g) (joined levels operand)
        (joined levels operand') := by
  induction levels with
  | nil => exact fun _ => hoperand
  | cons level tighter ih =>
      intro hlevels
      have htighter := ih fun l hl => hlevels l (List.mem_cons_of_mem _ hl)
      refine htighter.takeAnd fun left => ?_
      refine Continues.follows (χ := Expr.relabel g) (chainOnto_continues level _)
        (chainOnto_continues level _) (fun _ => rfl) (fun operator left _ => ?_)
          stops_at_end id left
      exact (htighter.map fun right =>
        relabel_level_node (hlevels level List.mem_cons_self) left operator right).mono
          (Nat.zero_le 1) id

/-- A list goes on at each comma, and reports an item too many. -/
theorem collectSeparated_continues {α : Type} (excess : ParseFault) (item : Parser α) :
    Continues (fun bound (v : Nat × List α) => collectSeparated excess item bound v.1 v.2) [.comma]
      (fun _ v => do
        if mostArguments ≤ v.1 then
          report excess (← peek)
        let x ← item
        pure (v.1 + 1, x :: v.2))
      (fun v => v.2.reverse) where
  nil v := rfl
  cons t bound v := by
    simp only [collectSeparated]
    congr 1
    funext next
    cases next with
    | none => rfl
    | some comma =>
        dsimp only [Option.elim]
        split <;> simp only [bind_assoc, pure_bind]

/-- Lists in parentheses follow if their items do. -/
theorem inParentheses_follows
    {α β : Type}
    {φ : α → β}
    {item : Parser α}
    {item' : Parser β}
    {E : Prop}
    (hitem : Follows g more 1 E φ item item')
    (excess : ParseFault)
    (hending : more = [] → E) :
    Follows g more 0 (more = []) (List.map φ) (inParentheses excess item)
      (inParentheses excess item') := by
  refine follows_check (k := 1) (follows_pure rfl) ?_ (fun h => absurd h Nat.one_ne_zero)
    (Nat.zero_le 1)
  refine (hitem.mono le_rfl hending).takeAnd fun first => ?_
  have hstep (v : Nat × List α) : Follows g more 0 (more = []) (Prod.map id (List.map φ))
      (do
        if mostArguments ≤ v.1 then
          report excess (← peek)
        let x ← item
        pure (v.1 + 1, x :: v.2))
      (do
        if mostArguments ≤ v.1 then
          report excess (← peek)
        let x ← item'
        pure (v.1 + 1, x :: v.2.map φ)) := by
    have hkept : Follows g more 0 (more = []) (Prod.map id (List.map φ))
        (item >>= fun x => pure (v.1 + 1, x :: v.2))
        (item' >>= fun x => pure (v.1 + 1, x :: v.2.map φ)) := by
      refine Follows.mono ((hitem.mono le_rfl hending).takeAnd fun x => ?_) (Nat.zero_le 1) id
      exact follows_pure rfl
    split
    · exact fun s => follows_report hkept excess s.ahead.head? s
    · exact hkept
  exact (collectSeparated_continues excess item).follows (collectSeparated_continues excess item')
    (fun v => (List.map_reverse).symm) (fun _ v _ => hstep v) stops_at_end id (1, [first])

/-- Operands follow if the expressions in them do. -/
theorem primary_follows
    (hlink : g.link .unresolved = .unresolved)
    (hexpression : Follows g more 1 (more = []) (Expr.relabel g) expression expression') :
    Follows g more 1 (more = []) (Expr.relabel g) (primary expression) (primary expression') := by
  refine follows_peek (fun other => follows_fail _ other) fun t rest errors => ?_
  have hsingle {e e' : Expr} (h : e' = e.relabel g) : Followed g more True 1 (more = [])
      (Expr.relabel g) (do advance; pure e') ⟨t :: rest, errors⟩
      ((do advance; pure e : Parser Expr) ⟨t :: rest, errors⟩) :=
    (follows_pure h : Follows g more 0 (more = []) (Expr.relabel g) (pure e) (pure e')).afterNext t
      rest errors
  dsimp only
  rw [Token.kind_relabel]
  cases t.kind
  case falseWord => exact hsingle rfl
  case trueWord => exact hsingle rfl
  case nilWord => exact hsingle rfl
  case number => exact hsingle rfl
  case string => exact hsingle rfl
  case thisWord => exact hsingle (by rw [Expr.relabel, hlink])
  case identifier => exact hsingle (by rw [Expr.relabel, Reference.relabel, hlink])
  case superWord =>
    have hfollows : Follows g more 1 (more = []) (Expr.relabel g)
        (do
          let _ ← expect .dot .superDot
          let method ← expect .identifier .superMethod
          pure (.super t method .unresolved))
        (do
          let _ ← expect .dot .superDot
          let method ← expect .identifier .superMethod
          pure (.super (t.relabel g) method .unresolved)) := by
      refine (follows_expect (E := more = []) _ _).andTake fun _ => ?_
      refine (follows_expect _ _).takeAnd fun method => follows_pure ?_
      rw [Expr.relabel, hlink]
    exact (hfollows.afterNext t rest errors).mono id (by omega) id
  case leftParen =>
    have hfollows : Follows g more 1 (more = []) (Expr.relabel g)
        (do
          let inner ← expression
          let _ ← expect .rightParen .groupingEnd
          pure (.grouping inner))
        (do
          let inner ← expression'
          let _ ← expect .rightParen .groupingEnd
          pure (.grouping inner)) := by
      refine hexpression.andTake fun inner => ?_
      exact (follows_expect _ _).takeAnd fun _ => follows_pure rfl
    exact (hfollows.afterNext t rest errors).mono id (by omega) id
  all_goals exact follows_fail _ _ _

/-- A call goes on at each parenthesis and at each dot. -/
theorem postfixOnto_continues (expression : Parser Expr) :
    Continues (postfixOnto expression) [.leftParen, .dot]
      (fun t object =>
        if t.kind == .leftParen then do
          let arguments ← inParentheses .tooManyArguments expression
          let closing ← expect .rightParen .argumentListEnd
          pure (.call object closing arguments)
        else
          .get object <$> expect .identifier .propertyName) id where
  nil object := rfl
  cons t bound object := by
    simp only [postfixOnto, map_eq_pure_bind]
    congr 1
    funext next
    cases next with
    | none => rfl
    | some opening =>
        dsimp only [Option.elim]
        split <;> simp only [bind_assoc, pure_bind]

/-- Calls follow if the expressions in them do. -/
theorem postfixed_follows
    (hlink : g.link .unresolved = .unresolved)
    (hexpression : Follows g more 1 (more = []) (Expr.relabel g) expression expression') :
    Follows g more 1 (more = []) (Expr.relabel g) (postfixed expression)
      (postfixed expression') := by
  refine (primary_follows hlink hexpression).takeAnd fun object => ?_
  refine Continues.follows (χ := Expr.relabel g) (postfixOnto_continues expression)
    (postfixOnto_continues expression') (fun _ => rfl) (fun t object _ => ?_) stops_at_end id object
  refine Follows.mono (n := 1) (E := more = []) ?_ (Nat.zero_le 1) id
  rw [Token.kind_relabel]
  split
  · refine (inParentheses_follows hexpression .tooManyArguments id).andTake fun arguments => ?_
    refine (follows_expect _ _).takeAnd fun closing => follows_pure ?_
    rw [Expr.relabel, Expr.relabelAll_eq_map]
  · exact (follows_expect _ _).map fun _ => rfl

/-- What can be assigned to does not depend on lines and links. -/
theorem assignment?_relabel
    (hlink : g.link .unresolved = .unresolved)
    (target value : Expr) :
    (target.relabel g).assignment? (value.relabel g) =
      (target.assignment? value).map (Expr.relabel g) := by
  cases target
  case read reference =>
    simp [Expr.relabel, Expr.assignment?, Reference.relabel, hlink]
  all_goals rfl

/-- Assignments follow if both sides do. -/
theorem assignment_follows
    (hlink : g.link .unresolved = .unresolved)
    (hoperand : Follows g more 1 (more = []) (Expr.relabel g) operand operand')
    (hexpression : Follows g more 1 (more = []) (Expr.relabel g) expression expression') :
    Follows g more 1 (more = []) (Expr.relabel g) (assignment operand expression)
      (assignment operand' expression') := by
  refine (joined_follows hoperand operatorLevels fun _ => id).takeAnd fun target => ?_
  refine follows_accept (k := 0) (follows_pure rfl) (fun _ => stops_at_end) (fun equals _ => ?_)
    (Nat.zero_le 1)
  refine Follows.mono (hexpression.takeAnd fun value => ?_) (Nat.zero_le 1) id
  rw [assignment?_relabel hlink]
  cases target.assignment? value with
  | some result => exact follows_pure rfl
  | none => exact follows_report (follows_pure rfl) _ _

mutual

/-- An expression is parsed in the same way where a token follows that cannot continue it. -/
theorem expression_follows
    (hlink : g.link .unresolved = .unresolved) :
    ∀ allowance : Nat, Follows g more 1 (more = []) (Expr.relabel g) (Parser.expression allowance)
      (Parser.expression allowance)
  | 0 => follows_tooDeep _
  | allowance + 1 => assignment_follows hlink (unary_follows hlink allowance)
      (expression_follows hlink allowance)

/-- Unary expressions follow themselves on other lines. -/
theorem unary_follows
    (hlink : g.link .unresolved = .unresolved) :
    ∀ allowance : Nat, Follows g more 1 (more = []) (Expr.relabel g) (unary allowance)
      (unary allowance)
  | 0 => follows_tooDeep _
  | allowance + 1 => by
      have hpostfixed := postfixed_follows hlink (expression_follows hlink allowance)
      rw [unary]
      refine follows_accept hpostfixed (fun h => absurd h Nat.one_ne_zero) (fun operator _ => ?_)
        (Nat.le_add_left 1 1)
      exact (unary_follows hlink allowance).takeAnd fun operand => follows_pure rfl

end

end Expressions

section Statements

variable {expression expression' : Parser Expr} {statement statement' : Parser Stmt}
variable {declaration declaration' : Parser (Option Stmt)}

/-- No further token continues a conditional. -/
def EndsConditional (more : List Token) : Prop :=
  ∀ t ∈ more.head?, t.kind ≠ .elseWord

/-- Parameters follow themselves on other lines. -/
theorem parameters_follows :
    Follows g more 0 (more = []) (List.map (Token.relabel g)) parameters parameters :=
  inParentheses_follows (follows_expect _ _) _ id

/-- Bodies follow if their declarations do. -/
theorem blockBody_follows
    {E : Prop}
    (hdeclaration : Follows g more 1 (EndsConditional more) (Option.map (Stmt.relabel g))
      declaration declaration') :
    Follows g more 1 E (List.map (Stmt.relabel g)) (blockBody declaration)
      (blockBody declaration') := by
  refine (follows_upTo (E := more = []) hdeclaration (fun h => by simp [h])
    (fun h => by simp [EndsConditional, h])).andTake fun body => ?_
  exact (follows_expect _ _).takeAnd fun _ => follows_pure rfl

/-- Functions follow if their declarations do. -/
theorem routine_follows
    {E : Prop}
    (hdeclaration : Follows g more 1 (EndsConditional more) (Option.map (Stmt.relabel g))
      declaration declaration')
    (sort : RoutineSort) :
    Follows g more 1 E (FunctionDecl.relabel g) (routine sort declaration)
      (routine sort declaration') := by
  refine (follows_expect (E := more = []) _ _).andTake fun name => ?_
  refine (follows_expect (E := more = []) _ _).andTake fun _ => ?_
  refine parameters_follows.andTake fun names => ?_
  refine (follows_expect (E := more = []) _ _).andTake fun _ => ?_
  refine (follows_expect (E := more = []) _ _).andTake fun _ => ?_
  refine (blockBody_follows hdeclaration).takeAnd fun body => follows_pure ?_
  rw [FunctionDecl.relabel, Stmt.relabelAll_eq_map]

/-- Superclasses follow themselves on other lines. -/
theorem superclass_follows (hlink : g.link .unresolved = .unresolved) :
    Follows g more 0 (more = []) (Option.map (Expr.relabel g)) superclass superclass := by
  refine follows_accept (k := 0) (follows_pure rfl) (fun _ => stops_at_end) (fun _ _ => ?_)
    (Nat.zero_le 1)
  refine Follows.mono ((follows_expect _ _).takeAnd fun name => ?_) (Nat.zero_le 1) id
  refine follows_pure ?_
  rw [Option.map_some, Expr.relabel, Reference.relabel, hlink]

/-- Classes follow if the declarations in their methods do. -/
theorem classDeclaration_follows
    {E : Prop}
    (hlink : g.link .unresolved = .unresolved)
    (hdeclaration : Follows g more 1 (EndsConditional more) (Option.map (Stmt.relabel g))
      declaration declaration') :
    Follows g more 1 E (Stmt.relabel g) (classDeclaration declaration)
      (classDeclaration declaration') := by
  have hmethod : Follows g more 1 (more = []) (Option.map (FunctionDecl.relabel g))
      (some <$> routine .method declaration) (some <$> routine .method declaration') :=
    (routine_follows hdeclaration .method).map fun _ => rfl
  refine (follows_expect (E := more = []) _ _).andTake fun name => ?_
  refine (superclass_follows hlink).andTake fun parent => ?_
  refine (follows_expect (E := more = []) _ _).andTake fun _ => ?_
  refine (follows_upTo hmethod (fun h => by simp [h]) id).andTake fun methods => ?_
  refine (follows_expect _ _).takeAnd fun _ => follows_pure ?_
  rw [Stmt.relabel, FunctionDecl.relabelAll_eq_map]

/-- Initializers follow if their expressions do. -/
theorem initializer_follows
    (hexpression : Follows g more 1 (more = []) (Expr.relabel g) expression expression') :
    Follows g more 0 (more = []) (Option.map (Expr.relabel g)) (initializer expression)
      (initializer expression') :=
  follows_accept (k := 1) (follows_pure rfl) (fun _ => stops_at_end)
    (fun _ _ => hexpression.map fun _ => rfl) (Nat.zero_le 2)

/-- Variables follow if their initializers do. -/
theorem variableDeclaration_follows
    {E : Prop}
    (hexpression : Follows g more 1 (more = []) (Expr.relabel g) expression expression') :
    Follows g more 1 E (Stmt.relabel g) (variableDeclaration expression)
      (variableDeclaration expression') := by
  refine (follows_expect (E := more = []) _ _).andTake fun name => ?_
  refine (initializer_follows hexpression).andTake fun value => ?_
  exact (follows_expect _ _).takeAnd fun _ => follows_pure rfl

/-- Constants follow if their initializers do. -/
theorem constantDeclaration_follows
    {E : Prop}
    (hexpression : Follows g more 1 (more = []) (Expr.relabel g) expression expression') :
    Follows g more 1 E (Stmt.relabel g) (constantDeclaration expression)
      (constantDeclaration expression') := by
  refine (follows_expect (E := more = []) _ _).andTake fun name => ?_
  refine (initializer_follows hexpression).andTake fun value => ?_
  exact (follows_expect _ _).takeAnd fun _ => follows_pure rfl

/-- Expression statements follow if their expressions do. -/
theorem expressionStatement_follows
    {E : Prop}
    (hexpression : Follows g more 1 (more = []) (Expr.relabel g) expression expression') :
    Follows g more 1 E (Stmt.relabel g) (expressionStatement expression)
      (expressionStatement expression') := by
  refine hexpression.andTake fun value => ?_
  exact (follows_expect _ _).takeAnd fun _ => follows_pure rfl

/-- Expressions that may be absent follow if expressions do. -/
theorem unlessAt_follows
    (hexpression : Follows g more 1 (more = []) (Expr.relabel g) expression expression')
    (closing : TokenKind) :
    Follows g more 0 (more = []) (Option.map (Expr.relabel g)) (unlessAt closing expression)
      (unlessAt closing expression') :=
  follows_check (k := 1) (follows_pure rfl) (hexpression.map fun _ => rfl)
    (fun h => absurd h Nat.one_ne_zero) (Nat.zero_le 1)

/-- The first clauses of loops follow if their expressions do. -/
theorem forInitializer_follows
    (hexpression : Follows g more 1 (more = []) (Expr.relabel g) expression expression') :
    Follows g more 1 (more = []) (Option.map (Stmt.relabel g)) (forInitializer expression)
      (forInitializer expression') := by
  have hfirst : Follows g more 1 (more = []) (Option.map (Stmt.relabel g))
      (some <$> expressionStatement expression) (some <$> expressionStatement expression') :=
    (expressionStatement_follows hexpression).map fun _ => rfl
  have hvariable : Follows g more 1 (more = []) (Option.map (Stmt.relabel g))
      (some <$> variableDeclaration expression) (some <$> variableDeclaration expression') :=
    (variableDeclaration_follows hexpression).map fun _ => rfl
  refine follows_accept (k := 0) hfirst (fun h => absurd h Nat.one_ne_zero) (fun t _ => ?_) le_rfl
  dsimp only
  rw [Token.kind_relabel]
  split
  · exact follows_pure rfl
  · exact hvariable.mono (Nat.zero_le 1) id

/-- What a loop stands for is relabeled clause by clause. -/
theorem relabel_forLoop
    (first : Option Stmt)
    (condition increment : Option Expr)
    (body : Stmt) :
    Stmt.forLoop (first.map (Stmt.relabel g)) (condition.map (Expr.relabel g))
        (increment.map (Expr.relabel g)) (body.relabel g) =
      (Stmt.forLoop first condition increment body).relabel g := by
  cases first <;> cases condition <;> cases increment <;> rfl

/-- Loops with three clauses follow if their clauses and their bodies do. -/
theorem forStatement_follows
    (hexpression : Follows g more 1 (more = []) (Expr.relabel g) expression expression')
    (hstatement : Follows g more 1 (EndsConditional more) (Stmt.relabel g) statement statement') :
    Follows g more 1 (EndsConditional more) (Stmt.relabel g) (forStatement expression statement)
      (forStatement expression' statement') := by
  refine (follows_expect (E := more = []) _ _).andTake fun _ => ?_
  refine (forInitializer_follows hexpression).andTake fun first => ?_
  refine (unlessAt_follows hexpression .semicolon).andTake fun condition => ?_
  refine (follows_expect (E := more = []) _ _).andTake fun _ => ?_
  refine (unlessAt_follows hexpression .rightParen).andTake fun increment => ?_
  refine (follows_expect (E := more = []) _ _).andTake fun _ => ?_
  exact hstatement.takeAnd fun body => follows_pure (relabel_forLoop first condition increment body)

/-- A conditional could be continued by an `else`. -/
theorem ifStatement_follows
    (hexpression : Follows g more 1 (more = []) (Expr.relabel g) expression expression')
    (hstatement : Follows g more 1 (EndsConditional more) (Stmt.relabel g) statement statement') :
    Follows g more 1 (EndsConditional more) (Stmt.relabel g) (ifStatement expression statement)
      (ifStatement expression' statement') := by
  refine (follows_expect (E := more = []) _ _).andTake fun _ => ?_
  refine hexpression.andTake fun condition => ?_
  refine (follows_expect (E := more = []) _ _).andTake fun _ => ?_
  refine hstatement.takeAnd fun thenBranch => ?_
  refine follows_accept (k := 1) (follows_pure rfl) (fun _ hends t ht => ?_) (fun _ _ => ?_)
    (Nat.zero_le 2)
  · simpa using hends t ht
  · exact hstatement.takeAnd fun elseBranch => follows_pure rfl

theorem printStatement_follows
    {E : Prop}
    (hexpression : Follows g more 1 (more = []) (Expr.relabel g) expression expression') :
    Follows g more 1 E (Stmt.relabel g) (printStatement expression)
      (printStatement expression') := by
  refine hexpression.andTake fun value => ?_
  exact (follows_expect _ _).takeAnd fun _ => follows_pure rfl

theorem returnStatement_follows
    {E : Prop}
    (hexpression : Follows g more 1 (more = []) (Expr.relabel g) expression expression')
    (keyword : Token) :
    Follows g more 1 E (Stmt.relabel g) (returnStatement keyword expression)
      (returnStatement (keyword.relabel g) expression') := by
  refine (unlessAt_follows hexpression .semicolon).andTake fun value => ?_
  exact (follows_expect _ _).takeAnd fun _ => follows_pure rfl

/-- Loops follow if their conditions and their bodies do. -/
theorem whileStatement_follows
    (hexpression : Follows g more 1 (more = []) (Expr.relabel g) expression expression')
    (hstatement : Follows g more 1 (EndsConditional more) (Stmt.relabel g) statement statement') :
    Follows g more 1 (EndsConditional more) (Stmt.relabel g) (whileStatement expression statement)
      (whileStatement expression' statement') := by
  refine (follows_expect (E := more = []) _ _).andTake fun _ => ?_
  refine hexpression.andTake fun condition => ?_
  refine (follows_expect (E := more = []) _ _).andTake fun _ => ?_
  exact hstatement.takeAnd fun body => follows_pure rfl

/-- Statements follow if the parts of statements do. -/
theorem statementOf_follows
    (hexpression : Follows g more 1 (more = []) (Expr.relabel g) expression expression')
    (hstatement : Follows g more 1 (EndsConditional more) (Stmt.relabel g) statement statement')
    (hdeclaration : Follows g more 1 (EndsConditional more) (Option.map (Stmt.relabel g))
      declaration declaration') :
    Follows g more 1 (EndsConditional more) (Stmt.relabel g)
      (statementOf expression statement declaration)
      (statementOf expression' statement' declaration') := by
  refine follows_accept (k := 1) (expressionStatement_follows hexpression)
    (fun h => absurd h Nat.one_ne_zero) (fun t _ => ?_) (Nat.le_add_left 1 1)
  have hblock : Follows g more 1 (EndsConditional more) (Stmt.relabel g)
      (.block <$> blockBody declaration) (.block <$> blockBody declaration') :=
    (blockBody_follows hdeclaration).map fun body => by rw [Stmt.relabel, Stmt.relabelAll_eq_map]
  dsimp only
  rw [Token.kind_relabel]
  cases t.kind
  case forWord => exact forStatement_follows hexpression hstatement
  case ifWord => exact ifStatement_follows hexpression hstatement
  case printWord => exact printStatement_follows hexpression
  case returnWord => exact returnStatement_follows hexpression t
  case whileWord => exact whileStatement_follows hexpression hstatement
  all_goals exact hblock

/-- Declarations follow if the parts of declarations do. -/
theorem declarationOf_follows
    (hlink : g.link .unresolved = .unresolved)
    (hexpression : Follows g more 1 (more = []) (Expr.relabel g) expression expression')
    (hstatement : Follows g more 1 (EndsConditional more) (Stmt.relabel g) statement statement')
    (hdeclaration : Follows g more 1 (EndsConditional more) (Option.map (Stmt.relabel g))
      declaration declaration') :
    Follows g more 1 (EndsConditional more) (Stmt.relabel g)
      (declarationOf expression statement declaration)
      (declarationOf expression' statement' declaration') := by
  refine follows_accept (k := 1) hstatement (fun h => absurd h Nat.one_ne_zero) (fun t _ => ?_)
    (Nat.le_add_left 1 1)
  have hfunction : Follows g more 1 (EndsConditional more) (Stmt.relabel g)
      (.funDecl <$> routine .function declaration) (.funDecl <$> routine .function declaration') :=
    (routine_follows hdeclaration .function).map fun _ => rfl
  dsimp only
  rw [Token.kind_relabel]
  cases t.kind
  case classWord => exact classDeclaration_follows hlink hdeclaration
  case funWord => exact hfunction
  case constWord => exact constantDeclaration_follows hexpression
  all_goals exact variableDeclaration_follows hexpression

mutual

/-- A declaration is parsed in the same way where no `else` follows. -/
theorem declaration_follows
    (hlink : g.link .unresolved = .unresolved) :
    ∀ allowance : Nat, Follows g more 1 (EndsConditional more) (Option.map (Stmt.relabel g))
      (Parser.declaration allowance) (Parser.declaration allowance)
  | 0 => follows_tooDeep _
  | allowance + 1 =>
      (declarationOf_follows hlink (expression_follows hlink allowance)
        (statement_follows hlink allowance) (declaration_follows hlink allowance)).recovering

/-- Statements follow themselves on other lines. -/
theorem statement_follows
    (hlink : g.link .unresolved = .unresolved) :
    ∀ allowance : Nat, Follows g more 1 (EndsConditional more) (Stmt.relabel g)
      (Parser.statement allowance) (Parser.statement allowance)
  | 0 => follows_tooDeep _
  | allowance + 1 =>
      statementOf_follows (expression_follows hlink allowance) (statement_follows hlink allowance)
        (declaration_follows hlink allowance)

end

end Statements

section Programs

variable {α β : Type} {φ : α → β} {item : Parser (Option α)} {item' : Parser (Option β)}
variable {E : Prop}

/-- A loop over a longer text finds the given items first, and then it goes on. -/
def FindsFirst
    (g : Relabeling)
    (more : List Token)
    (item : Parser (Option β))
    (ahead : List Token)
    (items : List β) : Prop :=
  ∀ (bound : List Token) (found : List β), ahead.length + more.length ≤ bound.length →
    ∃ bound' : List Token, more.length ≤ bound'.length ∧
      collectUpTo [] item bound found ⟨ahead.map (Token.relabel g) ++ more, []⟩ =
        collectUpTo [] item bound' (items.reverse ++ found) ⟨more, []⟩

/-- Of no tokens no items are found. -/
theorem FindsFirst.nil (item : Parser (Option β)) : FindsFirst g more item [] [] :=
  fun bound _ hbound => ⟨bound, by simpa using hbound, rfl⟩

/-- One more item is found in front of others. -/
theorem FindsFirst.cons
    {t : Token}
    {rest : List Token}
    {x : Option β}
    {ahead : List Token}
    {items : List β}
    (hlength : ahead.length ≤ rest.length)
    (hitem : item' ⟨(t :: rest).map (Token.relabel g) ++ more, []⟩ =
      .ok x ⟨ahead.map (Token.relabel g) ++ more, []⟩)
    (h : FindsFirst g more item' ahead items) :
    FindsFirst g more item' (t :: rest) (x.toList ++ items) := by
  intro bound found hbound
  cases bound with
  | nil => simp at hbound
  | cons u bound =>
      simp only [List.length_cons] at hbound
      obtain ⟨bound', hbound', hrest⟩ := h bound (x.toList ++ found) (by omega)
      refine ⟨bound', hbound', ?_⟩
      refine (collectUpTo_goesOn (u := t.relabel g) List.not_mem_nil item' u bound _ _ _).trans ?_
      have hstep : (item' >>= fun x => collectUpTo [] item' bound (x.toList ++ found))
          ⟨(t :: rest).map (Token.relabel g) ++ more, []⟩ =
            collectUpTo [] item' bound (x.toList ++ found)
              ⟨ahead.map (Token.relabel g) ++ more, []⟩ := by
        simp only [Bind.bind, EStateM.bind, hitem]
      refine hstep.trans (hrest.trans ?_)
      cases x <;> simp

/-- Items that have been found up to the end are found first where other items follow. -/
theorem findsFirst_of_collectUpTo
    (hitem : Follows g more 1 E (Option.map φ) item item')
    (hending : E)
    {s' : ParseState}
    {result : List α}
    (hnone : s'.errors = [])
    (bound : List Token) :
    ∀ (found : List α) (s : ParseState), s.ahead.length ≤ bound.length →
      collectUpTo [] item bound found s = .ok result s' →
      ∃ added : List α, result = found.reverse ++ added ∧
        FindsFirst g more item' s.ahead (added.map φ) := by
  have hdone (bound : List Token) (found : List α) (errors : List ParseError)
      (hresult : collectUpTo [] item bound found ⟨[], errors⟩ = .ok result s') :
      ∃ added : List α, result = found.reverse ++ added ∧
        FindsFirst g more item' [] (added.map φ) := by
    rw [collectUpTo_ends (by simp)] at hresult
    obtain ⟨rfl, -⟩ := EStateM.Result.ok.inj hresult
    exact ⟨[], by simp, .nil item'⟩
  induction bound with
  | nil =>
      rintro found ⟨ahead, errors⟩ hbound hresult
      obtain rfl : ahead = [] := List.length_eq_zero_iff.mp (Nat.le_zero.mp hbound)
      exact hdone [] found errors hresult
  | cons t bound ih =>
      rintro found ⟨ahead, errors⟩ hbound hresult
      cases ahead with
      | nil => exact hdone _ found errors hresult
      | cons u rest =>
          rw [collectUpTo_goesOn List.not_mem_nil] at hresult
          simp only [Bind.bind, EStateM.bind] at hresult
          have hfirst := hitem ⟨u :: rest, errors⟩
          cases hround : item ⟨u :: rest, errors⟩ with
          | error abort s₁ => simp [hround] at hresult
          | ok x s₁ =>
              rw [hround] at hfirst hresult
              -- No error is taken back, so the first round has reported none.
              have hrest : Followed g more (Bounds more bound [] s₁) 0 False (List.map φ)
                  (collectUpTo [] item' [] ((x.toList ++ found).map φ)) s₁
                  (collectUpTo [] item bound (x.toList ++ found) s₁) :=
                followed_collectUpTo hitem False.elim False.elim bound [] _ s₁
              rw [show collectUpTo [] item bound (x.toList ++ found) s₁ = .ok result s' from
                hresult] at hrest
              obtain ⟨hlength, hother⟩ := (hfirst (hrest hnone).1).2 trivial
              simp only [List.length_cons] at hbound hlength
              obtain ⟨added, hadded, hfinds⟩ := ih (x.toList ++ found) s₁ (by omega) hresult
              refine ⟨x.toList ++ added, ?_, ?_⟩
              · rw [hadded]
                cases x <;> simp
              · have hcons : FindsFirst g more item' (u :: rest) _ :=
                  hfinds.cons (by omega) (hother fun _ => hending)
                cases x <;> simpa using hcons

/-- Declarations that are parsed without errors are parsed first where no `else` follows. -/
theorem program_findsFirst
    (hlink : g.link .unresolved = .unresolved)
    (hmore : EndsConditional more)
    {allowance : Nat}
    {tokens : List Token}
    {program : List Stmt}
    {s' : ParseState}
    (hprogram : Parser.program allowance ⟨tokens, []⟩ = .ok program s')
    (hnone : s'.errors = []) :
    FindsFirst g more (Parser.declaration allowance) tokens (program.map (Stmt.relabel g)) := by
  obtain ⟨added, hadded, hfinds⟩ := findsFirst_of_collectUpTo (declaration_follows hlink allowance)
    hmore hnone tokens [] ⟨tokens, []⟩ le_rfl hprogram
  rw [hadded]
  exact hfinds

end Programs

section Else

/-- A parser without a result where a token is next. -/
def StopsAt {α : Type} (t : Token) (parser : Parser α) : Prop :=
  ∀ (rest : List Token) (errors : List ParseError),
    ∃ abort s', parser ⟨t :: rest, errors⟩ = .error abort s'

variable {α β : Type} {t : Token}

/-- Where a parser stops, nothing comes after it. -/
theorem StopsAt.bind
    {x : Parser α}
    (h : StopsAt t x)
    (f : α → Parser β) :
    StopsAt t (x >>= f) := by
  intro rest errors
  obtain ⟨abort, s', hresult⟩ := h rest errors
  exact ⟨abort, s', by simp only [Bind.bind, EStateM.bind, hresult]⟩

/-- A parser stops at a token that it neither takes nor goes on from. -/
theorem StopsAt.accept
    {kinds : List TokenKind}
    {f : Option Token → Parser α}
    (hkind : t.kind ∉ kinds)
    (h : StopsAt t (f none)) :
    StopsAt t (Parser.accept kinds >>= f) := by
  intro rest errors
  obtain ⟨abort, s', hresult⟩ := h rest errors
  refine ⟨abort, s', ?_⟩
  simpa [Bind.bind, EStateM.bind, Parser.accept, hkind] using hresult

theorem stopsAt_tooDeep : StopsAt t (tooDeep : Parser α) :=
  fun _ _ => ⟨_, _, rfl⟩

/-- No operand starts with an `else`. -/
theorem stopsAt_primary_else (helse : t.kind = .elseWord) (expression : Parser Expr) :
    StopsAt t (primary expression) := by
  intro rest errors
  simp [primary, peek, Bind.bind, EStateM.bind, helse, Parser.fail]

/-- A chain of operators stops where its first operand does. -/
theorem stopsAt_joined
    {operand : Parser Expr}
    (h : StopsAt t operand)
    (levels : List OperatorLevel) :
    StopsAt t (joined levels operand) := by
  induction levels with
  | nil => exact h
  | cons level tighter ih => exact ih.bind _

theorem stopsAt_unary_else (helse : t.kind = .elseWord) (allowance : Nat) :
    StopsAt t (unary allowance) := by
  cases allowance with
  | zero => exact stopsAt_tooDeep
  | succ allowance =>
      rw [unary]
      exact .accept (by simp [helse]) ((stopsAt_primary_else helse _).bind _)

/-- No expression starts with an `else`. -/
theorem stopsAt_expression_else (helse : t.kind = .elseWord) (allowance : Nat) :
    StopsAt t (expression allowance) := by
  cases allowance with
  | zero => exact stopsAt_tooDeep
  | succ allowance => exact (stopsAt_joined (stopsAt_unary_else helse allowance) _).bind _

/-- No statement starts with an `else`. -/
theorem stopsAt_statement_else (helse : t.kind = .elseWord) (allowance : Nat) :
    StopsAt t (statement allowance) := by
  cases allowance with
  | zero => exact stopsAt_tooDeep
  | succ allowance => exact .accept (by simp [helse]) ((stopsAt_expression_else helse _).bind _)

/-- A declaration that begins with an `else` has errors. -/
theorem declaration_else
    (helse : t.kind = .elseWord)
    {allowance : Nat}
    {rest : List Token}
    {errors : List ParseError}
    {result : Option Stmt}
    {s' : ParseState}
    (hresult : declaration allowance ⟨t :: rest, errors⟩ = .ok result s') :
    s'.errors ≠ [] := by
  cases allowance with
  | zero => cases hresult
  | succ allowance =>
      have hstops : StopsAt t (declarationOf (expression allowance) (statement allowance)
          (declaration allowance)) :=
        .accept (by simp [helse]) (stopsAt_statement_else helse allowance)
      have hfollows : Follows .none [] 1 (EndsConditional []) (Stmt.relabel .none)
          (declarationOf (expression allowance) (statement allowance) (declaration allowance)) _ :=
        declarationOf_follows rfl (expression_follows rfl allowance)
          (statement_follows rfl allowance) (declaration_follows rfl allowance)
      have hreports := hfollows ⟨t :: rest, errors⟩
      obtain ⟨abort, s₁, hstop⟩ := hstops rest errors
      rw [hstop] at hreports
      simp only [declaration, recovering, hstop] at hresult
      cases abort with
      | failed =>
          rw [← (EStateM.Result.ok.inj hresult).2]
          exact hreports
      | tooDeep => cases hresult

/-- A text without errors does not continue a conditional. -/
theorem endsConditional_of_program
    {allowance : Nat}
    {tokens : List Token}
    {program : List Stmt}
    {s' : ParseState}
    (hprogram : Parser.program allowance ⟨tokens, []⟩ = .ok program s')
    (hnone : s'.errors = []) :
    EndsConditional tokens := by
  intro t ht helse
  obtain ⟨rest, rfl⟩ : ∃ rest, tokens = t :: rest := by
    cases tokens with
    | nil => simp at ht
    | cons u rest => exact ⟨rest, by rw [Option.mem_some.mp ht]⟩
  have hround : collectUpTo [] (declaration allowance) (t :: rest) [] ⟨t :: rest, []⟩ =
      .ok program s' := hprogram
  rw [collectUpTo_goesOn List.not_mem_nil] at hround
  simp only [Bind.bind, EStateM.bind] at hround
  cases hresult : declaration allowance ⟨t :: rest, []⟩ with
  | error abort s₁ => simp [hresult] at hround
  | ok x s₁ =>
      rw [hresult] at hround
      have hrest : Followed .none [] (Bounds [] rest [] s₁) 0 False (List.map (Stmt.relabel .none))
          (collectUpTo [] (declaration allowance) [] ((x.toList ++ []).map (Stmt.relabel .none))) s₁
          (collectUpTo [] (declaration allowance) rest (x.toList ++ []) s₁) :=
        followed_collectUpTo (declaration_follows rfl allowance) False.elim False.elim rest [] _ s₁
      rw [show collectUpTo [] (declaration allowance) rest (x.toList ++ []) s₁ = .ok program s' from
        hround] at hrest
      exact declaration_else helse hresult (hrest hnone).1

end Else

end Parser

/-- A parse without errors comes to its end. -/
theorem Parse.within_of_errors_eq_nil
    {allowance : Nat}
    {tokens : List Token}
    (h : (Parse.within allowance tokens).errors = []) :
    ∃ s', Parser.program allowance ⟨tokens, []⟩ =
      .ok (Parse.within allowance tokens).statements s' ∧ s'.errors = [] := by
  unfold Parse.within at h ⊢
  cases hresult : Parser.program allowance ⟨tokens, []⟩ with
  | error abort s' => simp [hresult] at h
  | ok program s' =>
      rw [hresult] at h
      exact ⟨s', rfl, List.reverse_eq_nil_iff.mp h⟩

/-- Two texts without errors have the same statements where one follows the other. -/
theorem Parse.within_joined
    {g : Relabeling}
    (hlink : g.link .unresolved = .unresolved)
    {allowance : Nat}
    {first second : List Token}
    (hfirst : (Parse.within allowance first).errors = [])
    (hsecond : (Parse.within allowance second).errors = []) :
    Parse.within allowance (first ++ second.map (Token.relabel g)) =
      ⟨(Parse.within allowance first).statements ++
        (Parse.within allowance second).statements.map (Stmt.relabel g), []⟩ := by
  obtain ⟨s₁, hprogram₁, hnone₁⟩ := Parse.within_of_errors_eq_nil hfirst
  obtain ⟨s₂, hprogram₂, hnone₂⟩ := Parse.within_of_errors_eq_nil hsecond
  have hmore : Parser.EndsConditional (second.map (Token.relabel g)) := by
    intro t ht
    obtain ⟨u, hu, rfl⟩ : ∃ u ∈ second.head?, u.relabel g = t := by
      simpa using ht
    exact Parser.endsConditional_of_program hprogram₂ hnone₂ u hu
  have hfinds₁ := Parser.program_findsFirst (g := .none) rfl hmore hprogram₁ hnone₁
  have hends : Parser.EndsConditional [] := by simp [Parser.EndsConditional]
  have hfinds₂ := Parser.program_findsFirst hlink hends hprogram₂ hnone₂
  simp only [Parser.FindsFirst, List.length_nil, Nat.add_zero, List.append_nil] at hfinds₁ hfinds₂
  obtain ⟨bound, hbound, heq₁⟩ := hfinds₁ (first ++ second.map (Token.relabel g)) [] (by simp)
  obtain ⟨bound', -, heq₂⟩ := hfinds₂ bound (Parse.within allowance first).statements.reverse
    (by simpa using hbound)
  have htokens : first.map (Token.relabel .none) = first := List.map_id first
  have hstatements : (Parse.within allowance first).statements.map (Stmt.relabel .none) =
      (Parse.within allowance first).statements :=
    (List.map_congr_left fun s _ => s.relabel_none).trans (List.map_id _)
  rw [htokens, hstatements, List.append_nil, heq₂] at heq₁
  have hprogram : Parser.program allowance ⟨first ++ second.map (Token.relabel g), []⟩ =
      .ok ((Parse.within allowance first).statements ++
        (Parse.within allowance second).statements.map (Stmt.relabel g)) ⟨[], []⟩ := by
    refine heq₁.trans ?_
    rw [Parser.collectUpTo_ends (by simp)]
    simp
  conv_lhs => rw [Parse.within, hprogram]
  rfl

end Lox
