import Lox.Proofs.Token.Words
import Lox.Scope.Links
import Lox.Tree.Parse.Stmt

/-!
# What parsed trees look like

A tree that comes from a text has a simpler shape than trees have in general: all its links are
open, no name is read as a known constant, the instance is called `this`, a superclass is a name
that is read, and the branches of conditionals and the bodies of loops are no declarations.

**Result.**
* `Parse.asParsed_within`: this holds of whatever the parser yields, with or without errors.
-/

namespace Lox

/-- A link is open, a name is not read as a known constant, and the instance is called `this`. -/
def LinkRecord.AsParsed (r : LinkRecord) : Prop :=
  r.link = .unresolved ∧ r.sort ≠ .readConstant ∧ (r.sort = .this → r.name.lexeme = "this")

/-- All references of an expression have the shape that the parser gives them. -/
def Expr.AsParsed (e : Expr) : Prop :=
  ∀ r ∈ e.references .written, r.AsParsed

/-- The references of several expressions are those of each of them. -/
theorem Expr.mem_referencesAll
    {order : ListingOrder}
    {es : List Expr}
    {r : LinkRecord} :
    r ∈ Expr.referencesAll order es ↔ ∃ e ∈ es, r ∈ e.references order := by
  induction es with
  | nil => simp [Expr.referencesAll]
  | cons e es ih => simp [Expr.referencesAll, ih]

/-- The statements that bind a name where they stand. -/
def Stmt.isDeclaration : Stmt → Bool
  | .funDecl _ => true
  | .classDecl _ _ _ => true
  | .varDecl _ _ => true
  | .constDecl _ _ => true
  | _ => false

/-- An expression that is absent or has open links. -/
def optionAsParsed (e : Option Expr) : Prop :=
  ∀ e' ∈ e, e'.AsParsed

/-- A name is not called as the instance or the superclass. -/
def Token.IsName (t : Token) : Prop :=
  t.lexeme ≠ "this" ∧ t.lexeme ≠ "super"

/-- A superclass is a name that is read. -/
def parentAsParsed (parent : Option Expr) : Prop :=
  ∀ e ∈ parent, ∃ name, e = .read ⟨name, .unresolved⟩

mutual

/-- A statement has the shape that the parser gives it. -/
def Stmt.AsParsed : Stmt → Prop
  | .block body => Stmt.AsParsedAll body
  | .funDecl f => f.AsParsed
  | .classDecl _ parent methods => parentAsParsed parent ∧ FunctionDecl.AsParsedAll methods
  | .varDecl name initializer => name.IsName ∧ optionAsParsed initializer
  | .constDecl name initializer => name.IsName ∧ optionAsParsed initializer
  | .exprStmt e => e.AsParsed
  | .ifStmt condition thenBranch none =>
      condition.AsParsed ∧ thenBranch.isDeclaration = false ∧ thenBranch.AsParsed
  | .ifStmt condition thenBranch (some elseBranch) =>
      condition.AsParsed
        ∧ (thenBranch.isDeclaration = false ∧ thenBranch.AsParsed)
        ∧ elseBranch.isDeclaration = false ∧ elseBranch.AsParsed
  | .printStmt e => e.AsParsed
  | .returnStmt _ value => optionAsParsed value
  | .whileStmt condition body =>
      condition.AsParsed ∧ body.isDeclaration = false ∧ body.AsParsed

def Stmt.AsParsedAll : List Stmt → Prop
  | [] => True
  | s :: ss => s.AsParsed ∧ Stmt.AsParsedAll ss

def FunctionDecl.AsParsed : FunctionDecl → Prop
  | ⟨_, _, body⟩ => Stmt.AsParsedAll body

def FunctionDecl.AsParsedAll : List FunctionDecl → Prop
  | [] => True
  | f :: fs => f.AsParsed ∧ FunctionDecl.AsParsedAll fs

end

/-- Several statements are as parsed if each of them is. -/
theorem Stmt.asParsedAll_iff {ss : List Stmt} :
    Stmt.AsParsedAll ss ↔ ∀ s ∈ ss, s.AsParsed := by
  induction ss with
  | nil => simp [Stmt.AsParsedAll]
  | cons s ss ih => simp [Stmt.AsParsedAll, ih]

/-- Several functions are as parsed if each of them is. -/
theorem FunctionDecl.asParsedAll_iff {fs : List FunctionDecl} :
    FunctionDecl.AsParsedAll fs ↔ ∀ f ∈ fs, f.AsParsed := by
  induction fs with
  | nil => simp [FunctionDecl.AsParsedAll]
  | cons f fs ih => simp [FunctionDecl.AsParsedAll, ih]

/-- The words for the instance among the tokens ahead are spelled as such. -/
def ParseState.Spelled (s : ParseState) : Prop :=
  ∀ t ∈ s.ahead, t.Spelled

namespace Parser

variable {α β : Type}

/-- A parser adds no tokens to those that lie ahead, and whatever it yields has a property. -/
def Yields (parser : Parser α) (P : α → Prop) : Prop :=
  ∀ s : ParseState, s.Spelled →
    match parser s with
    | .ok a s' => s'.Spelled ∧ P a
    | .error _ s' => s'.Spelled

/-- A parser that takes nothing yields what it is given. -/
theorem yields_pure
    {P : α → Prop}
    {a : α}
    (h : P a) :
    Yields (pure a : Parser α) P :=
  fun _ hs => ⟨hs, h⟩

/-- What a second parser yields may depend on what the first has yielded. -/
theorem yields_bind
    {x : Parser α}
    {f : α → Parser β}
    {P : α → Prop}
    {Q : β → Prop}
    (hx : Yields x P)
    (hf : ∀ a, P a → Yields (f a) Q) :
    Yields (x >>= f) Q := by
  intro s hs
  have hfirst := hx s hs
  simp only [bind, EStateM.bind]
  cases hresult : x s with
  | ok a s' =>
      rw [hresult] at hfirst
      exact hf a hfirst.2 s' hfirst.1
  | error abort s' =>
      rw [hresult] at hfirst
      exact hfirst

/-- A parser whose result does not matter for what follows it. -/
theorem yields_seq
    {x : Parser α}
    {f : α → Parser β}
    {P : α → Prop}
    {Q : β → Prop}
    (hx : Yields x P)
    (hf : ∀ a, Yields (f a) Q) :
    Yields (x >>= f) Q :=
  yields_bind hx fun a _ => hf a

/-- What is yielded can be changed afterwards. -/
theorem yields_map
    {x : Parser α}
    {f : α → β}
    {P : α → Prop}
    {Q : β → Prop}
    (hx : Yields x P)
    (hf : ∀ a, P a → Q (f a)) :
    Yields (f <$> x) Q :=
  yields_bind (f := fun a => pure (f a)) hx fun a ha => yields_pure (hf a ha)

/-- Less can be said of what is yielded. -/
theorem yields_mono
    {x : Parser α}
    {P Q : α → Prop}
    (hx : Yields x P)
    (hPQ : ∀ a, P a → Q a) :
    Yields x Q := by
  intro s hs
  have h := hx s hs
  split at h
  · exact ⟨h.1, hPQ _ h.2⟩
  · exact h

section Steps

theorem yields_peek : Yields peek fun t => ∀ t' ∈ t, t'.Spelled :=
  fun _ hs => ⟨hs, fun t ht => hs t (List.mem_of_mem_head? ht)⟩

theorem yields_check (kinds : List TokenKind) : Yields (check kinds) fun _ => True :=
  fun _ hs => ⟨hs, trivial⟩

theorem yields_atEnd : Yields atEnd fun _ => True :=
  fun _ hs => ⟨hs, trivial⟩

theorem yields_advance : Yields advance fun _ => True :=
  fun _ hs => ⟨fun t ht => hs t (List.mem_of_mem_tail ht), trivial⟩

/-- A token that is taken is of one of the kinds, and spelled as its kind. -/
theorem yields_accept (kinds : List TokenKind) :
    Yields (accept kinds) fun t => ∀ t' ∈ t, t'.kind ∈ kinds ∧ t'.Spelled := by
  rintro ⟨ahead, errors⟩ hs
  cases ahead with
  | nil => exact ⟨hs, by simp⟩
  | cons t rest =>
      simp only [accept]
      split
      · next hresult =>
          split at hresult
          · next hkind =>
              cases hresult
              refine ⟨fun t' ht' => hs t' (List.mem_cons_of_mem t ht'), ?_⟩
              simpa using ⟨by simpa using hkind, hs t List.mem_cons_self⟩
          · cases hresult
            exact ⟨hs, by simp⟩
      · next hresult => split at hresult <;> cases hresult

theorem yields_report
    (fault : ParseFault)
    (found : Option Token) :
    Yields (report fault found) fun _ => True :=
  fun _ hs => ⟨hs, trivial⟩

/-- A parser that fails yields nothing. -/
theorem yields_fail
    {P : α → Prop}
    (missing : Expectation) :
    Yields (fail missing : Parser α) P :=
  fun _ hs => hs

theorem yields_tooDeep {P : α → Prop} : Yields (tooDeep : Parser α) P :=
  fun _ hs => hs

/-- A token that is expected is yielded, spelled as its kind. -/
theorem yields_expect
    (kind : TokenKind)
    (missing : Expectation) :
    Yields (expect kind missing) fun t => t.kind = kind ∧ t.Spelled := by
  refine yields_bind (yields_accept [kind]) fun t ht => ?_
  cases t with
  | none => exact yields_fail missing
  | some t => exact yields_pure (by simpa using ht)

end Steps

/-- A bound on the rounds does not change what is yielded. -/
theorem yields_bounded
    {parser : List Token → Parser α}
    {P : α → Prop}
    (h : ∀ bound, Yields (parser bound) P) :
    Yields (bounded parser) P :=
  fun s => h s.ahead s

/-- Items that are collected up to a closing token all have the property of an item. -/
theorem yields_upTo
    {closing : List TokenKind}
    {item : Parser (Option α)}
    {P : α → Prop}
    (hitem : Yields item fun x => ∀ a ∈ x, P a) :
    Yields (upTo closing item) fun found => ∀ a ∈ found, P a := by
  have hcollect :
      ∀ (bound : List Token) (found : List α), (∀ a ∈ found, P a) →
        Yields (collectUpTo closing item bound found) fun found => ∀ a ∈ found, P a := by
    intro bound
    induction bound with
    | nil =>
        intro found hfound
        exact yields_pure (by simpa using hfound)
    | cons t bound ih =>
        intro found hfound
        unfold collectUpTo
        refine yields_seq yields_atEnd fun ended =>
          yields_seq (yields_check closing) fun closed => ?_
        split
        · exact yields_pure (by simpa using hfound)
        · refine yields_bind hitem fun x hx => ?_
          cases x with
          | none => exact ih found hfound
          | some a =>
              refine ih (a :: found) fun b hb => ?_
              rcases List.mem_cons.mp hb with rfl | hb
              · exact hx _ rfl
              · exact hfound b hb
  exact yields_bounded fun bound => hcollect bound [] (by simp)

/-- Items between parentheses all have the property of an item. -/
theorem yields_inParentheses
    {excess : ParseFault}
    {item : Parser α}
    {P : α → Prop}
    (hitem : Yields item P) :
    Yields (inParentheses excess item) fun found => ∀ a ∈ found, P a := by
  have hcollect :
      ∀ (bound : List Token) (count : Nat) (found : List α), (∀ a ∈ found, P a) →
        Yields (collectSeparated excess item bound count found) fun found => ∀ a ∈ found, P a := by
    intro bound
    induction bound with
    | nil =>
        intro count found hfound
        exact yields_pure (by simpa using hfound)
    | cons t bound ih =>
        intro count found hfound
        unfold collectSeparated
        refine yields_seq (yields_accept _) fun comma => ?_
        cases comma with
        | none => exact yields_pure (by simpa using hfound)
        | some comma =>
            have hnext : Yields
                (do let x ← item; collectSeparated excess item bound (count + 1) (x :: found))
                fun found => ∀ a ∈ found, P a := by
              refine yields_bind hitem fun x hx => ih (count + 1) (x :: found) fun b hb => ?_
              rcases List.mem_cons.mp hb with rfl | hb
              · exact hx
              · exact hfound b hb
            dsimp only
            split
            · exact yields_seq yields_peek fun _ => yields_seq (yields_report _ _) fun _ => hnext
            · exact hnext
  refine yields_seq (yields_check _) fun closed => ?_
  split
  · exact yields_pure (by simp)
  · refine yields_bind hitem fun first hfirst => yields_bounded fun bound => ?_
    exact hcollect bound 1 [first] (by simpa using hfirst)

section Expressions

/-- The nodes of the levels of precedence keep links open. -/
theorem asParsed_node
    {level : OperatorLevel}
    (hlevel : level ∈ operatorLevels)
    {left right : Expr}
    (hleft : left.AsParsed)
    (hright : right.AsParsed)
    (operator : Token) :
    (level.node left operator right).AsParsed := by
  have happ : ∀ r ∈ left.references .written ++ right.references .written,
      r.AsParsed := by
    intro r hr
    rcases List.mem_append.mp hr with hr | hr
    · exact hleft r hr
    · exact hright r hr
  simp only [operatorLevels, List.mem_cons, List.not_mem_nil, or_false] at hlevel
  rcases hlevel with rfl | rfl | rfl | rfl | rfl | rfl <;>
    simpa only [Expr.AsParsed, Expr.references] using happ

/-- A chain of operators yields an expression as parsed. -/
theorem yields_joined
    {operand : Parser Expr}
    (hoperand : Yields operand Expr.AsParsed) :
    ∀ levels : List OperatorLevel, (∀ level ∈ levels, level ∈ operatorLevels) →
      Yields (joined levels operand) Expr.AsParsed
  | [], _ => hoperand
  | level :: tighter, hlevels => by
      have htighter :=
        yields_joined hoperand tighter fun l hl => hlevels l (List.mem_cons_of_mem level hl)
      have hchain : ∀ (bound : List Token) (left : Expr), left.AsParsed →
          Yields (chainOnto level (joined tighter operand) bound left) Expr.AsParsed := by
        intro bound
        induction bound with
        | nil => exact fun left hleft => yields_pure hleft
        | cons t bound ih =>
            intro left hleft
            unfold chainOnto
            refine yields_seq (yields_accept _) fun operator => ?_
            cases operator with
            | none => exact yields_pure hleft
            | some operator =>
                refine yields_bind htighter fun right hright => ih _ ?_
                exact asParsed_node (hlevels level List.mem_cons_self) hleft hright operator
      exact yields_bind htighter fun left hleft =>
        yields_bounded fun bound => hchain bound left hleft

variable {inner : Parser Expr} (hinner : Yields inner Expr.AsParsed)
include hinner

/-- An operand is yielded as parsed. -/
theorem yields_primary : Yields (primary inner) Expr.AsParsed := by
  refine yields_bind yields_peek fun next hnext => ?_
  cases next with
  | none => exact yields_fail _
  | some t =>
      dsimp only
      split
      case h_6 =>
        refine yields_seq yields_advance fun _ => yields_seq (yields_expect _ _) fun _ =>
          yields_seq (yields_expect _ _) fun method => yields_pure ?_
        simp [Expr.AsParsed, Expr.references, LinkRecord.AsParsed]
      case h_7 hkind =>
        refine yields_seq yields_advance fun _ => yields_pure ?_
        simpa [Expr.AsParsed, Expr.references, LinkRecord.AsParsed] using (hnext t rfl).this hkind
      case h_9 =>
        refine yields_seq yields_advance fun _ => yields_bind hinner fun e he =>
          yields_seq (yields_expect _ _) fun _ => ?_
        exact yields_pure (by simpa [Expr.AsParsed, Expr.references] using he)
      case h_10 => exact yields_fail _
      all_goals
        refine yields_seq yields_advance fun _ => yields_pure ?_
        simp [Expr.AsParsed, Expr.references, LinkRecord.AsParsed]

/-- A call is yielded as parsed. -/
theorem yields_postfixed : Yields (postfixed inner) Expr.AsParsed := by
  have hpostfix : ∀ (bound : List Token) (object : Expr), object.AsParsed →
      Yields (postfixOnto inner bound object) Expr.AsParsed := by
    intro bound
    induction bound with
    | nil => exact fun object hobject => yields_pure hobject
    | cons t bound ih =>
        intro object hobject
        unfold postfixOnto
        refine yields_seq (yields_accept _) fun opener => ?_
        cases opener with
        | none => exact yields_pure hobject
        | some opener =>
            dsimp only
            split
            · refine yields_bind (yields_inParentheses hinner) fun arguments harguments =>
                yields_seq (yields_expect _ _) fun closing => ih _ ?_
              intro r hr
              simp only [Expr.references, List.mem_append, Expr.mem_referencesAll] at hr
              rcases hr with hr | ⟨e, he, hr⟩
              · exact hobject r hr
              · exact harguments e he r hr
            · exact yields_seq (yields_expect _ _) fun name => ih _ hobject
  exact yields_bind (yields_primary hinner) fun object hobject =>
    yields_bounded fun bound => hpostfix bound object hobject

end Expressions

/-- An assignment to a target with open links has open links. -/
theorem asParsed_assignment?
    {target value result : Expr}
    (htarget : target.AsParsed)
    (hvalue : value.AsParsed)
    (h : target.assignment? value = some result) :
    result.AsParsed := by
  cases target with
  | read reference =>
      cases h
      intro r hr
      simp only [Expr.references, List.mem_append, List.mem_singleton] at hr
      rcases hr with hr | rfl
      · exact hvalue r hr
      · simp [LinkRecord.AsParsed]
  | get object name =>
      cases h
      intro r hr
      simp only [Expr.references, List.mem_append] at hr
      rcases hr with hr | hr
      · exact htarget r hr
      · exact hvalue r hr
  | _ => cases h

/-- An assignment is yielded as parsed, with its target unlinked. -/
theorem yields_assignment
    {operand value : Parser Expr}
    (hoperand : Yields operand Expr.AsParsed)
    (hvalue : Yields value Expr.AsParsed) :
    Yields (assignment operand value) Expr.AsParsed := by
  refine yields_bind (yields_joined hoperand operatorLevels fun _ h => h) fun target htarget =>
    yields_seq (yields_accept _) fun equals => ?_
  cases equals with
  | none => exact yields_pure htarget
  | some equals =>
      refine yields_bind hvalue fun v hv => ?_
      cases hassign : target.assignment? v with
      | some result => exact yields_pure (asParsed_assignment? htarget hv hassign)
      | none => exact yields_seq (yields_report _ _) fun _ => yields_pure htarget

mutual

/-- Expressions are yielded as parsed. -/
theorem yields_expression : ∀ allowance, Yields (expression allowance) Expr.AsParsed
  | 0 => yields_tooDeep
  | allowance + 1 => yields_assignment (yields_unary allowance) (yields_expression allowance)

theorem yields_unary : ∀ allowance, Yields (unary allowance) Expr.AsParsed
  | 0 => yields_tooDeep
  | allowance + 1 => by
      unfold unary
      refine yields_seq (yields_accept _) fun operator => ?_
      cases operator with
      | none => exact yields_postfixed (yields_expression allowance)
      | some operator =>
          refine yields_bind (yields_unary allowance) fun operand hoperand => yields_pure ?_
          simpa [Expr.AsParsed, Expr.references] using hoperand

end

/-- A statement that is no declaration, in the shape that the parser gives it. -/
def IsBranch (s : Stmt) : Prop :=
  s.isDeclaration = false ∧ s.AsParsed

/-- A `for` loop of parsed parts is a parsed statement. -/
theorem isBranch_forLoop
    {first : Option Stmt}
    {condition increment : Option Expr}
    {body : Stmt}
    (hfirst : ∀ s ∈ first, s.AsParsed)
    (hcondition : optionAsParsed condition)
    (hincrement : optionAsParsed increment)
    (hbody : IsBranch body) :
    IsBranch (.forLoop first condition increment body) := by
  have htest : (condition.getD (.literal (.boolean true))).AsParsed := by
    cases condition with
    | none => simp [Expr.AsParsed, Expr.references]
    | some e => exact hcondition e rfl
  have hloop : ∀ round : Stmt, IsBranch round →
      IsBranch (.whileStmt (condition.getD (.literal (.boolean true))) round) :=
    fun round hround => ⟨rfl, by simpa [Stmt.AsParsed] using ⟨htest, hround⟩⟩
  have hblock : ∀ loop : Stmt, IsBranch loop → ∀ s ∈ first, IsBranch (.block [s, loop]) :=
    fun loop hl s hs => ⟨rfl, by simpa [Stmt.AsParsed, Stmt.AsParsedAll] using ⟨hfirst s hs, hl.2⟩⟩
  have hround : ∀ step ∈ increment, IsBranch (.block [body, .exprStmt step]) :=
    fun step hstep => ⟨rfl, by
      simpa [Stmt.AsParsed, Stmt.AsParsedAll] using ⟨hbody.2, hincrement step hstep⟩⟩
  cases increment with
  | none =>
      cases first with
      | none => exact hloop body hbody
      | some s => exact hblock _ (hloop body hbody) s rfl
  | some step =>
      cases first with
      | none => exact hloop _ (hround step rfl)
      | some s => exact hblock _ (hloop _ (hround step rfl)) s rfl

section Statements

variable {inner : Parser Expr} (hinner : Yields inner Expr.AsParsed)
include hinner

theorem yields_initializer : Yields (initializer inner) optionAsParsed := by
  refine yields_seq (yields_accept _) fun equals => ?_
  cases equals with
  | none => exact yields_pure (by simp [optionAsParsed])
  | some equals => exact yields_map hinner fun e he => by simpa [optionAsParsed] using he

/-- An expression that may be absent is yielded as parsed. -/
theorem yields_unlessAt (closing : TokenKind) : Yields (unlessAt closing inner) optionAsParsed := by
  refine yields_seq (yields_check _) fun closed => ?_
  split
  · exact yields_pure (by simp [optionAsParsed])
  · exact yields_map hinner fun e he => by simpa [optionAsParsed] using he

theorem yields_variableDeclaration :
    Yields (variableDeclaration inner) Stmt.AsParsed :=
  yields_bind (yields_expect _ _) fun _ hname => yields_bind (yields_initializer hinner)
    fun _ hvalue => yields_seq (yields_expect _ _) fun _ =>
      yields_pure ⟨hname.2.identifier hname.1, hvalue⟩

theorem yields_constantDeclaration :
    Yields (constantDeclaration inner) Stmt.AsParsed :=
  yields_bind (yields_expect _ _) fun _ hname => yields_bind (yields_initializer hinner)
    fun _ hvalue => yields_seq (yields_expect _ _) fun _ =>
      yields_pure ⟨hname.2.identifier hname.1, hvalue⟩

theorem yields_expressionStatement : Yields (expressionStatement inner) IsBranch :=
  yields_bind hinner fun e he => yields_seq (yields_expect _ _) fun _ =>
    yields_pure ⟨rfl, by simpa [Stmt.AsParsed] using he⟩

variable {branch : Parser Stmt} (hbranch : Yields branch IsBranch)
include hbranch

/-- A loop with three clauses is yielded as what it stands for. -/
theorem yields_forStatement : Yields (forStatement inner branch) IsBranch := by
  refine yields_seq (yields_expect _ _) fun _ =>
    yields_bind (P := fun first => ∀ s ∈ first, s.AsParsed) ?_ fun first hfirst => ?_
  · refine yields_seq (yields_accept _) fun t => ?_
    cases t with
    | none =>
        exact yields_map (yields_expressionStatement hinner) fun s hs => by simpa using hs.2
    | some t =>
        dsimp only
        split
        · exact yields_pure (by simp)
        · exact yields_map (yields_variableDeclaration hinner) fun s hs => by simpa using hs
  · refine yields_bind (yields_unlessAt hinner _) fun condition hcondition =>
      yields_seq (yields_expect _ _) fun _ =>
      yields_bind (yields_unlessAt hinner _) fun increment hincrement =>
      yields_seq (yields_expect _ _) fun _ =>
      yields_bind hbranch fun body hbody => yields_pure ?_
    exact isBranch_forLoop hfirst hcondition hincrement hbody

/-- A conditional is yielded as parsed. -/
theorem yields_ifStatement : Yields (ifStatement inner branch) IsBranch := by
  refine yields_seq (yields_expect _ _) fun _ =>
    yields_bind hinner fun condition hcondition =>
    yields_seq (yields_expect _ _) fun _ =>
    yields_bind hbranch fun thenBranch hthen => yields_seq (yields_accept _) fun word => ?_
  cases word with
  | none => exact yields_pure ⟨rfl, by simpa [Stmt.AsParsed] using ⟨hcondition, hthen⟩⟩
  | some word =>
      refine yields_bind hbranch fun elseBranch helse => yields_pure ⟨rfl, ?_⟩
      simpa [Stmt.AsParsed] using ⟨hcondition, hthen, helse⟩

theorem yields_whileStatement : Yields (whileStatement inner branch) IsBranch :=
  yields_seq (yields_expect _ _) fun _ =>
    yields_bind hinner fun condition hcondition =>
    yields_seq (yields_expect _ _) fun _ =>
    yields_bind hbranch fun body hbody =>
      yields_pure ⟨rfl, by simpa [Stmt.AsParsed] using ⟨hcondition, hbody⟩⟩

variable {item : Parser (Option Stmt)} (hitem : Yields item fun s => ∀ s' ∈ s, s'.AsParsed)

omit hinner hbranch in
include hitem in
/-- The body of a block is yielded as parsed. -/
theorem yields_blockBody : Yields (blockBody item) Stmt.AsParsedAll :=
  yields_bind (yields_upTo hitem) fun _ hbody => yields_seq (yields_expect _ _) fun _ =>
    yields_pure (Stmt.asParsedAll_iff.mpr hbody)

omit hinner hbranch in
theorem yields_parameters : Yields parameters fun _ => True :=
  yields_mono (yields_inParentheses (yields_expect _ _)) fun _ _ => trivial

omit hinner hbranch in
include hitem in
/-- A function or a method is yielded as parsed. -/
theorem yields_routine (sort : RoutineSort) : Yields (routine sort item) FunctionDecl.AsParsed :=
  yields_seq (yields_expect _ _) fun name => yields_seq (yields_expect _ _) fun _ =>
    yields_seq yields_parameters fun parameters => yields_seq (yields_expect _ _) fun _ =>
    yields_seq (yields_expect _ _) fun _ => yields_bind (yields_blockBody hitem) fun body hbody =>
      yields_pure (by simpa [FunctionDecl.AsParsed] using hbody)

omit hinner hbranch in
include hitem in
/-- A class is yielded as parsed, with its superclass unlinked. -/
theorem yields_classDeclaration : Yields (classDeclaration item) Stmt.AsParsed := by
  have hsuperclass : Yields superclass parentAsParsed := by
    refine yields_seq (yields_accept _) fun t => ?_
    cases t with
    | none => exact yields_pure (by simp [parentAsParsed])
    | some t =>
        exact yields_seq (yields_expect _ _) fun name => yields_pure (by simp [parentAsParsed])
  have hmethod : Yields (some <$> routine .method item) fun f => ∀ f' ∈ f, f'.AsParsed :=
    yields_map (yields_routine hitem .method) fun f hf => by simpa using hf
  refine yields_seq (yields_expect _ _) fun name =>
    yields_bind hsuperclass fun parent hparent =>
    yields_seq (yields_expect _ _) fun _ =>
    yields_bind (yields_upTo hmethod) fun methods hmethods =>
    yields_seq (yields_expect _ _) fun _ => yields_pure ?_
  simpa [Stmt.AsParsed] using ⟨hparent, FunctionDecl.asParsedAll_iff.mpr hmethods⟩

include hitem

/-- A statement is yielded as parsed. -/
theorem yields_statementOf : Yields (statementOf inner branch item) IsBranch := by
  refine yields_seq (yields_accept _) fun t => ?_
  cases t with
  | none => exact yields_expressionStatement hinner
  | some t =>
      dsimp only
      split
      · exact yields_forStatement hinner hbranch
      · exact yields_ifStatement hinner hbranch
      · exact yields_bind hinner fun e he => yields_seq (yields_expect _ _) fun _ =>
          yields_pure ⟨rfl, by simpa [Stmt.AsParsed] using he⟩
      · exact yields_bind (yields_unlessAt hinner _) fun value hvalue =>
          yields_seq (yields_expect _ _) fun _ =>
          yields_pure ⟨rfl, by simpa [Stmt.AsParsed] using hvalue⟩
      · exact yields_whileStatement hinner hbranch
      · exact yields_map (yields_blockBody hitem) fun _ hbody =>
          ⟨rfl, by simpa [Stmt.AsParsed] using hbody⟩

/-- A declaration is yielded as parsed. -/
theorem yields_declarationOf : Yields (declarationOf inner branch item) Stmt.AsParsed := by
  refine yields_seq (yields_accept _) fun t => ?_
  cases t with
  | none => exact yields_mono hbranch fun _ hs => hs.2
  | some t =>
      dsimp only
      split
      · exact yields_classDeclaration hitem
      · exact yields_map (yields_routine hitem .function) fun f hf => by
          simpa [Stmt.AsParsed] using hf
      · exact yields_constantDeclaration hinner
      · exact yields_variableDeclaration hinner

end Statements

/-- What is ahead after a recovery was ahead before. -/
theorem mem_of_mem_resume
    {last : TokenKind}
    {tokens : List Token}
    {t : Token}
    (h : t ∈ resume last tokens) :
    t ∈ tokens := by
  induction tokens generalizing last with
  | nil => exact h
  | cons first rest ih =>
      unfold resume at h
      split at h
      · exact h
      · exact List.mem_cons_of_mem first (ih h)

/-- What is discarded after an error leaves some of the tokens ahead. -/
theorem mem_of_mem_synchronize
    {tokens : List Token}
    {t : Token}
    (h : t ∈ synchronize tokens) :
    t ∈ tokens := by
  cases tokens with
  | nil => exact h
  | cons first rest => exact List.mem_cons_of_mem first (mem_of_mem_resume h)

/-- What is yielded in spite of errors is as parsed. -/
theorem yields_recovering
    {statement : Parser Stmt}
    (h : Yields statement Stmt.AsParsed) :
    Yields (recovering statement) fun s => ∀ s' ∈ s, s'.AsParsed := by
  intro s hs
  have hstatement := h s hs
  unfold recovering
  cases hresult : statement s with
  | ok a s' =>
      rw [hresult] at hstatement
      exact ⟨hstatement.1, by simpa using hstatement.2⟩
  | error abort s' =>
      rw [hresult] at hstatement
      cases abort with
      | failed =>
          exact ⟨fun t ht => hstatement t (mem_of_mem_synchronize ht), by simp⟩
      | tooDeep => exact hstatement

mutual

theorem yields_declaration :
    ∀ allowance, Yields (declaration allowance) fun s => ∀ s' ∈ s, s'.AsParsed
  | 0 => yields_tooDeep
  | allowance + 1 =>
      yields_recovering <|
        yields_declarationOf (yields_expression allowance) (yields_statement allowance)
          (yields_declaration allowance)

theorem yields_statement : ∀ allowance, Yields (statement allowance) IsBranch
  | 0 => yields_tooDeep
  | allowance + 1 =>
      yields_statementOf (yields_expression allowance) (yields_statement allowance)
        (yields_declaration allowance)

end

end Parser

/-- Whatever the parser yields has the shape of parsed trees. -/
theorem Parse.asParsed_within
    (allowance : Nat)
    {tokens : List Token}
    (htokens : ∀ t ∈ tokens, t.Spelled) :
    Stmt.AsParsedAll (Parse.within allowance tokens).statements := by
  have hprogram : (Parser.program allowance).Yields fun ss => ∀ s ∈ ss, s.AsParsed :=
    Parser.yields_upTo (Parser.yields_declaration allowance)
  have h := hprogram ⟨tokens, []⟩ htokens
  unfold Parse.within
  split
  · next statements s hresult =>
      rw [hresult] at h
      exact Stmt.asParsedAll_iff.mpr h.2
  · trivial

end Lox
