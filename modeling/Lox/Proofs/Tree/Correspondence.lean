import Lox.Tree.Parse.Steps
import Mathlib.Tactic.Common

/-!
# Correspondences between parsers of two kinds

The parsers are the same in every monad that has their steps.  So what is true of the corresponding
steps of two monads, and is kept when steps are joined, is true of all parsers.  A `Correspondence`
is a relation with what has to be shown about the steps.

A loop that goes on up to a closing token ends in time because each of its items takes a token; what
is known of such items is a second part of a correspondence.  The third relates allowances for
nesting: they may be the same for both, or the second may be the larger one, if nothing is asked for
where the first parser has used up its allowance.

**Results.**
* `Correspondence.expression`, `Correspondence.declarationOf`: parsers that do not recover
  correspond.
* `Correspondence.Recovery.declaration`, `Correspondence.Recovery.program`: so do those that recover
  in corresponding ways.
-/

namespace Lox
namespace Steps

/-- Parsers with the same allowance have the same left for what they call. -/
theorem exists_eq_succ {a b : Nat} (h : a + 1 = b) : ∃ b', b = b' + 1 ∧ a = b' :=
  ⟨a, h.symm, rfl⟩

/-- A relation that the steps of parsers respect. -/
structure Correspondence (m n : Type → Type) [Monad m] [Steps m] [Monad n] [Steps n] where
  rel {α : Type} : m α → n α → Prop
  /-- What is known of items that each take a token. -/
  taking {α : Type} : m (Option α) → Prop
  allows : Nat → Nat → Prop
  pure {α : Type} (a : α) : rel (pure a) (pure a)
  bind {α β : Type} {x : m α} {y : n α} {f : α → m β} {g : α → n β} :
    rel x y → (∀ a, rel (f a) (g a)) → rel (x >>= f) (y >>= g)
  map {α β : Type} {x : m α} {y : n α} (f : α → β) : rel x y → rel (f <$> x) (f <$> y)
  check (kinds : List TokenKind) : rel (check kinds) (check kinds)
  accept (kinds : List TokenKind) : rel (accept kinds) (accept kinds)
  reportNext {fault : ParseFault} :
    fault.isMinor = true → rel (reportNext fault) (reportNext fault)
  fail {α : Type} (missing : Expectation) : rel (fail missing : m α) (fail missing)
  tooDeep {α : Type} : rel (tooDeep : m α) tooDeep
  behind {α β : Type} {x : m α} {y : n α} {fault : ParseFault} (kind : TokenKind)
    (use : α → Option β) : fault.isMinor = true → rel x y →
    rel (behind kind x use fault) (behind kind y use fault)
  upTo {α : Type} {item : m (Option α)} {item' : n (Option α)} (closing : List TokenKind) :
    taking item → rel item item' → rel (upTo closing item) (upTo closing item')
  repeating {α : Type} {step : Token → α → m α} {step' : Token → α → n α} (kinds : List TokenKind)
    (v : α) : (∀ t v, rel (step t v) (step' t v)) →
    rel (repeating kinds step v) (repeating kinds step' v)
  allows_zero {b : Nat} : allows 0 b → b = 0 ∨ ∀ {α : Type} (y : n α), rel Steps.tooDeep y
  allows_succ {a b : Nat} : allows (a + 1) b → ∃ b', b = b' + 1 ∧ allows a b'

namespace Correspondence

variable {m n : Type → Type} [Monad m] [Steps m] [Monad n] [Steps n] (R : Correspondence m n)
variable {α : Type}

theorem expect (kind : TokenKind) (missing : Expectation) :
    R.rel (expect kind missing) (expect kind missing) := by
  refine R.bind (R.accept [kind]) fun found => ?_
  cases found with
  | none => exact R.fail missing
  | some t => exact R.pure t

theorem inParentheses
    {item : m α}
    {item' : n α}
    {excess : ParseFault}
    (hexcess : excess.isMinor = true)
    (hitem : R.rel item item') :
    R.rel (inParentheses excess item) (inParentheses excess item') := by
  refine R.bind (R.check _) fun found => ?_
  cases found with
  | true => exact R.pure []
  | false =>
      refine R.bind hitem fun first => R.bind (R.repeating _ _ fun _ found => ?_) fun _ => R.pure _
      have hlast : ∀ u : PUnit, R.rel (item >>= fun x => Pure.pure (x :: found))
          (item' >>= fun x => Pure.pure (x :: found)) :=
        fun _ => R.bind hitem fun x => R.pure _
      dsimp only
      split
      · exact R.bind (R.reportNext hexcess) hlast
      · exact hlast ⟨⟩

section Expressions

variable {inner : m Expr} {inner' : n Expr} {operand : m Expr} {operand' : n Expr}

theorem joined (h : R.rel operand operand') (levels : List OperatorLevel) :
    R.rel (joined levels operand) (joined levels operand') := by
  induction levels with
  | nil => exact h
  | cons level tighter ih =>
      exact R.bind ih fun left => R.repeating _ _ fun operator left => R.map _ ih

theorem primary (h : R.rel inner inner') : R.rel (primary inner) (primary inner') := by
  refine R.bind (R.accept _) fun found => ?_
  cases found with
  | none => exact R.fail _
  | some t =>
      dsimp only
      split
      case h_4 => exact R.bind (R.expect _ _) fun _ => R.bind (R.expect _ _) fun _ => R.pure _
      case h_7 => exact R.bind h fun _ => R.bind (R.expect _ _) fun _ => R.pure _
      all_goals exact R.pure _

theorem postfixed (h : R.rel inner inner') : R.rel (postfixed inner) (postfixed inner') := by
  refine R.bind (R.primary h) fun _ => R.repeating _ _ fun t object => ?_
  split
  · exact R.bind (R.inParentheses rfl h) fun _ => R.bind (R.expect _ _) fun _ => R.pure _
  · exact R.bind (R.expect _ _) fun _ => R.pure _

theorem assignment (hoperand : R.rel operand operand') (h : R.rel inner inner') :
    R.rel (assignment operand inner) (assignment operand' inner') := by
  refine R.bind (R.joined hoperand _) fun target => R.bind (R.behind _ _ rfl h) fun result => ?_
  match result with
  | some (some _) => exact R.pure _
  | some none => exact R.pure _
  | none => exact R.pure _

mutual

theorem expression : ∀ {a b : Nat}, R.allows a b → R.rel (expression a : m Expr) (expression b)
  | 0, b, h => by
      rcases R.allows_zero h with rfl | hany
      · exact R.tooDeep
      · exact hany _
  | a + 1, b, h => by
      obtain ⟨b, rfl, hless⟩ := R.allows_succ h
      exact R.assignment (unary hless) (expression hless)

/-- Operands correspond, by induction on the depth that is left. -/
theorem unary : ∀ {a b : Nat}, R.allows a b → R.rel (unary a : m Expr) (unary b)
  | 0, b, h => by
      rcases R.allows_zero h with rfl | hany
      · exact R.tooDeep
      · exact hany _
  | a + 1, b, h => by
      obtain ⟨b, rfl, hless⟩ := R.allows_succ h
      refine R.bind (R.accept _) fun found => ?_
      cases found with
      | none => exact R.postfixed (expression hless)
      | some operator => exact R.bind (unary hless) fun _ => R.pure _

end

end Expressions

section Statements

variable {inner : m Expr} {inner' : n Expr} (hinner : R.rel inner inner')
variable {branch : m Stmt} {branch' : n Stmt} (hbranch : R.rel branch branch')
variable {item : m (Option Stmt)} {item' : n (Option Stmt)} (hitem : R.rel item item')
variable (htaking : R.taking item)

theorem parameters : R.rel (parameters : m (List Token)) parameters :=
  R.inParentheses rfl (R.expect _ _)

include hitem htaking in
theorem blockBody : R.rel (blockBody item) (blockBody item') :=
  R.bind (R.upTo _ htaking hitem) fun _ => R.bind (R.expect _ _) fun _ => R.pure _

include hitem htaking in
theorem routine (sort : RoutineSort) : R.rel (routine sort item) (routine sort item') :=
  R.bind (R.expect _ _) fun _ => R.bind (R.expect _ _) fun _ => R.bind R.parameters fun _ =>
    R.bind (R.expect _ _) fun _ => R.bind (R.expect _ _) fun _ =>
    R.bind (R.blockBody hitem htaking) fun _ => R.pure _

theorem superclass : R.rel (superclass : m (Option Expr)) superclass := by
  refine R.bind (R.accept _) fun found => ?_
  cases found with
  | none => exact R.pure none
  | some _ => exact R.bind (R.expect _ _) fun _ => R.pure _

include hitem htaking in
theorem classDeclaration
    (hmethod : R.taking (some <$> Steps.routine .method item)) :
    R.rel (classDeclaration item) (classDeclaration item') :=
  R.bind (R.expect _ _) fun _ => R.bind R.superclass fun _ => R.bind (R.expect _ _) fun _ =>
    R.bind (R.upTo _ hmethod (R.map some (R.routine hitem htaking .method))) fun _ =>
    R.bind (R.expect _ _) fun _ => R.pure _

include hinner

theorem initializer : R.rel (initializer inner) (initializer inner') := by
  refine R.bind (R.accept _) fun found => ?_
  cases found with
  | none => exact R.pure none
  | some _ => exact R.map some hinner

theorem variableDeclaration : R.rel (variableDeclaration inner) (variableDeclaration inner') :=
  R.bind (R.expect _ _) fun _ => R.bind (R.initializer hinner) fun _ =>
    R.bind (R.expect _ _) fun _ => R.pure _

theorem constantDeclaration : R.rel (constantDeclaration inner) (constantDeclaration inner') :=
  R.bind (R.expect _ _) fun _ => R.bind (R.initializer hinner) fun _ =>
    R.bind (R.expect _ _) fun _ => R.pure _

theorem expressionStatement : R.rel (expressionStatement inner) (expressionStatement inner') :=
  R.bind hinner fun _ => R.bind (R.expect _ _) fun _ => R.pure _

theorem unlessAt (closing : TokenKind) :
    R.rel (unlessAt closing inner) (unlessAt closing inner') := by
  refine R.bind (R.check _) fun found => ?_
  cases found with
  | true => exact R.pure none
  | false => exact R.map some hinner

theorem forInitializer : R.rel (forInitializer inner) (forInitializer inner') := by
  refine R.bind (R.accept _) fun found => ?_
  cases found with
  | none => exact R.map some (R.expressionStatement hinner)
  | some t =>
      dsimp only
      split
      · exact R.pure none
      · exact R.map some (R.variableDeclaration hinner)

theorem printStatement : R.rel (printStatement inner) (printStatement inner') :=
  R.bind hinner fun _ => R.bind (R.expect _ _) fun _ => R.pure _

theorem returnStatement (keyword : Token) :
    R.rel (returnStatement keyword inner) (returnStatement keyword inner') :=
  R.bind (R.unlessAt hinner _) fun _ => R.bind (R.expect _ _) fun _ => R.pure _

include hbranch

theorem forStatement : R.rel (forStatement inner branch) (forStatement inner' branch') :=
  R.bind (R.expect _ _) fun _ => R.bind (R.forInitializer hinner) fun _ =>
    R.bind (R.unlessAt hinner _) fun _ => R.bind (R.expect _ _) fun _ =>
    R.bind (R.unlessAt hinner _) fun _ => R.bind (R.expect _ _) fun _ =>
    R.bind hbranch fun _ => R.pure _

theorem ifStatement : R.rel (ifStatement inner branch) (ifStatement inner' branch') := by
  refine R.bind (R.expect _ _) fun _ => R.bind hinner fun _ => R.bind (R.expect _ _) fun _ =>
    R.bind hbranch fun _ => R.bind (R.accept _) fun found => ?_
  cases found with
  | none => exact R.pure _
  | some _ => exact R.bind hbranch fun _ => R.pure _

theorem whileStatement : R.rel (whileStatement inner branch) (whileStatement inner' branch') :=
  R.bind (R.expect _ _) fun _ => R.bind hinner fun _ => R.bind (R.expect _ _) fun _ =>
    R.bind hbranch fun _ => R.pure _

include hitem htaking

theorem statementOf : R.rel (statementOf inner branch item) (statementOf inner' branch' item') := by
  refine R.bind (R.accept _) fun found => ?_
  cases found with
  | none => exact R.expressionStatement hinner
  | some t =>
      dsimp only
      split
      · exact R.forStatement hinner hbranch
      · exact R.ifStatement hinner hbranch
      · exact R.printStatement hinner
      · exact R.returnStatement hinner t
      · exact R.whileStatement hinner hbranch
      · exact R.map _ (R.blockBody hitem htaking)

theorem declarationOf
    (hmethod : R.taking (some <$> Steps.routine .method item)) :
    R.rel (declarationOf inner branch item) (declarationOf inner' branch' item') := by
  refine R.bind (R.accept _) fun found => ?_
  cases found with
  | none => exact hbranch
  | some t =>
      dsimp only
      split
      · exact R.classDeclaration hitem htaking hmethod
      · exact R.map _ (R.routine hitem htaking .function)
      · exact R.constantDeclaration hinner
      · exact R.variableDeclaration hinner

end Statements

section Recovery

/-- Two ways to recover correspond, and declarations and methods take tokens with the first. -/
structure Recovery
    (recover : m Stmt → m (Option Stmt))
    (recover' : n Stmt → n (Option Stmt)) : Prop where
  rel {x : m Stmt} {y : n Stmt} : R.rel x y → R.rel (recover x) (recover' y)
  taking_declaration (a : Nat) : R.taking (Steps.declaration recover a)
  taking_method (a : Nat) :
    R.taking (some <$> Steps.routine .method (Steps.declaration recover a))

variable {R} {recover : m Stmt → m (Option Stmt)} {recover' : n Stmt → n (Option Stmt)}
variable (h : R.Recovery recover recover')

namespace Recovery

include h

mutual

/-- Declarations correspond, by induction on the depth that is left. -/
theorem declaration :
    ∀ {a b : Nat}, R.allows a b →
      R.rel (Steps.declaration recover a) (Steps.declaration recover' b)
  | 0, b, hallows => by
      rcases R.allows_zero hallows with rfl | hany
      · exact R.tooDeep
      · exact hany _
  | a + 1, b, hallows => by
      obtain ⟨b, rfl, hless⟩ := R.allows_succ hallows
      exact h.rel (R.declarationOf (R.expression hless) (statement hless) (declaration hless)
        (h.taking_declaration a) (h.taking_method a))

/-- Statements correspond, together with declarations. -/
theorem statement :
    ∀ {a b : Nat}, R.allows a b → R.rel (Steps.statement recover a) (Steps.statement recover' b)
  | 0, b, hallows => by
      rcases R.allows_zero hallows with rfl | hany
      · exact R.tooDeep
      · exact hany _
  | a + 1, b, hallows => by
      obtain ⟨b, rfl, hless⟩ := R.allows_succ hallows
      exact R.statementOf (R.expression hless) (statement hless) (declaration hless)
        (h.taking_declaration a)

end

/-- Programs correspond as their declarations do. -/
theorem program {a b : Nat} (hallows : R.allows a b) :
    R.rel (Steps.program recover a) (Steps.program recover' b) :=
  R.upTo _ (h.taking_declaration a) (declaration h hallows)

end Recovery

end Recovery

end Correspondence
end Steps
end Lox
