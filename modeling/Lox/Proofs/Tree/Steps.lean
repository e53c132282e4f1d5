import Lox.Proofs.Tree.Joined
import Lox.Tree.Parse.Steps

/-!
# The parser in terms of its steps

The parser is the one that is made of its own steps.  Its loops are bounded by the tokens ahead and
build their results in different ways; each of them repeats a step as long as tokens of some kinds
follow.

**Results.**
* `Parser.steps_expression`, `Parser.steps_declarationOf`: parsers that do not recover.
* `Parser.steps_declaration`, `Parser.steps_program`: the parser, which recovers.
-/

namespace Lox
namespace Parser

variable {α β : Type}

/-- A loop that goes on as long as a token of some kinds follows repeats its step. -/
theorem Continues.eq_map_repeatOnto
    {loop : List Token → α → Parser β}
    {kinds : List TokenKind}
    {step : Token → α → Parser α}
    {result : α → β}
    (h : Continues loop kinds step result)
    (bound : List Token)
    (v : α) :
    loop bound v = result <$> repeatOnto kinds step bound v := by
  induction bound generalizing v with
  | nil => rw [h.nil, repeatOnto, map_pure]
  | cons t bound ih =>
      rw [h.cons, repeatOnto, map_bind]
      congr 1
      funext next
      cases next with
      | none => exact (map_pure result v).symm
      | some t =>
          rw [map_bind]
          exact congrArg (step t v >>= ·) (funext fun v => ih v)

@[simp] theorem steps_expect (kind : TokenKind) (missing : Expectation) :
    (Steps.expect kind missing : Parser Token) = expect kind missing := rfl

theorem collectSeparated_eq_repeatOnto
    (excess : ParseFault)
    (item : Parser α)
    (bound : List Token)
    (found : List α) :
    collectSeparated excess item bound found.length found =
      List.reverse <$> repeatOnto [.comma] (fun _ found => do
        if mostArguments ≤ found.length then
          report excess (← peek)
        let x ← item
        pure (x :: found)) bound found := by
  induction bound generalizing found with
  | nil => rw [collectSeparated, repeatOnto, map_pure]
  | cons t bound ih =>
      rw [collectSeparated, repeatOnto, map_bind]
      congr 1
      funext next
      cases next with
      | none => exact (map_pure List.reverse found).symm
      | some comma =>
          have hnext : ∀ x, collectSeparated excess item bound (found.length + 1) (x :: found) =
              List.reverse <$> repeatOnto [.comma] _ bound (x :: found) :=
            fun x => ih (x :: found)
          dsimp only
          split <;> simp only [map_bind, bind_assoc, pure_bind, hnext]

@[simp] theorem steps_inParentheses (excess : ParseFault) (item : Parser α) :
    Steps.inParentheses excess item = inParentheses excess item := by
  have hloop : ∀ first : α,
      (bounded fun bound => collectSeparated excess item bound 1 [first]) = _ :=
    fun first => congrArg bounded (funext fun bound =>
      collectSeparated_eq_repeatOnto excess item bound [first])
  rw [Steps.inParentheses, inParentheses]
  simp only [hloop, map_eq_pure_bind]
  rfl

@[simp] theorem steps_joined (levels : List OperatorLevel) (operand : Parser Expr) :
    Steps.joined levels operand = joined levels operand := by
  induction levels with
  | nil => rfl
  | cons level tighter ih =>
      rw [Steps.joined, joined, ih]
      congr 1
      funext left
      refine congrArg bounded (funext fun bound => ?_)
      rw [(chainOnto_continues level _).eq_map_repeatOnto, id_map]

@[simp] theorem steps_primary (inner : Parser Expr) : Steps.primary inner = primary inner := by
  funext ⟨ahead, errors⟩
  cases ahead with
  | nil => rfl
  | cons t rest =>
      cases hkind : t.kind <;>
        simp [Steps.primary, primary, Steps.accept, Steps.primaryStarts, accept, peek, advance,
          bind, EStateM.bind, hkind] <;> rfl

@[simp] theorem steps_postfixed (inner : Parser Expr) :
    Steps.postfixed inner = postfixed inner := by
  rw [Steps.postfixed, postfixed, steps_primary]
  congr 1
  funext object
  refine congrArg bounded (funext fun bound => ?_)
  rw [(postfixOnto_continues inner).eq_map_repeatOnto, id_map]
  simp only [steps_inParentheses, steps_expect]
  rfl

@[simp] theorem steps_assignment (operand value : Parser Expr) :
    Steps.assignment operand value = assignment operand value := by
  rw [Steps.assignment, assignment, steps_joined]
  congr 1
  funext target
  simp only [Steps.behind, behind, bind_assoc]
  congr 1
  funext found
  cases found with
  | none => rfl
  | some equals =>
      simp only [bind_assoc]
      congr 1
      funext v
      cases target.assignment? v <;> rfl

mutual

@[simp] theorem steps_expression : ∀ a : Nat, Steps.expression a = expression a
  | 0 => rfl
  | a + 1 => by
      rw [Steps.expression, expression, steps_assignment, steps_unary a, steps_expression a]

@[simp] theorem steps_unary : ∀ a : Nat, Steps.unary a = unary a
  | 0 => rfl
  | a + 1 => by
      rw [Steps.unary, unary, steps_postfixed, steps_unary a, steps_expression a]
      rfl

end

section Statements

variable (inner : Parser Expr) (branch : Parser Stmt) (item : Parser (Option Stmt))

@[simp] theorem steps_routine (sort : RoutineSort) :
    Steps.routine sort item = routine sort item := by
  simp only [Steps.routine, Steps.parameters, steps_inParentheses, steps_expect]
  rfl

@[simp] theorem steps_classDeclaration :
    Steps.classDeclaration item = classDeclaration item := by
  simp only [Steps.classDeclaration, steps_routine]
  rfl

@[simp] theorem steps_statementOf :
    Steps.statementOf inner branch item = statementOf inner branch item := rfl

@[simp] theorem steps_declarationOf :
    Steps.declarationOf inner branch item = declarationOf inner branch item := by
  simp only [Steps.declarationOf, steps_classDeclaration, steps_routine]
  rfl

end Statements

mutual

@[simp] theorem steps_declaration : ∀ a : Nat, Steps.declaration recovering a = declaration a
  | 0 => rfl
  | a + 1 => by
      rw [Steps.declaration, declaration, steps_declarationOf, steps_expression, steps_statement a,
        steps_declaration a]

@[simp] theorem steps_statement : ∀ a : Nat, Steps.statement recovering a = statement a
  | 0 => rfl
  | a + 1 => by
      rw [Steps.statement, statement, steps_statementOf, steps_expression, steps_statement a,
        steps_declaration a]

end

@[simp] theorem steps_program (a : Nat) : Steps.program recovering a = program a := by
  rw [Steps.program, steps_declaration]
  rfl

end Parser
end Lox
