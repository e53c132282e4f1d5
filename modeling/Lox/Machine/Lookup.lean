import Lox.Machine.Evaluate

/-!
# Running programs with links in tables

What is known about the frame of a reference can be kept apart from the tree.  Then the tree holds
something in place of the link, and code looks the link up whenever it comes to the reference.

The definitions are those of `Code.evaluate` and `Code.execute` for a run proper, with a function
that looks links up; `Run.evaluateBy_id` and `Run.executeBy_id` say so for links that stand in the
tree.
-/

namespace Lox
namespace Run

open Code

mutual

/-- Evaluates an expression in a frame, with the links of its references looked up. -/
def evaluateBy (look : Link → Link) (rounds : Nat) : Nat → FrameId → Expr → Run Value
  | 0, _, _ => overflow
  | room + 1, frame, e =>
      match e with
      | .literal value => pure value.toValue
      | .grouping inner => evaluateBy look rounds room frame inner
      | .unary operator operand => do
          let value ← evaluateBy look rounds room frame operand
          ofExcept operator (value.unary operator)
      | .binary left operator right => do
          let l ← evaluateBy look rounds room frame left
          let r ← evaluateBy look rounds room frame right
          ofExcept operator (l.binary operator r)
      | .logical left operator right => do
          let l ← evaluateBy look rounds room frame left
          if l.decides operator then pure l else evaluateBy look rounds room frame right
      | .read target => readName frame target.name (look target.link)
      | .readConstant target => readName frame target.name (look target.link)
      | .assign target value =>
          assign frame ⟨target.name, look target.link⟩ (evaluateBy look rounds room frame value)
      | .call callee closing arguments => do
          let f ← evaluateBy look rounds room frame callee
          let vs ← values (evaluateBy look rounds room frame) arguments
          call (fun inner => untilReturn (executeBy look rounds room inner)) f vs closing
      | .get object name => do
          let o ← evaluateBy look rounds room frame object
          getProperty o name
      | .set object name value => do
          let o ← evaluateBy look rounds room frame object
          setProperty o name (evaluateBy look rounds room frame value)
      | .this keyword link => readName frame keyword (look link)
      | .super keyword method link => getInherited frame keyword method (look link)

/-- Executes a statement in a frame, with the links of its references looked up. -/
def executeBy (look : Link → Link) (rounds : Nat) : Nat → FrameId → Stmt → Run Completion
  | 0, _, _ => overflow
  | room + 1, frame, s =>
      match s with
      | .block body => do
          let inner ← openFrame (.block body) frame []
          untilReturn (executeBy look rounds room inner) body
      | .funDecl declaration => do
          declareFunction frame declaration
          pure none
      | .classDecl name parent methods => do
          let superclass ← superclassOf (evaluateBy look rounds room frame) name parent
          declareClass frame name superclass methods
          pure none
      | .varDecl name initializer => do
          let value ← orNil (evaluateBy look rounds room frame) initializer
          bindDeclared frame name value false
          pure none
      | .constDecl name initializer => do
          let value ← orNil (evaluateBy look rounds room frame) initializer
          bindDeclared frame name value true
          pure none
      | .exprStmt expression => do
          let _ ← evaluateBy look rounds room frame expression
          pure none
      | .ifStmt condition thenBranch elseBranch => do
          if (← evaluateBy look rounds room frame condition).isTruthy then
            executeBy look rounds room frame thenBranch
          else
            match elseBranch with
            | some other => executeBy look rounds room frame other
            | none => pure none
      | .printStmt expression => do
          let value ← evaluateBy look rounds room frame expression
          print value.text
          pure none
      | .returnStmt _ value => some <$> orNil (evaluateBy look rounds room frame) value
      | .whileStmt condition body =>
          repeating (evaluateBy look rounds room frame condition)
            (executeBy look rounds room frame body) rounds

end

mutual

/-- Links that stand in the tree need not be looked up. -/
theorem evaluateBy_id
    (rounds room : Nat)
    (frame : FrameId)
    (e : Expr) :
    evaluateBy id rounds room frame e = evaluate rounds room frame e := by
  match room with
  | 0 => rfl
  | room + 1 =>
      have ihE : evaluateBy id rounds room = Code.evaluate rounds room := by
        funext frame e
        exact evaluateBy_id rounds room frame e
      have ihS : executeBy id rounds room = Code.execute rounds room := by
        funext frame s
        exact executeBy_id rounds room frame s
      unfold Run.evaluate
      cases e <;> simp only [evaluateBy, Code.evaluate, ihE, ihS, id] <;> rfl

theorem executeBy_id
    (rounds room : Nat)
    (frame : FrameId)
    (s : Stmt) :
    executeBy id rounds room frame s = execute rounds room frame s := by
  match room with
  | 0 => rfl
  | room + 1 =>
      have ihE : evaluateBy id rounds room = Code.evaluate rounds room := by
        funext frame e
        exact evaluateBy_id rounds room frame e
      have ihS : executeBy id rounds room = Code.execute rounds room := by
        funext frame s
        exact executeBy_id rounds room frame s
      -- The right side is unfolded by `rfl` alone, so that each case is left for it.
      cases s <;> simp only [executeBy, ihE, ihS] <;> rfl

end

end Run
end Lox
