import Lox.Machine.Evaluate

/-!
# Running programs with returns that unwind

A return can be taken to leave everything around it at once, up to the call.  Then blocks, branches
and loops know nothing of returns: they run one thing after the other, and the first return that is
executed ends all of them.  The call receives its value.

The definitions are those of `Code.evaluate` and `Code.execute` for a run proper, with a return as
an exception in place of a completion that every statement passes on.
-/

namespace Lox

/-- Code that a return leaves at once, with its value. -/
abbrev Unwinding := ExceptT Value Run

namespace Unwinding

open Code Run

/-- Code without a return of its own. -/
def plain {α : Type} (x : Run α) : Unwinding α :=
  ExceptT.lift x

/-- Leaves all code up to the call. -/
def leave (value : Value) : Unwinding Unit :=
  throwThe Value value

/-- The value of the return that has left some code, if one has. -/
def received (x : Unwinding Unit) : Run Completion := do
  match ← x.run with
  | .ok () => pure none
  | .error value => pure (some value)

/-- Executes statements one after the other. -/
def sequence (step : Stmt → Unwinding Unit) : List Stmt → Unwinding Unit
  | [] => pure ()
  | s :: rest => do
      step s
      sequence step rest

/-- Repeats a body while a condition holds. -/
def loop (condition : Run Value) (body : Unwinding Unit) : Nat → Unwinding Unit
  | 0 => plain (throw .unfinished)
  | rounds + 1 => do
      if (← plain condition).isTruthy then
        body
        loop condition body rounds
      else
        pure ()

mutual

/-- Evaluates an expression in a frame. -/
def evaluate (rounds : Nat) : Nat → FrameId → Expr → Run Value
  | 0, _, _ => overflow
  | room + 1, frame, e =>
      match e with
      | .literal value => pure value.toValue
      | .grouping inner => evaluate rounds room frame inner
      | .unary operator operand => do
          let value ← evaluate rounds room frame operand
          ofExcept operator (value.unary operator)
      | .binary left operator right => do
          let l ← evaluate rounds room frame left
          let r ← evaluate rounds room frame right
          ofExcept operator (l.binary operator r)
      | .logical left operator right => do
          let l ← evaluate rounds room frame left
          if l.decides operator then pure l else evaluate rounds room frame right
      | .read target => readName frame target.name target.link
      | .readConstant target => readName frame target.name target.link
      | .assign target value => assign frame target (evaluate rounds room frame value)
      | .call callee closing arguments => do
          let f ← evaluate rounds room frame callee
          let vs ← values (evaluate rounds room frame) arguments
          call (fun inner body => received (sequence (execute rounds room inner) body)) f vs closing
      | .get object name => do
          let o ← evaluate rounds room frame object
          getProperty o name
      | .set object name value => do
          let o ← evaluate rounds room frame object
          setProperty o name (evaluate rounds room frame value)
      | .this keyword link => readName frame keyword link
      | .super keyword method link => getInherited frame keyword method link

/-- Executes a statement in a frame. -/
def execute (rounds : Nat) : Nat → FrameId → Stmt → Unwinding Unit
  | 0, _, _ => plain overflow
  | room + 1, frame, s =>
      match s with
      | .block body => do
          let inner ← plain (openFrame (.block body) frame [])
          sequence (execute rounds room inner) body
      | .funDecl declaration => plain (declareFunction frame declaration)
      | .classDecl name parent methods => do
          let superclass ← plain (superclassOf (evaluate rounds room frame) name parent)
          plain (declareClass frame name superclass methods)
      | .varDecl name initializer => do
          let value ← plain (orNil (evaluate rounds room frame) initializer)
          plain (bindDeclared frame name value false)
      | .constDecl name initializer => do
          let value ← plain (orNil (evaluate rounds room frame) initializer)
          plain (bindDeclared frame name value true)
      | .exprStmt expression => do
          let _ ← plain (evaluate rounds room frame expression)
          pure ()
      | .ifStmt condition thenBranch elseBranch => do
          if (← plain (evaluate rounds room frame condition)).isTruthy then
            execute rounds room frame thenBranch
          else
            match elseBranch with
            | some other => execute rounds room frame other
            | none => pure ()
      | .printStmt expression => do
          let value ← plain (evaluate rounds room frame expression)
          plain (print value.text)
      | .returnStmt _ value => do
          let value ← plain (orNil (evaluate rounds room frame) value)
          leave value
      | .whileStmt condition body =>
          loop (evaluate rounds room frame condition) (execute rounds room frame body) rounds

end

/--
Runs the body of a function in a new frame that binds the parameters.  The result is the value of
the first return that is executed, if there is one.
-/
def runBody (rounds room : Nat) (f : Closure) (arguments : List Value) : Run Completion := do
  let names := f.declaration.parameters.map Token.lexeme
  let frame ← openFrame (.call f.declaration) f.frame (names.zip arguments)
  received (sequence (execute rounds room frame) f.declaration.body)

end Unwinding
end Lox
