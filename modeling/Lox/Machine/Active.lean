import Lox.Machine.Evaluate

/-!
# Running programs with an active frame

The frame in which code runs can be kept in the state, as the active frame, and changed whenever a
block is entered or a function is called.  The frame that was active before is put back when the
block or the function is left, also if an error stops it.

Code looks at the active frame at the moment at which it uses the frame; a value that is evaluated
first could have left another frame active.
-/

namespace Lox

/-- A machine with its active frame. -/
structure Active where
  machine : Machine
  frame : FrameId

abbrev ActiveRun := EStateM Interrupt Active

namespace ActiveRun

variable {α : Type}

/-- Code that works on the machine and leaves the active frame alone. -/
def onMachine (x : Run α) : ActiveRun α :=
  fun a =>
    match x a.machine with
    | .ok value m => .ok value { a with machine := m }
    | .error interrupt m => .error interrupt { a with machine := m }

instance : Watch ActiveRun where
  perform := onMachine
  note _ := pure ()

/-- The active frame. -/
def current : ActiveRun FrameId :=
  fun a => .ok a.frame a

/-- Runs code in another frame.  The frame before is active again, however the code ends. -/
def within (frame : FrameId) (x : ActiveRun α) : ActiveRun α :=
  fun a =>
    match x { a with frame := frame } with
    | .ok value b => .ok value { b with frame := a.frame }
    | .error interrupt b => .error interrupt { b with frame := a.frame }

/-- The machine and its active frame after code that may have been interrupted. -/
def final (x : ActiveRun α) (a : Active) : Active :=
  match x a with
  | .ok _ b => b
  | .error _ b => b

open Watch Code

mutual

/-- Evaluates an expression in the active frame. -/
def evaluate (rounds : Nat) : Nat → Expr → ActiveRun Value
  | 0, _ => perform Run.overflow
  | room + 1, e =>
      match e with
      | .literal value => pure value.toValue
      | .grouping inner => evaluate rounds room inner
      | .unary operator operand => do
          let value ← evaluate rounds room operand
          perform (Run.ofExcept operator (value.unary operator))
      | .binary left operator right => do
          let l ← evaluate rounds room left
          let r ← evaluate rounds room right
          perform (Run.ofExcept operator (l.binary operator r))
      | .logical left operator right => do
          let l ← evaluate rounds room left
          if l.decides operator then pure l else evaluate rounds room right
      | .read target => do
          perform (Run.readName (← current) target.name target.link)
      | .readConstant target => do
          perform (Run.readName (← current) target.name target.link)
      | .assign target value => do
          if ← perform (Run.isConstant target) then
            perform (Run.fail .assignmentToConstant target.name)
          else
            let v ← evaluate rounds room value
            perform (Run.assignName (← current) target v)
            pure v
      | .call callee closing arguments => do
          let f ← evaluate rounds room callee
          let vs ← values (evaluate rounds room) arguments
          call (fun inner ss => within inner (untilReturn (execute rounds room) ss)) f vs closing
      | .get object name => do
          let o ← evaluate rounds room object
          getProperty o name
      | .set object name value => do
          let o ← evaluate rounds room object
          setProperty o name (evaluate rounds room value)
      | .this keyword link => do
          perform (Run.readName (← current) keyword link)
      | .super keyword method link => do
          getInherited (← current) keyword method link

/-- Executes a statement in the active frame. -/
def execute (rounds : Nat) : Nat → Stmt → ActiveRun Completion
  | 0, _ => perform Run.overflow
  | room + 1, s =>
      match s with
      | .block body => do
          let inner ← openFrame (.block body) (← current) []
          within inner (untilReturn (execute rounds room) body)
      | .funDecl declaration => do
          declareFunction (← current) declaration
          pure none
      | .classDecl name parent methods => do
          let superclass ← superclassOf (evaluate rounds room) name parent
          declareClass (← current) name superclass methods
          pure none
      | .varDecl name initializer => do
          let value ← orNil (evaluate rounds room) initializer
          bindDeclared (← current) name value false
          pure none
      | .constDecl name initializer => do
          let value ← orNil (evaluate rounds room) initializer
          bindDeclared (← current) name value true
          pure none
      | .exprStmt expression => do
          let _ ← evaluate rounds room expression
          pure none
      | .ifStmt condition thenBranch elseBranch => do
          if (← evaluate rounds room condition).isTruthy then
            execute rounds room thenBranch
          else
            match elseBranch with
            | some other => execute rounds room other
            | none => pure none
      | .printStmt expression => do
          let value ← evaluate rounds room expression
          perform (Run.print value.text)
          pure none
      | .returnStmt _ value => some <$> orNil (evaluate rounds room) value
      | .whileStmt condition body =>
          repeating (evaluate rounds room condition) (execute rounds room body) rounds

end

/-- Runs a program.  After an error the global frame is active again. -/
def interpret (rounds room : Nat) (program : List Stmt) : ActiveRun Unit :=
  fun a =>
    match each (execute rounds room) program a with
    | .ok _ b => .ok () b
    | .error (.error e) b => .error (.error e) { b with frame := globalFrame }
    | .error interrupt b => .error interrupt b

end ActiveRun
end Lox
