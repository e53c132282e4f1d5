import Lox.Machine.Watch

/-!
# Running programs

Expressions are evaluated to values and statements are executed, both in a frame.  The frame is an
argument, so it is the same after a piece of code as before it, however that code ends.

The definitions are given for every monad in which code can run; `Run.evaluate` and `Run.execute`
are runs proper.

**Bounds.**  Two numbers keep every run finite.  The room bounds how deeply evaluations, executions
and calls are nested; a program that needs more of it ends with a stack overflow.  The rounds bound
how often one loop repeats its body; they stand for no limit of the language, and a run that is not
interrupted as unfinished is the same for every greater number.
-/

namespace Lox
namespace Code

open Watch Run

variable {M : Type → Type} [Watch M]

/-- Executes statements up to the first that returns. -/
@[specialize]
def untilReturn (step : Stmt → M Completion) : List Stmt → M Completion
  | [] => pure none
  | s :: rest => do
      match ← step s with
      | some value => pure (some value)
      | none => untilReturn step rest

/-- Executes all statements; at the top level a return means nothing. -/
@[specialize]
def each (step : Stmt → M Completion) : List Stmt → M Unit
  | [] => pure ()
  | s :: rest => do
      let _ ← step s
      each step rest

/-- Evaluates expressions from left to right. -/
@[specialize]
def values (evaluate : Expr → M Value) : List Expr → M (List Value)
  | [] => pure []
  | e :: rest => do
      let value ← evaluate e
      let others ← values evaluate rest
      pure (value :: others)

/-- Evaluates an expression that may be absent. -/
@[specialize]
def orNil (evaluate : Expr → M Value) : Option Expr → M Value
  | none => pure .nil
  | some e => evaluate e

/-- Repeats a body while a condition holds and the body does not return. -/
@[specialize]
def repeating (condition : M Value) (body : M Completion) : Nat → M Completion
  | 0 => perform (throw .unfinished)
  | rounds + 1 => do
      if (← condition).isTruthy then
        match ← body with
        | some value => pure (some value)
        | none => repeating condition body rounds
      else
        pure none

/-- Opens a frame inside another, with the variables that it binds from the start. -/
@[specialize]
def openFrame
    (opening : Opening)
    (enclosing : FrameId)
    (bindings : List (String × Value)) : M FrameId := do
  note (.opens opening)
  perform (newFrame enclosing bindings)

/-- Binds the name of a declaration in the frame in which it is executed. -/
@[specialize]
def bindDeclared (frame : FrameId) (name : Token) (value : Value) (constant : Bool) : M Unit := do
  note (.binds frame name.lexeme constant)
  perform (define frame name.lexeme value constant)

/-- Makes the function that a method is for one instance: its frame binds `this`. -/
@[specialize]
def bindMethod (method : Method) (id : InstanceId) (c : ClassObject) : M Closure := do
  let frame ← openFrame .receiver method.frame [("this", .object id c)]
  let serial ← perform newSerial
  pure ⟨serial, method.declaration, frame, method.declaration.isInitializer⟩

/--
Calls a function whose body is run by `body`.  Parameters and body share a new frame.  An
initializer yields its instance, and every other function what it returns, or `nil`.
-/
@[specialize]
def callFunction
    (body : FrameId → List Stmt → M Completion)
    (f : Closure)
    (arguments : List Value) : M Value := do
  let names := f.declaration.parameters.map Token.lexeme
  let frame ← openFrame (.call f.declaration) f.frame (names.zip arguments)
  let completion ← body frame f.declaration.body
  if f.isInitializer then
    perform (getAt f.frame 0 "this" f.declaration.name)
  else
    pure (completion.getD .nil)

/-- Makes an instance and runs the initializer of its class, if there is one. -/
@[specialize]
def instantiate
    (body : FrameId → List Stmt → M Completion)
    (c : ClassObject)
    (arguments : List Value) : M Value := do
  let (id, c) ← perform (newInstance c)
  match c.method? initializerName with
  | none => pure (.object id c)
  | some method => do
      let initializer ← bindMethod method id c
      let _ ← callFunction body initializer arguments
      pure (.object id c)

/-- Calls a value that can be called. -/
@[specialize]
def applyValue
    (body : FrameId → List Stmt → M Completion)
    (callee : Value)
    (arguments : List Value)
    (place : Token) : M Value :=
  match callee with
  | .native .clock => do
      let reading ← perform readClock
      pure (.number reading)
  | .function f => callFunction body f arguments
  | .classObject c => instantiate body c arguments
  | _ => perform (fail .notCallable place)

/-- Calls a value: it must be callable, and the number of arguments must be the right one. -/
@[specialize]
def call
    (body : FrameId → List Stmt → M Completion)
    (callee : Value)
    (arguments : List Value)
    (place : Token) : M Value :=
  match callee.arity? with
  | none => perform (fail .notCallable place)
  | some arity =>
      if arguments.length == arity then
        applyValue body callee arguments place
      else
        perform (fail (.wrongArgumentCount arity arguments.length) place)

/-- A property of a value: a field, or else a method for this instance. -/
@[specialize]
def getProperty (object : Value) (name : Token) : M Value := do
  match object with
  | .object id c =>
      match ← perform (field? id name.lexeme) with
      | some value => pure value
      | none =>
          match c.method? name.lexeme with
          | some method => .function <$> bindMethod method id c
          | none => perform (fail (.undefinedProperty name.lexeme) name)
  | _ => perform (fail .propertyOfNonInstance name)

/--
A method of the superclass for the present instance.  The frame that binds `this` lies one step
inside the frame that binds `super`.
-/
@[specialize]
def getInherited (frame : FrameId) (keyword method : Token) (link : Link) : M Value := do
  match link.depth with
  | none => perform (fail .superWithoutClass keyword)
  | some distance =>
      match ← perform (getAt frame distance "super" keyword) with
      | .classObject parent =>
          match ← perform (getAt frame (distance - 1) "this" keyword) with
          | .object id c =>
              match parent.method? method.lexeme with
              | some found => .function <$> bindMethod found id c
              | none => perform (fail (.undefinedProperty method.lexeme) method)
          | _ => perform (fail .thisNotInstance keyword)
      | _ => perform (fail .superclassNotClass keyword)

/-- The superclass in the declaration of a class; its value must be a class. -/
@[specialize]
def superclassOf
    (evaluate : Expr → M Value)
    (name : Token) : Option Expr → M (Option ClassObject)
  | none => pure none
  | some parent => do
      match ← evaluate parent with
      | .classObject c => pure (some c)
      | _ => perform (fail .superclassNotClass (parent.name?.getD name))

/-- The frame in which methods are made: if there is a superclass, one that binds `super`. -/
@[specialize]
def methodFrame
    (frame : FrameId)
    (name : Token)
    (methods : List FunctionDecl) : Option ClassObject → M FrameId
  | none => pure frame
  | some parent => openFrame (.superclass name methods) frame [("super", .classObject parent)]

/-- Declares a class.  Its name is bound to `nil` until the class is complete. -/
@[specialize]
def declareClass
    (frame : FrameId)
    (name : Token)
    (superclass : Option ClassObject)
    (methods : List FunctionDecl) : M Unit := do
  bindDeclared frame name .nil false
  let inner ← methodFrame frame name methods superclass
  let serial ← perform newSerial
  let layer : ClassLayer := ⟨serial, name.lexeme, methods, inner⟩
  perform (reassign frame name (.classObject (layer.extending superclass)))

/-- Declares a function. -/
@[specialize]
def declareFunction (frame : FrameId) (declaration : FunctionDecl) : M Unit := do
  let serial ← perform newSerial
  bindDeclared frame declaration.name (.function ⟨serial, declaration, frame, false⟩) false

/-- Assigns to a name: a constant is refused before the value is evaluated. -/
@[specialize]
def assign (frame : FrameId) (target : Reference) (value : M Value) : M Value := do
  if ← perform (isConstant target) then
    perform (fail .assignmentToConstant target.name)
  else
    let v ← value
    perform (assignName frame target v)
    pure v

/-- Sets a field of an instance; the value is evaluated after the object. -/
@[specialize]
def setProperty (object : Value) (name : Token) (value : M Value) : M Value := do
  match object with
  | .object id _ => do
      let v ← value
      perform (setField id name.lexeme v)
      pure v
  | _ => perform (fail .fieldOfNonInstance name)

mutual

/-- Evaluates an expression in a frame. -/
@[specialize]
def evaluate (rounds : Nat) : Nat → FrameId → Expr → M Value
  | 0, _, _ => perform overflow
  | room + 1, frame, e => do
      note (.evaluates frame e)
      match e with
      | .literal value => pure value.toValue
      | .grouping inner => evaluate rounds room frame inner
      | .unary operator operand => do
          let value ← evaluate rounds room frame operand
          perform (ofExcept operator (value.unary operator))
      | .binary left operator right => do
          let l ← evaluate rounds room frame left
          let r ← evaluate rounds room frame right
          perform (ofExcept operator (l.binary operator r))
      | .logical left operator right => do
          let l ← evaluate rounds room frame left
          if l.decides operator then pure l else evaluate rounds room frame right
      | .read target => perform (readName frame target.name target.link)
      | .readConstant target => perform (readName frame target.name target.link)
      | .assign target value => assign frame target (evaluate rounds room frame value)
      | .call callee closing arguments => do
          let f ← evaluate rounds room frame callee
          let vs ← values (evaluate rounds room frame) arguments
          call (fun inner => untilReturn (execute rounds room inner)) f vs closing
      | .get object name => do
          let o ← evaluate rounds room frame object
          getProperty o name
      | .set object name value => do
          let o ← evaluate rounds room frame object
          setProperty o name (evaluate rounds room frame value)
      | .this keyword link => perform (readName frame keyword link)
      | .super keyword method link => getInherited frame keyword method link

/-- Executes a statement in a frame. -/
@[specialize]
def execute (rounds : Nat) : Nat → FrameId → Stmt → M Completion
  | 0, _, _ => perform overflow
  | room + 1, frame, s =>
      match s with
      | .block body => do
          let inner ← openFrame (.block body) frame []
          untilReturn (execute rounds room inner) body
      | .funDecl declaration => do
          declareFunction frame declaration
          pure none
      | .classDecl name parent methods => do
          let superclass ← superclassOf (evaluate rounds room frame) name parent
          declareClass frame name superclass methods
          pure none
      | .varDecl name initializer => do
          let value ← orNil (evaluate rounds room frame) initializer
          bindDeclared frame name value false
          pure none
      | .constDecl name initializer => do
          let value ← orNil (evaluate rounds room frame) initializer
          bindDeclared frame name value true
          pure none
      | .exprStmt expression => do
          let _ ← evaluate rounds room frame expression
          pure none
      | .ifStmt condition thenBranch elseBranch => do
          if (← evaluate rounds room frame condition).isTruthy then
            execute rounds room frame thenBranch
          else
            match elseBranch with
            | some other => execute rounds room frame other
            | none => pure none
      | .printStmt expression => do
          let value ← evaluate rounds room frame expression
          perform (print value.text)
          pure none
      | .returnStmt _ value => some <$> orNil (evaluate rounds room frame) value
      | .whileStmt condition body =>
          repeating (evaluate rounds room frame condition) (execute rounds room frame body) rounds

end

end Code

namespace Run

/-- Evaluates an expression in a frame. -/
def evaluate (rounds room : Nat) (frame : FrameId) (e : Expr) : Run Value :=
  Code.evaluate rounds room frame e

/-- Executes a statement in a frame. -/
def execute (rounds room : Nat) (frame : FrameId) (s : Stmt) : Run Completion :=
  Code.execute rounds room frame s

end Run
end Lox
