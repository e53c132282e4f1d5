import Lox.Machine.Evaluate

/-!
# Chronicles of runs

Running code says what it is about to do, but not what comes of it.  A chronicle tells of both: of
the acts of the code, of the classes and the methods that it makes, of the functions that it enters,
and of the values that its expressions and its calls come to.  Each of these deeds is told together
with the machine at that time.

The definitions are those of `Code.evaluate` and `Code.execute`, with deeds that are told on the
way.
-/

namespace Lox

/-- What happens in a run. -/
inductive Deed
  /-- Code says what it is about to do. -/
  | notes (act : Act)
  /-- A class has been made. -/
  | makes (c : ClassObject)
  /-- A function has been made of a method, for an instance of a class. -/
  | receives (f : Closure) (id : InstanceId) (c : ClassObject)
  /-- The frame of a function has been opened, and its body is about to run. -/
  | enters (f : Closure) (arguments : List Value) (frame : FrameId)
  /-- An expression has been evaluated. -/
  | yields (value : Value)
  /-- A call that began on a machine has come to a value. -/
  | answers (callee : Value) (arguments : List Value) (before : Machine) (value : Value)

structure Event where
  machine : Machine
  deed : Deed

/-- Events in the order of their time. -/
abbrev Chronicle := List Event

/-- A run that tells of its events. -/
def Chronicled (α : Type) : Type :=
  Machine → Chronicle × EStateM.Result Interrupt Machine α

namespace Chronicled

variable {α β : Type}

/-- Goes on after a result with the code that it is given to. -/
def andThen (x : Chronicled α) (f : α → Chronicled β) : Chronicled β :=
  fun m =>
    match (x m).2 with
    | .ok a m' => ((x m).1 ++ (f a m').1, (f a m').2)
    | .error interrupt m' => ((x m).1, .error interrupt m')

instance : Monad Chronicled where
  pure a := fun m => ([], .ok a m)
  bind := andThen

/-- Tells of something that has happened. -/
def tell (deed : Deed) : Chronicled Unit :=
  fun m => ([⟨m, deed⟩], .ok () m)

instance : Watch Chronicled where
  perform x := fun m => ([], x m)
  note act := tell (.notes act)

open Watch Run

/-- Evaluates something and tells of the value. -/
def yielding (x : Chronicled Value) : Chronicled Value := do
  let value ← x
  tell (.yields value)
  pure value

/-- Makes the function that a method is for one instance. -/
def bindMethod (method : Method) (id : InstanceId) (c : ClassObject) : Chronicled Closure := do
  let f ← Code.bindMethod method id c
  tell (.receives f id c)
  pure f

/-- Calls a function whose body is run by `body`, after it has been entered. -/
def callFunction
    (body : FrameId → List Stmt → Chronicled Completion)
    (f : Closure)
    (arguments : List Value) : Chronicled Value :=
  let entered := fun frame ss => do
    tell (.enters f arguments frame)
    body frame ss
  Code.callFunction entered f arguments

/-- Makes an instance and runs the initializer of its class, if there is one. -/
def instantiate
    (body : FrameId → List Stmt → Chronicled Completion)
    (c : ClassObject)
    (arguments : List Value) : Chronicled Value := do
  let (id, c) ← perform (newInstance c)
  match c.method? initializerName with
  | none => pure (.object id c)
  | some method => do
      let initializer ← bindMethod method id c
      let _ ← callFunction body initializer arguments
      pure (.object id c)

/-- Calls a value that can be called. -/
def applyValue
    (body : FrameId → List Stmt → Chronicled Completion)
    (callee : Value)
    (arguments : List Value)
    (place : Token) : Chronicled Value :=
  match callee with
  | .native .clock => do
      let reading ← perform readClock
      pure (.number reading)
  | .function f => callFunction body f arguments
  | .classObject c => instantiate body c arguments
  | _ => perform (fail .notCallable place)

/-- Calls a value: it must be callable, and the number of arguments must be the right one. -/
def attempt
    (body : FrameId → List Stmt → Chronicled Completion)
    (callee : Value)
    (arguments : List Value)
    (place : Token) : Chronicled Value :=
  match callee.arity? with
  | none => perform (fail .notCallable place)
  | some arity =>
      if arguments.length == arity then
        applyValue body callee arguments place
      else
        perform (fail (.wrongArgumentCount arity arguments.length) place)

/-- Calls a value and tells of the answer. -/
def call
    (body : FrameId → List Stmt → Chronicled Completion)
    (callee : Value)
    (arguments : List Value)
    (place : Token) : Chronicled Value := do
  let before ← perform get
  let value ← attempt body callee arguments place
  tell (.answers callee arguments before value)
  pure value

/-- A property of a value: a field, or else a method for this instance. -/
def getProperty (object : Value) (name : Token) : Chronicled Value := do
  match object with
  | .object id c =>
      match ← perform (field? id name.lexeme) with
      | some value => pure value
      | none =>
          match c.method? name.lexeme with
          | some method => .function <$> bindMethod method id c
          | none => perform (fail (.undefinedProperty name.lexeme) name)
  | _ => perform (fail .propertyOfNonInstance name)

/-- A method of the superclass for the present instance. -/
def getInherited (frame : FrameId) (keyword method : Token) (link : Link) : Chronicled Value := do
  match link.depth with
  | none => perform (fail .superWithoutClass keyword)
  | some distance =>
      match ← perform (getAt frame distance "super" keyword) with
      | .classObject parent =>
          match ← perform (getAt frame (distance - 1) "this" keyword) with
          | .object id c =>
              match parent.method? method.lexeme with
              | some found => .function <$> bindMethod found id c
              | none => perform (fail (.undefinedProperty method.lexeme) method)
          | _ => perform (fail .thisNotInstance keyword)
      | _ => perform (fail .superclassNotClass keyword)

/-- Declares a class, and tells of it before its name is bound to it. -/
def declareClass
    (frame : FrameId)
    (name : Token)
    (superclass : Option ClassObject)
    (methods : List FunctionDecl) : Chronicled Unit := do
  Code.bindDeclared frame name .nil false
  let inner ← Code.methodFrame frame name methods superclass
  let serial ← perform newSerial
  let layer : ClassLayer := ⟨serial, name.lexeme, methods, inner⟩
  tell (.makes (layer.extending superclass))
  perform (reassign frame name (.classObject (layer.extending superclass)))

mutual

/-- Evaluates an expression in a frame. -/
def evaluate (rounds : Nat) : Nat → FrameId → Expr → Chronicled Value
  | 0, _, _ => perform overflow
  | room + 1, frame, e => yielding do
      note (.evaluates frame e)
      match e with
      | .literal value => pure value.toValue
      | .grouping inner => evaluate rounds room frame inner
      | .unary operator operand => do
          let value ← evaluate rounds room frame operand
          perform (ofExcept operator (value.unary operator))
      | .binary left operator right => do
          let l ← evaluate rounds room frame left
          let r ← evaluate rounds room frame right
          perform (ofExcept operator (l.binary operator r))
      | .logical left operator right => do
          let l ← evaluate rounds room frame left
          if l.decides operator then pure l else evaluate rounds room frame right
      | .read target => perform (readName frame target.name target.link)
      | .readConstant target => perform (readName frame target.name target.link)
      | .assign target value => Code.assign frame target (evaluate rounds room frame value)
      | .call callee closing arguments => do
          let f ← evaluate rounds room frame callee
          let vs ← Code.values (evaluate rounds room frame) arguments
          call (fun inner => Code.untilReturn (execute rounds room inner)) f vs closing
      | .get object name => do
          let o ← evaluate rounds room frame object
          getProperty o name
      | .set object name value => do
          let o ← evaluate rounds room frame object
          Code.setProperty o name (evaluate rounds room frame value)
      | .this keyword link => perform (readName frame keyword link)
      | .super keyword method link => getInherited frame keyword method link

/-- Executes a statement in a frame. -/
def execute (rounds : Nat) : Nat → FrameId → Stmt → Chronicled Completion
  | 0, _, _ => perform overflow
  | room + 1, frame, s =>
      match s with
      | .block body => do
          let inner ← Code.openFrame (.block body) frame []
          Code.untilReturn (execute rounds room inner) body
      | .funDecl declaration => do
          Code.declareFunction frame declaration
          pure none
      | .classDecl name parent methods => do
          let superclass ← Code.superclassOf (evaluate rounds room frame) name parent
          declareClass frame name superclass methods
          pure none
      | .varDecl name initializer => do
          let value ← Code.orNil (evaluate rounds room frame) initializer
          Code.bindDeclared frame name value false
          pure none
      | .constDecl name initializer => do
          let value ← Code.orNil (evaluate rounds room frame) initializer
          Code.bindDeclared frame name value true
          pure none
      | .exprStmt expression => do
          let _ ← evaluate rounds room frame expression
          pure none
      | .ifStmt condition thenBranch elseBranch => do
          if (← evaluate rounds room frame condition).isTruthy then
            execute rounds room frame thenBranch
          else
            match elseBranch with
            | some other => execute rounds room frame other
            | none => pure none
      | .printStmt expression => do
          let value ← evaluate rounds room frame expression
          perform (print value.text)
          pure none
      | .returnStmt _ value => some <$> Code.orNil (evaluate rounds room frame) value
      | .whileStmt condition body =>
          Code.repeating (evaluate rounds room frame condition) (execute rounds room frame body)
            rounds

end

/-- Runs a program in the global frame. -/
def interpret (rounds room : Nat) (program : List Stmt) : Chronicled Unit :=
  Code.each (execute rounds room globalFrame) program

end Chronicled
end Lox
