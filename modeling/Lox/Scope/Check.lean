import Lox.Diagnostic
import Lox.Scope.Basic
import Lox.Tree.Parse.Fault

/-!
# Scope errors

A program is rejected if a scope declares a name twice, if a local name is read in its own
initializer, if a constant has no value, if a class inherits from itself, or if `return`, `this`
or `super` stand where they mean nothing.  Errors do not stop the check.

**Nesting.**  The check can be given room for a limited number of nested nodes.  A node that lies
deeper is not looked at, and an error of its own says so; `errorsWithin` ends with the first such
error.  Without a limit there is none.
-/

namespace Lox

inductive ScopeFault
  | alreadyDeclared
  | readInOwnInitializer
  | constantWithoutValue
  | inheritsFromItself
  | returnAtTopLevel
  | returnValueFromInitializer
  | thisOutsideClass
  | superOutsideClass
  | superWithoutSuperclass
  | nestingTooDeep
  deriving DecidableEq, Repr

def ScopeFault.message : ScopeFault → String
  | .alreadyDeclared => "Already a variable with this name in this scope."
  | .readInOwnInitializer => "Can't read local variable in its own initializer."
  | .constantWithoutValue => "Constant missing initializer."
  | .inheritsFromItself => "A class can't inherit from itself."
  | .returnAtTopLevel => "Can't return from top-level code."
  | .returnValueFromInitializer => "Can't return a value from an initializer."
  | .thisOutsideClass => "Can't use 'this' outside of a class."
  | .superOutsideClass => "Can't use 'super' outside of a class."
  | .superWithoutSuperclass => "Can't use 'super' in a class with no superclass."
  | .nestingTooDeep => nestingTooDeepMessage

/-- A fault and the token at fault; no token stands for the end of the text. -/
structure ScopeError where
  fault : ScopeFault
  found : Option Token
  deriving DecidableEq, Repr

def ScopeError.diagnostic (endLine : Int) (e : ScopeError) : Diagnostic :=
  .located endLine e.fault.message e.found

/-- How many levels of nodes may still be entered; `none` sets no limit. -/
abbrev Room := Option Nat

/-- The errors below a node, found with one level less. -/
def Room.enter (room : Room) (below : Room → List ScopeError) : List ScopeError :=
  match room with
  | none => below none
  | some 0 => [⟨.nestingTooDeep, none⟩]
  | some (n + 1) => below (some n)

/-- An error if a condition holds. -/
def errorIf (condition : Bool) (fault : ScopeFault) (found : Token) : List ScopeError :=
  if condition then [⟨fault, some found⟩] else []

/-- How the innermost scope knows a name. -/
def Context.innermost? (c : Context) (name : Token) : Option Standing :=
  c.scopes.head?.bind (·.standing? name.lexeme)

/-- A scope declares a name once. -/
def Context.declarationErrors (c : Context) (name : Token) : List ScopeError :=
  errorIf (c.innermost? name).isSome .alreadyDeclared name

/-- The parameters of a function are declared one after the other. -/
def Context.parameterErrors : List Token → Context → List ScopeError
  | [], _ => []
  | name :: names, c => c.declarationErrors name ++ parameterErrors names (c.define name)

/-- A name is not read while the innermost scope holds it as pending. -/
def Context.readErrors (c : Context) (name : Token) : List ScopeError :=
  errorIf (c.innermost? name == some .pending) .readInOwnInitializer name

def Context.thisErrors (c : Context) (keyword : Token) : List ScopeError :=
  errorIf (c.owner == .none) .thisOutsideClass keyword

def Context.superErrors (c : Context) (keyword : Token) : List ScopeError :=
  errorIf (c.owner == .none) .superOutsideClass keyword
    ++ errorIf (c.owner == .base) .superWithoutSuperclass keyword

def Context.returnErrors (c : Context) (keyword : Token) (hasValue : Bool) : List ScopeError :=
  errorIf (c.routine == .none) .returnAtTopLevel keyword
    ++ errorIf (hasValue && c.routine == .initializer) .returnValueFromInitializer keyword

mutual

def Expr.errors (c : Context) : Expr → Room → List ScopeError
  | .literal _, _ => []
  | .grouping inner, room => room.enter (inner.errors c)
  | .unary _ operand, room => room.enter (operand.errors c)
  | .binary left _ right, room => room.enter fun r => left.errors c r ++ right.errors c r
  | .logical left _ right, room => room.enter fun r => left.errors c r ++ right.errors c r
  | .read target, _ => c.readErrors target.name
  | .readConstant target, _ => c.readErrors target.name
  | .assign _ value, room => room.enter (value.errors c)
  | .call callee _ arguments, room =>
      room.enter fun r => callee.errors c r ++ Expr.errorsAll c arguments r
  | .get object _, room => room.enter (object.errors c)
  | .set object _ value, room => room.enter fun r => value.errors c r ++ object.errors c r
  | .this keyword _, _ => c.thisErrors keyword
  | .super keyword _ _, _ => c.superErrors keyword

def Expr.errorsAll (c : Context) : List Expr → Room → List ScopeError
  | [], _ => []
  | e :: es, room => e.errors c room ++ Expr.errorsAll c es room

end

/-- The errors of an expression that may be absent. -/
def optionErrors (c : Context) (expression : Option Expr) (room : Room) : List ScopeError :=
  match expression with
  | none => []
  | some e => e.errors c room

/-- A class does not inherit from itself. -/
def inheritanceErrors (name : Token) (parent : Expr) : List ScopeError :=
  match parent.name? with
  | some inherited => errorIf (inherited.lexeme == name.lexeme) .inheritsFromItself inherited
  | none => []

/-- The errors of the superclass of a class, if there is one. -/
def superclassErrors
    (c : Context) (name : Token) (superclass : Option Expr) (room : Room) : List ScopeError :=
  match superclass with
  | none => []
  | some parent =>
      inheritanceErrors name parent ++ room.enter (parent.errors (c.atSuperclass name))

mutual

def Stmt.errors : Stmt → Context → Room → List ScopeError
  | .block body, c, room => room.enter (Stmt.errorsAll body c.inBlock)
  | .funDecl declaration, c, room =>
      c.declarationErrors declaration.name
        ++ room.enter (declaration.errors .function (c.define declaration.name))
  | .classDecl name parent methods, c, room =>
      c.declarationErrors name
        ++ superclassErrors c name parent room
        ++ room.enter
          (FunctionDecl.errorsOfMethods methods ((c.define name).inClass parent.isSome))
  | .varDecl name initializer, c, room =>
      c.declarationErrors name ++ room.enter (optionErrors (c.declare name) initializer)
  | .constDecl name none, c, _ =>
      c.declarationErrors name ++ [⟨.constantWithoutValue, some name⟩]
  | .constDecl name (some value), c, room =>
      c.declarationErrors name ++ room.enter (value.errors (c.declare name))
  | .exprStmt expression, c, room => room.enter (expression.errors c)
  | .ifStmt condition thenBranch none, c, room =>
      room.enter fun r => condition.errors c r ++ thenBranch.errors c r
  | .ifStmt condition thenBranch (some elseBranch), c, room =>
      room.enter fun r =>
        condition.errors c r
          ++ thenBranch.errors c r
          ++ elseBranch.errors (thenBranch.contextAfter c) r
  | .printStmt expression, c, room => room.enter (expression.errors c)
  | .returnStmt keyword value, c, room =>
      c.returnErrors keyword value.isSome ++ room.enter (optionErrors c value)
  | .whileStmt condition body, c, room =>
      room.enter fun r => condition.errors c r ++ body.errors c r

def Stmt.errorsAll : List Stmt → Context → Room → List ScopeError
  | [], _, _ => []
  | s :: ss, c, room => s.errors c room ++ Stmt.errorsAll ss (s.contextAfter c) room

def FunctionDecl.errors : FunctionDecl → Routine → Context → Room → List ScopeError
  | ⟨_, parameters, body⟩, routine, c, room =>
      Context.parameterErrors parameters (c.atParameters routine)
        ++ room.enter (Stmt.errorsAll body (c.inBody routine parameters))

def FunctionDecl.errorsOfMethods : List FunctionDecl → Context → Room → List ScopeError
  | [], _, _ => []
  | f :: fs, c, room =>
      f.errors f.methodRoutine c room ++ FunctionDecl.errorsOfMethods fs c room

end

/-- A list of errors up to the first that is about nesting. -/
def upToNesting : List ScopeError → List ScopeError
  | [] => []
  | e :: es => if e.fault == .nestingTooDeep then [e] else e :: upToNesting es

/-- The scope errors of a program, found with limited room. -/
def errorsWithin (room : Room) (program : List Stmt) : List ScopeError :=
  upToNesting (Stmt.errorsAll program .top room)

/-- The scope errors of a program. -/
def scopeErrors (program : List Stmt) : List ScopeError :=
  Stmt.errorsAll program .top none

end Lox
