import Lox.Token.Basic

/-!
# Trees

A program is a list of statements.  Expressions and statements keep the tokens that errors and
names are taken from.

Every reference (a name that is read or assigned, `this` and `super`) carries a `Link`, which says
how many frames lie between the reference and the frame that holds the name.  Parsing leaves the
links open; scope resolution fills them.  A reference whose link stays open is looked up in the
global frame.
-/

namespace Lox

/-- What is known about the frame that a reference leads to. -/
structure Link where
  /-- The number of frames between the reference and the frame that holds the name. -/
  depth : Option Nat := none
  /-- The same number, if the name is known to be a constant there. -/
  constantDepth : Option Nat := none
  deriving DecidableEq, Repr

/-- The link of a reference that is not resolved. -/
def Link.unresolved : Link := {}

/-- A name together with its link. -/
structure Reference where
  name : Token
  link : Link
  deriving DecidableEq, Repr

inductive Expr
  | literal (value : Literal)
  | grouping (inner : Expr)
  | unary (operator : Token) (operand : Expr)
  | binary (left : Expr) (operator : Token) (right : Expr)
  | logical (left : Expr) (operator : Token) (right : Expr)
  /-- Reads a name. -/
  | read (target : Reference)
  /-- Reads a name that is known to be a constant. -/
  | readConstant (target : Reference)
  | assign (target : Reference) (value : Expr)
  | call (callee : Expr) (closing : Token) (arguments : List Expr)
  | get (object : Expr) (name : Token)
  | set (object : Expr) (name : Token) (value : Expr)
  | this (keyword : Token) (link : Link)
  | super (keyword : Token) (method : Token) (link : Link)

/-- The name that an expression reads, assigns or looks up. -/
def Expr.name? : Expr → Option Token
  | .read target => some target.name
  | .readConstant target => some target.name
  | .assign target _ => some target.name
  | .get _ name => some name
  | .set _ name _ => some name
  | _ => none

mutual

inductive Stmt
  | block (body : List Stmt)
  | funDecl (declaration : FunctionDecl)
  /-- In a text, a superclass is a name that is read. -/
  | classDecl (name : Token) (superclass : Option Expr) (methods : List FunctionDecl)
  | varDecl (name : Token) (initializer : Option Expr)
  | constDecl (name : Token) (initializer : Option Expr)
  | exprStmt (expression : Expr)
  | ifStmt (condition : Expr) (thenBranch : Stmt) (elseBranch : Option Stmt)
  | printStmt (expression : Expr)
  | returnStmt (keyword : Token) (value : Option Expr)
  | whileStmt (condition : Expr) (body : Stmt)

structure FunctionDecl where
  name : Token
  parameters : List Token
  body : List Stmt

end

/-- The name of the method that initializes an instance. -/
def initializerName : String := "init"

/-- A method is an initializer if it has the initializer's name. -/
def FunctionDecl.isInitializer (f : FunctionDecl) : Bool :=
  f.name.lexeme == initializerName

/--
A `for` loop is a `while` loop.  The increment runs after the body in a block around both, and the
initializer runs first in a block around the loop; a clause that is absent adds no block.  Without
a condition the loop has no end of its own.
-/
def Stmt.forLoop
    (initializer : Option Stmt)
    (condition increment : Option Expr)
    (body : Stmt) : Stmt :=
  let round :=
    match increment with
    | some step => .block [body, .exprStmt step]
    | none => body
  let loop := .whileStmt (condition.getD (.literal (.boolean true))) round
  match initializer with
  | some first => .block [first, loop]
  | none => loop

/--
The assignment that `target = value` stands for.  Only a name and a property can be assigned.
-/
def Expr.assignment? (target value : Expr) : Option Expr :=
  match target with
  | .read reference => some (.assign ⟨reference.name, .unresolved⟩ value)
  | .get object name => some (.set object name value)
  | _ => none

/-- The most parameters and arguments that a call takes. -/
def mostArguments : Nat := 255

end Lox
