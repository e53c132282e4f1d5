import Lox.Scope.Basic

/-!
# Scope resolution

Resolution gives every reference the distance to the innermost scope that declares its name at
that place.  A name that no scope has declared so far keeps its link, and an open link means the
top level.

A name is declared from its declaration on, and its own initializer is already behind that point:
there it stands in its scope as pending.
-/

namespace Lox

/-- The link of a name. -/
def Context.link (c : Context) (name : String) (link : Link) : Link :=
  match findScope? name c.scopes with
  | some (depth, _) => { link with depth := some depth }
  | none => link

/-- The link of a name that is assigned: it also tells whether the name is a constant. -/
def Context.assignmentLink (c : Context) (name : String) (link : Link) : Link :=
  match findScope? name c.scopes with
  | some (depth, .constant) => ⟨some depth, some depth⟩
  | some (depth, _) => { link with depth := some depth }
  | none => link

/-- The link of the instance; outside of classes there is none. -/
def Context.thisLink (c : Context) (link : Link) : Link :=
  match c.owner with
  | .none => link
  | _ => c.link "this" link

/-- A name that is read, with its link. -/
def Reference.resolve (c : Context) (r : Reference) : Reference :=
  ⟨r.name, c.link r.name.lexeme r.link⟩

/-- A name that is assigned, with its link. -/
def Reference.resolveAssigned (c : Context) (r : Reference) : Reference :=
  ⟨r.name, c.assignmentLink r.name.lexeme r.link⟩

mutual

def Expr.resolve (c : Context) : Expr → Expr
  | .literal value => .literal value
  | .grouping inner => .grouping (inner.resolve c)
  | .unary operator operand => .unary operator (operand.resolve c)
  | .binary left operator right => .binary (left.resolve c) operator (right.resolve c)
  | .logical left operator right => .logical (left.resolve c) operator (right.resolve c)
  | .read target => .read (target.resolve c)
  | .readConstant target => .readConstant (target.resolve c)
  | .assign target value => .assign (target.resolveAssigned c) (value.resolve c)
  | .call callee closing arguments =>
      .call (callee.resolve c) closing (Expr.resolveAll c arguments)
  | .get object name => .get (object.resolve c) name
  | .set object name value => .set (object.resolve c) name (value.resolve c)
  | .this keyword link => .this keyword (c.thisLink link)
  | .super keyword method link => .super keyword method (c.link "super" link)

def Expr.resolveAll (c : Context) : List Expr → List Expr
  | [] => []
  | e :: es => e.resolve c :: Expr.resolveAll c es

end

mutual

def Stmt.resolve : Stmt → Context → Stmt
  | .block body, c => .block (Stmt.resolveAll body c.inBlock)
  | .funDecl declaration, c =>
      .funDecl (declaration.resolve .function (c.define declaration.name))
  | .classDecl name parent methods, c =>
      .classDecl name (parent.map (Expr.resolve (c.atSuperclass name)))
        (FunctionDecl.resolveMethods methods ((c.define name).inClass parent.isSome))
  | .varDecl name initializer, c =>
      .varDecl name (initializer.map (Expr.resolve (c.declare name)))
  | .constDecl name initializer, c =>
      .constDecl name (initializer.map (Expr.resolve (c.declare name)))
  | .exprStmt expression, c => .exprStmt (expression.resolve c)
  | .ifStmt condition thenBranch none, c =>
      .ifStmt (condition.resolve c) (thenBranch.resolve c) none
  | .ifStmt condition thenBranch (some elseBranch), c =>
      .ifStmt (condition.resolve c) (thenBranch.resolve c)
        (some (elseBranch.resolve (thenBranch.contextAfter c)))
  | .printStmt expression, c => .printStmt (expression.resolve c)
  | .returnStmt keyword value, c => .returnStmt keyword (value.map (Expr.resolve c))
  | .whileStmt condition body, c => .whileStmt (condition.resolve c) (body.resolve c)

/-- Every statement is resolved in the context that those before it leave. -/
def Stmt.resolveAll : List Stmt → Context → List Stmt
  | [], _ => []
  | s :: ss, c => s.resolve c :: Stmt.resolveAll ss (s.contextAfter c)

def FunctionDecl.resolve : FunctionDecl → Routine → Context → FunctionDecl
  | ⟨name, parameters, body⟩, routine, c =>
      ⟨name, parameters, Stmt.resolveAll body (c.inBody routine parameters)⟩

def FunctionDecl.resolveMethods : List FunctionDecl → Context → List FunctionDecl
  | [], _ => []
  | f :: fs, c => f.resolve f.methodRoutine c :: FunctionDecl.resolveMethods fs c

end

/-- A program with the links of all its references. -/
def resolveProgram (program : List Stmt) : List Stmt :=
  Stmt.resolveAll program .top

end Lox
