import Lox.Scope.Check
import Lox.Scope.Tables

/-!
# Walking through a program

Errors and links can be found together, in a single walk through a program.  The walk has a stack of
the scopes that are open, and it notes the function and the class around the present place.  It
opens and closes scopes by hand.  An error is reported where it is found, and the walk goes on.
What is found about a reference is written at once into tables, under the number that stands in the
tree for its link.
-/

namespace Lox

/-- Puts a value in the place of the one with its key, or at the end. -/
def putEntry {κ β : Type} [BEq κ] (key : κ) (value : β) : List (κ × β) → List (κ × β)
  | [] => [(key, value)]
  | entry :: rest =>
      if entry.1 == key then (key, value) :: rest else entry :: putEntry key value rest

/-- A scope that is open. -/
structure OpenScope where
  /-- The names declared so far, and whether their values have been read. -/
  names : List (String × Bool)
  constants : List String

namespace OpenScope

def empty : OpenScope := ⟨[], []⟩

/-- A scope for a name that has a value from the start. -/
def binding (name : String) : OpenScope := ⟨[(name, true)], []⟩

def declares (scope : OpenScope) (name : String) : Bool :=
  (scope.names.lookup name).isSome

/-- The value of a name is still being read. -/
def isPending (scope : OpenScope) (name : String) : Bool :=
  scope.names.lookup name == some false

/-- Declares a name; it is no constant for the time being. -/
def declare (scope : OpenScope) (name : String) : OpenScope :=
  ⟨putEntry name false scope.names, scope.constants.filter (· != name)⟩

def define (scope : OpenScope) (name : String) : OpenScope :=
  { scope with names := putEntry name true scope.names }

def markConstant (scope : OpenScope) (name : String) : OpenScope :=
  { scope with constants := name :: scope.constants }

end OpenScope

/-- Writes the depth that is found for a reference. -/
def Tables.putDepth (t : Tables) (placeholder : Link) (depth : Nat) : Tables :=
  match placeholder.depth with
  | some n => { t with depths := putEntry n depth t.depths }
  | none => t

/-- Writes the depth of a constant that is assigned. -/
def Tables.putConstantDepth (t : Tables) (placeholder : Link) (depth : Nat) : Tables :=
  match placeholder.depth with
  | some n => { t with constantDepths := putEntry n depth t.constantDepths }
  | none => t

/-- A walk, as far as it has come. -/
structure Walk where
  /-- The open scopes, the innermost first. -/
  scopes : List OpenScope
  routine : Routine
  owner : Owner
  errors : List ScopeError
  tables : Tables

namespace Walk

/-- A walk that begins, with what earlier walks have written. -/
def start (tables : Tables) : Walk := ⟨[], .none, .none, [], tables⟩

def enter (w : Walk) (scope : OpenScope) : Walk :=
  { w with scopes := scope :: w.scopes }

/-- Closes the innermost scope. -/
def leave (w : Walk) : Walk :=
  { w with scopes := w.scopes.tail }

def setRoutine (w : Walk) (routine : Routine) : Walk :=
  { w with routine := routine }

def setOwner (w : Walk) (owner : Owner) : Walk :=
  { w with owner := owner }

def report (w : Walk) (errors : List ScopeError) : Walk :=
  { w with errors := w.errors ++ errors }

/-- Changes the innermost scope; at the top level there is none. -/
def onInnermost (w : Walk) (change : OpenScope → OpenScope) : Walk :=
  match w.scopes with
  | [] => w
  | scope :: outer => { w with scopes := change scope :: outer }

/-- The innermost scope has a property. -/
def innermostIs (w : Walk) (test : OpenScope → Bool) : Bool :=
  w.scopes.head?.any test

def declare (w : Walk) (name : Token) : Walk :=
  (w.report (errorIf (w.innermostIs (·.declares name.lexeme)) .alreadyDeclared name)).onInnermost
    (·.declare name.lexeme)

def define (w : Walk) (name : Token) : Walk :=
  w.onInnermost (·.define name.lexeme)

def markConstant (w : Walk) (name : Token) : Walk :=
  w.onInnermost (·.markConstant name.lexeme)

/-- The names of parameters, one after the other. -/
def declareAll (w : Walk) (names : List Token) : Walk :=
  names.foldl (fun w name => (w.declare name).define name) w

/-- The number of scopes between a place and the one that declares a name. -/
def distance? (w : Walk) (name : String) : Option Nat :=
  w.scopes.findIdx? (·.declares name)

/-- Writes how far a name is away, if any scope declares it. -/
def resolveLocal (w : Walk) (name : String) (placeholder : Link) : Walk :=
  match w.distance? name with
  | some depth => { w with tables := w.tables.putDepth placeholder depth }
  | none => w

/-- Writes how far a name that is assigned is away, and that it is a constant there. -/
def resolveAssigned (w : Walk) (name : String) (placeholder : Link) : Walk :=
  let resolved := w.resolveLocal name placeholder
  match w.distance? name with
  | some depth =>
      if (w.scopes[depth]?).any (·.constants.contains name) then
        { resolved with tables := resolved.tables.putConstantDepth placeholder depth }
      else
        resolved
  | none => resolved

def read (w : Walk) (target : Reference) : Walk :=
  (w.report (errorIf (w.innermostIs (·.isPending target.name.lexeme)) .readInOwnInitializer
    target.name)).resolveLocal target.name.lexeme target.link

/-- Outside of classes there is no instance to look for. -/
def this (w : Walk) (keyword : Token) (placeholder : Link) : Walk :=
  if w.owner == .none then
    w.report [⟨.thisOutsideClass, some keyword⟩]
  else
    w.resolveLocal "this" placeholder

/-- What is wrong with a reference to the superclass. -/
def superErrors (w : Walk) (keyword : Token) : List ScopeError :=
  match w.owner with
  | .none => [⟨.superOutsideClass, some keyword⟩]
  | .base => [⟨.superWithoutSuperclass, some keyword⟩]
  | .derived => []

def super (w : Walk) (keyword : Token) (placeholder : Link) : Walk :=
  (w.report (w.superErrors keyword)).resolveLocal "super" placeholder

end Walk

mutual

/-- Walks through an expression; the value of an assignment comes before its target. -/
def Expr.walk : Expr → Walk → Walk
  | .literal _, w => w
  | .grouping inner, w => inner.walk w
  | .unary _ operand, w => operand.walk w
  | .binary left _ right, w => right.walk (left.walk w)
  | .logical left _ right, w => right.walk (left.walk w)
  | .read target, w => w.read target
  | .readConstant target, w => w.read target
  | .assign target value, w => (value.walk w).resolveAssigned target.name.lexeme target.link
  | .call callee _ arguments, w => Expr.walkAll arguments (callee.walk w)
  | .get object _, w => object.walk w
  | .set object _ value, w => object.walk (value.walk w)
  | .this keyword link, w => w.this keyword link
  | .super keyword _ link, w => w.super keyword link

def Expr.walkAll : List Expr → Walk → Walk
  | [], w => w
  | e :: es, w => Expr.walkAll es (e.walk w)

end

/-- Walks through an expression that may be absent. -/
def optionWalk : Option Expr → Walk → Walk
  | none, w => w
  | some e, w => e.walk w

namespace Walk

/-- Declares a class; among its methods, only that it is a class is known at first. -/
def nameClass (w : Walk) (name : Token) : Walk :=
  ((w.setOwner .base).declare name).define name

/-- Opens the scope of a superclass, after the expression for it. -/
def enterSuperclass (w : Walk) (name : Token) : Option Expr → Walk
  | none => w
  | some parent =>
      (parent.walk ((w.report (inheritanceErrors name parent)).setOwner .derived)).enter
        (.binding "super")

/-- Closes the scope of a superclass, if one has been opened. -/
def leaveSuperclass (w : Walk) (parent : Option Expr) : Walk :=
  if parent.isSome then w.leave else w

/-- A return is not allowed everywhere, and a value may be less so. -/
def «return» (w : Walk) (keyword : Token) (value : Option Expr) : Walk :=
  let checked := w.report (errorIf (w.routine == .none) .returnAtTopLevel keyword)
  match value with
  | none => checked
  | some e =>
      e.walk (checked.report
        (errorIf (w.routine == .initializer) .returnValueFromInitializer keyword))

end Walk

mutual

def Stmt.walk : Stmt → Walk → Walk
  | .block body, w => (Stmt.walkAll body (w.enter .empty)).leave
  | .funDecl f, w => f.walk .function ((w.declare f.name).define f.name)
  | .classDecl name parent methods, w =>
      let inside := ((w.nameClass name).enterSuperclass name parent).enter (.binding "this")
      ((FunctionDecl.walkMethods methods inside).leave.leaveSuperclass parent).setOwner w.owner
  | .varDecl name initializer, w => (optionWalk initializer (w.declare name)).define name
  | .constDecl name none, w =>
      (((w.declare name).report [⟨.constantWithoutValue, some name⟩]).define name).markConstant name
  | .constDecl name (some value), w =>
      ((value.walk (w.declare name)).define name).markConstant name
  | .exprStmt e, w => e.walk w
  | .ifStmt condition thenBranch none, w => thenBranch.walk (condition.walk w)
  | .ifStmt condition thenBranch (some elseBranch), w =>
      elseBranch.walk (thenBranch.walk (condition.walk w))
  | .printStmt e, w => e.walk w
  | .returnStmt keyword value, w => w.return keyword value
  | .whileStmt condition body, w => body.walk (condition.walk w)

def Stmt.walkAll : List Stmt → Walk → Walk
  | [], w => w
  | s :: ss, w => Stmt.walkAll ss (s.walk w)

/-- Walks through a function; its parameters and its body share a scope. -/
def FunctionDecl.walk : FunctionDecl → Routine → Walk → Walk
  | ⟨_, parameters, body⟩, routine, w =>
      let inside := ((w.setRoutine routine).enter .empty).declareAll parameters
      (Stmt.walkAll body inside).leave.setRoutine w.routine

def FunctionDecl.walkMethods : List FunctionDecl → Walk → Walk
  | [], w => w
  | f :: fs, w => FunctionDecl.walkMethods fs (f.walk f.methodRoutine w)

end

/-- Walks through a program several times, and keeps what has been found. -/
def Walk.repeated (program : List Stmt) : Nat → Walk → Walk
  | 0, w => w
  | n + 1, w => Walk.repeated program n (Stmt.walkAll program w)

end Lox
