import Lox.Tree.Basic

/-!
# Scopes

A scope lists the names that a block, a function or a class declares, the latest declaration first.
The scopes around a place in a program form a list with the innermost scope first; the top level of
a program is no scope, so a name declared there is in none of them.

Beside the scopes, a place in a program is characterized by the function and the class around it.
-/

namespace Lox

/-- How a declared name can be used. -/
inductive Standing
  /-- The value that initializes the name is still being read. -/
  | pending
  | variable
  | constant
  deriving DecidableEq, Repr

structure Declared where
  name : String
  standing : Standing
  deriving DecidableEq, Repr

/-- The declarations of one scope, the latest first. -/
abbrev Scope := List Declared

/-- How a name can be used in the scope that declares it. -/
def Scope.standing? (scope : Scope) (name : String) : Option Standing :=
  (scope.find? (·.name == name)).map Declared.standing

/-- The innermost scope that declares a name: its distance, and how the name can be used there. -/
def findScope? (name : String) : List Scope → Option (Nat × Standing)
  | [] => none
  | scope :: outer =>
      match scope.standing? name with
      | some standing => some (0, standing)
      | none => (findScope? name outer).map fun found => (found.1 + 1, found.2)

/-- Declares a name in the innermost scope; at the top level there is none. -/
def declareIn (name : String) (standing : Standing) : List Scope → List Scope
  | [] => []
  | scope :: outer => (⟨name, standing⟩ :: scope) :: outer

/-- The innermost function around a place. -/
inductive Routine
  /-- Top-level code. -/
  | none
  | function
  | method
  | initializer
  deriving DecidableEq, Repr

/-- The innermost class around a place. -/
inductive Owner
  | none
  | base
  /-- A class with a superclass. -/
  | derived
  deriving DecidableEq, Repr

/-- What surrounds a place in a program. -/
structure Context where
  scopes : List Scope
  routine : Routine
  owner : Owner
  deriving DecidableEq, Repr

namespace Context

/-- The top level of a program. -/
def top : Context := ⟨[], .none, .none⟩

/-- Inside a new block. -/
def inBlock (c : Context) : Context :=
  { c with scopes := [] :: c.scopes }

/-- While the initializer of a name is read. -/
def declare (c : Context) (name : Token) : Context :=
  { c with scopes := declareIn name.lexeme .pending c.scopes }

/-- After the declaration of a variable, function or class. -/
def define (c : Context) (name : Token) : Context :=
  { c with scopes := declareIn name.lexeme .variable c.scopes }

/-- After the declaration of a constant. -/
def defineConstant (c : Context) (name : Token) : Context :=
  { c with scopes := declareIn name.lexeme .constant c.scopes }

/-- After several names. -/
def defineAll (c : Context) (names : List Token) : Context :=
  names.foldl define c

/-- At the parameters of a function: its scope holds parameters and body together. -/
def atParameters (c : Context) (routine : Routine) : Context :=
  { c with scopes := [] :: c.scopes, routine := routine }

/-- In the body of a function. -/
def inBody (c : Context) (routine : Routine) (parameters : List Token) : Context :=
  (c.atParameters routine).defineAll parameters

/-- At the superclass of a class; its name is declared by then. -/
def atSuperclass (c : Context) (name : Token) : Context :=
  { c.define name with owner := .derived }

/--
Among the methods of a class.  The instance has a scope of its own, and the superclass, if there is
one, has a scope around it.
-/
def inClass (c : Context) (isDerived : Bool) : Context :=
  if isDerived then
    { c with
      scopes := [⟨"this", .variable⟩] :: [⟨"super", .variable⟩] :: c.scopes
      owner := .derived }
  else
    { c with scopes := [⟨"this", .variable⟩] :: c.scopes, owner := .base }

end Context

/-- The function that a method is. -/
def FunctionDecl.methodRoutine (f : FunctionDecl) : Routine :=
  if f.isInitializer then .initializer else .method

/-- What surrounds the code after a statement. -/
def Stmt.contextAfter : Stmt → Context → Context
  | .funDecl declaration, c => c.define declaration.name
  | .classDecl name _ _, c => c.define name
  | .varDecl name _, c => c.define name
  | .constDecl name _, c => c.defineConstant name
  | .ifStmt _ thenBranch none, c => thenBranch.contextAfter c
  | .ifStmt _ thenBranch (some elseBranch), c =>
      elseBranch.contextAfter (thenBranch.contextAfter c)
  | .whileStmt _ body, c => body.contextAfter c
  | .block _, c => c
  | .exprStmt _, c => c
  | .printStmt _, c => c
  | .returnStmt _ _, c => c

end Lox
