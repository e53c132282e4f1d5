import Lox.Scope.Rename

/-!
# Shortening a body

The body of a block or of a function can be cut off after some of its statements.  Where the body
is in a program is told by a trail, as it is for the scope that belongs to it.  The statements at
the top level of a program are not the body of anything.
-/

namespace Lox

/-- The body that a trail leads to keeps some statements, and any other body keeps all. -/
def Trail.keep (t : Trail) (count : Nat) (body : List Stmt) : List Stmt :=
  if t.ends then body.take count else body

mutual

/-- A statement with the body at the end of a trail cut off after some statements. -/
def Stmt.shortened (count : Nat) : Stmt → Trail → Stmt
  | .block body, t => .block (t.keep count (Stmt.shortenedAll count body t))
  | .funDecl declaration, t => .funDecl (declaration.shortened count t)
  | .classDecl name parent methods, t =>
      .classDecl name parent (FunctionDecl.shortenedAll count methods t)
  | .ifStmt condition thenBranch none, t =>
      .ifStmt condition (thenBranch.shortened count t.first) none
  | .ifStmt condition thenBranch (some elseBranch), t =>
      .ifStmt condition (thenBranch.shortened count t.first)
        (some (elseBranch.shortened count t.others.first))
  | .whileStmt condition body, t => .whileStmt condition (body.shortened count t.first)
  | .varDecl name initializer, _ => .varDecl name initializer
  | .constDecl name initializer, _ => .constDecl name initializer
  | .exprStmt expression, _ => .exprStmt expression
  | .printStmt expression, _ => .printStmt expression
  | .returnStmt keyword value, _ => .returnStmt keyword value

def Stmt.shortenedAll (count : Nat) : List Stmt → Trail → List Stmt
  | [], _ => []
  | s :: ss, t => s.shortened count t.first :: Stmt.shortenedAll count ss t.others

def FunctionDecl.shortened (count : Nat) : FunctionDecl → Trail → FunctionDecl
  | ⟨name, parameters, body⟩, t =>
      ⟨name, parameters, t.keep count (Stmt.shortenedAll count body t)⟩

def FunctionDecl.shortenedAll (count : Nat) : List FunctionDecl → Trail → List FunctionDecl
  | [], _ => []
  | f :: fs, t => f.shortened count t.first :: FunctionDecl.shortenedAll count fs t.others

end

/-- A program with the body at the end of a trail cut off after some statements. -/
def shortenBody (trail : List Nat) (count : Nat) (program : List Stmt) : List Stmt :=
  Stmt.shortenedAll count program (some trail)

mutual

/-- The body at the end of a trail, if there is one. -/
def Stmt.bodyAt? : Stmt → Trail → Option (List Stmt)
  | .block body, t => if t.ends then some body else Stmt.bodyAmong? body t
  | .funDecl declaration, t => declaration.bodyAt? t
  | .classDecl _ _ methods, t => FunctionDecl.bodyAmong? methods t
  | .ifStmt _ thenBranch none, t => thenBranch.bodyAt? t.first
  | .ifStmt _ thenBranch (some elseBranch), t =>
      (thenBranch.bodyAt? t.first).or (elseBranch.bodyAt? t.others.first)
  | .whileStmt _ body, t => body.bodyAt? t.first
  | .varDecl _ _, _ | .constDecl _ _, _ | .exprStmt _, _ | .printStmt _, _ | .returnStmt _ _, _ =>
      none

def Stmt.bodyAmong? : List Stmt → Trail → Option (List Stmt)
  | [], _ => none
  | s :: ss, t => (s.bodyAt? t.first).or (Stmt.bodyAmong? ss t.others)

def FunctionDecl.bodyAt? : FunctionDecl → Trail → Option (List Stmt)
  | ⟨_, _, body⟩, t => if t.ends then some body else Stmt.bodyAmong? body t

def FunctionDecl.bodyAmong? : List FunctionDecl → Trail → Option (List Stmt)
  | [], _ => none
  | f :: fs, t => (f.bodyAt? t.first).or (FunctionDecl.bodyAmong? fs t.others)

end

/-- The body of a block or of a function of a program. -/
def bodyOf? (trail : List Nat) (program : List Stmt) : Option (List Stmt) :=
  Stmt.bodyAmong? program (some trail)

end Lox
