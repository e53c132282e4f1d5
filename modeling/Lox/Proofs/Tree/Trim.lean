import Lox.Tree.Basic
import Mathlib.Data.List.Basic

/-!
# Trimmed code

What stands in a body after a return is never executed.  Trimmed code goes without it: every body,
however deep, ends with its first return.

**Main definition.**
* `Stmt.trimmed`: a statement in which every body ends with its first return.

**Results.**
* `upToReturn_take`: what follows a return does not matter to trimmed code.
-/

namespace Lox

def Stmt.isReturn : Stmt → Bool
  | .returnStmt _ _ => true
  | _ => false

/-- The statements of a body up to the first return and with it. -/
def upToReturn : List Stmt → List Stmt
  | [] => []
  | s :: rest => if s.isReturn then [s] else s :: upToReturn rest

mutual

/-- A statement in which every body ends with its first return. -/
def Stmt.trimmed : Stmt → Stmt
  | .block body => .block (upToReturn (Stmt.trimmedAll body))
  | .funDecl declaration => .funDecl declaration.trimmed
  | .classDecl name parent methods => .classDecl name parent (FunctionDecl.trimmedAll methods)
  | .ifStmt condition thenBranch none => .ifStmt condition thenBranch.trimmed none
  | .ifStmt condition thenBranch (some elseBranch) =>
      .ifStmt condition thenBranch.trimmed (some elseBranch.trimmed)
  | .whileStmt condition body => .whileStmt condition body.trimmed
  | .varDecl name initializer => .varDecl name initializer
  | .constDecl name initializer => .constDecl name initializer
  | .exprStmt expression => .exprStmt expression
  | .printStmt expression => .printStmt expression
  | .returnStmt keyword value => .returnStmt keyword value

def Stmt.trimmedAll : List Stmt → List Stmt
  | [] => []
  | s :: ss => s.trimmed :: Stmt.trimmedAll ss

def FunctionDecl.trimmed : FunctionDecl → FunctionDecl
  | ⟨name, parameters, body⟩ => ⟨name, parameters, upToReturn (Stmt.trimmedAll body)⟩

def FunctionDecl.trimmedAll : List FunctionDecl → List FunctionDecl
  | [] => []
  | f :: fs => f.trimmed :: FunctionDecl.trimmedAll fs

end

theorem Stmt.trimmedAll_eq_map (ss : List Stmt) :
    Stmt.trimmedAll ss = ss.map Stmt.trimmed := by
  induction ss with
  | nil => rfl
  | cons s ss ih => rw [Stmt.trimmedAll, ih, List.map_cons]

theorem FunctionDecl.trimmedAll_eq_map (fs : List FunctionDecl) :
    FunctionDecl.trimmedAll fs = fs.map FunctionDecl.trimmed := by
  induction fs with
  | nil => rfl
  | cons f fs ih => rw [FunctionDecl.trimmedAll, ih, List.map_cons]

@[simp] theorem FunctionDecl.name_trimmed (f : FunctionDecl) : f.trimmed.name = f.name := by
  obtain ⟨name, parameters, body⟩ := f
  rfl

@[simp] theorem FunctionDecl.parameters_trimmed (f : FunctionDecl) :
    f.trimmed.parameters = f.parameters := by
  obtain ⟨name, parameters, body⟩ := f
  rfl

theorem FunctionDecl.body_trimmed (f : FunctionDecl) :
    f.trimmed.body = upToReturn (f.body.map Stmt.trimmed) := by
  obtain ⟨name, parameters, body⟩ := f
  exact congrArg upToReturn (Stmt.trimmedAll_eq_map body)

/-- What stands in a body after a return does not matter to the trimmed body. -/
theorem upToReturn_take
    {body : List Stmt}
    {i : Nat}
    {keyword : Token}
    {value : Option Expr}
    (h : body[i]? = some (.returnStmt keyword value)) :
    upToReturn ((body.take (i + 1)).map Stmt.trimmed) = upToReturn (body.map Stmt.trimmed) := by
  induction body generalizing i with
  | nil => cases h
  | cons s rest ih =>
      cases i with
      | zero =>
          obtain rfl := Option.some.inj h
          rfl
      | succ i => simp only [List.take_succ_cons, List.map_cons, upToReturn, ih h]

end Lox
