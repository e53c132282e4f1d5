import Lox.Scope.Basic
import Mathlib

/-!
# Relabeled trees

The lines of the tokens and the links of the references stand beside what a tree says.  A
relabeling changes them and leaves everything else as it is.

**Main definitions.**
* `Relabeling`: a change of lines and links.
* `Expr.relabel`, `Stmt.relabel`: the trees with the change carried out.

**Results.**
* `Expr.relabel_relabel`, `Stmt.relabel_relabel`: two changes are one.
* `Expr.relabel_none`, `Stmt.relabel_none`: no change leaves a tree as it is.
-/

namespace Lox

/-- A change of what stands beside the names of a tree. -/
structure Relabeling where
  line : Int → Int
  link : Link → Link

namespace Relabeling

/-- A change of the lines alone. -/
def lines (f : Int → Int) : Relabeling := ⟨f, id⟩

/-- A change of the links alone. -/
def links (f : Link → Link) : Relabeling := ⟨id, f⟩

/-- Two changes, the second one first. -/
def comp (c d : Relabeling) : Relabeling := ⟨c.line ∘ d.line, c.link ∘ d.link⟩

/-- No change. -/
def none : Relabeling := ⟨id, id⟩

@[simp] theorem line_lines (f : Int → Int) : (lines f).line = f := rfl

@[simp] theorem link_lines (f : Int → Int) : (lines f).link = id := rfl

@[simp] theorem line_links (f : Link → Link) : (links f).line = id := rfl

@[simp] theorem link_links (f : Link → Link) : (links f).link = f := rfl

@[simp] theorem line_comp (c d : Relabeling) : (c.comp d).line = c.line ∘ d.line := rfl

@[simp] theorem link_comp (c d : Relabeling) : (c.comp d).link = c.link ∘ d.link := rfl

@[simp] theorem line_none : none.line = id := rfl

@[simp] theorem link_none : none.link = id := rfl

end Relabeling

/-- A token on another line. -/
def Token.relabel (c : Relabeling) (t : Token) : Token :=
  { t with line := c.line t.line }

def Reference.relabel (c : Relabeling) (r : Reference) : Reference :=
  ⟨r.name.relabel c, c.link r.link⟩

mutual

def Expr.relabel (c : Relabeling) : Expr → Expr
  | .literal value => .literal value
  | .grouping inner => .grouping (inner.relabel c)
  | .unary operator operand => .unary (operator.relabel c) (operand.relabel c)
  | .binary left operator right =>
      .binary (left.relabel c) (operator.relabel c) (right.relabel c)
  | .logical left operator right =>
      .logical (left.relabel c) (operator.relabel c) (right.relabel c)
  | .read target => .read (target.relabel c)
  | .readConstant target => .readConstant (target.relabel c)
  | .assign target value => .assign (target.relabel c) (value.relabel c)
  | .call callee closing arguments =>
      .call (callee.relabel c) (closing.relabel c) (Expr.relabelAll c arguments)
  | .get object name => .get (object.relabel c) (name.relabel c)
  | .set object name value => .set (object.relabel c) (name.relabel c) (value.relabel c)
  | .this keyword link => .this (keyword.relabel c) (c.link link)
  | .super keyword method link => .super (keyword.relabel c) (method.relabel c) (c.link link)

def Expr.relabelAll (c : Relabeling) : List Expr → List Expr
  | [] => []
  | e :: es => e.relabel c :: Expr.relabelAll c es

end

mutual

def Stmt.relabel (c : Relabeling) : Stmt → Stmt
  | .block body => .block (Stmt.relabelAll c body)
  | .funDecl declaration => .funDecl (declaration.relabel c)
  | .classDecl name parent methods =>
      .classDecl (name.relabel c) (parent.map (Expr.relabel c))
        (FunctionDecl.relabelAll c methods)
  | .varDecl name initializer => .varDecl (name.relabel c) (initializer.map (Expr.relabel c))
  | .constDecl name initializer =>
      .constDecl (name.relabel c) (initializer.map (Expr.relabel c))
  | .exprStmt expression => .exprStmt (expression.relabel c)
  | .ifStmt condition thenBranch none =>
      .ifStmt (condition.relabel c) (thenBranch.relabel c) none
  | .ifStmt condition thenBranch (some elseBranch) =>
      .ifStmt (condition.relabel c) (thenBranch.relabel c) (some (elseBranch.relabel c))
  | .printStmt expression => .printStmt (expression.relabel c)
  | .returnStmt keyword value => .returnStmt (keyword.relabel c) (value.map (Expr.relabel c))
  | .whileStmt condition body => .whileStmt (condition.relabel c) (body.relabel c)

def Stmt.relabelAll (c : Relabeling) : List Stmt → List Stmt
  | [] => []
  | s :: ss => s.relabel c :: Stmt.relabelAll c ss

def FunctionDecl.relabel (c : Relabeling) : FunctionDecl → FunctionDecl
  | ⟨name, parameters, body⟩ =>
      ⟨name.relabel c, parameters.map (Token.relabel c), Stmt.relabelAll c body⟩

def FunctionDecl.relabelAll (c : Relabeling) : List FunctionDecl → List FunctionDecl
  | [] => []
  | f :: fs => f.relabel c :: FunctionDecl.relabelAll c fs

end

section Tokens

variable (c d : Relabeling)

@[simp] theorem Token.kind_relabel (t : Token) : (t.relabel c).kind = t.kind := rfl

@[simp] theorem Token.lexeme_relabel (t : Token) : (t.relabel c).lexeme = t.lexeme := rfl

@[simp] theorem Token.line_relabel (t : Token) : (t.relabel c).line = c.line t.line := rfl

@[simp] theorem Token.literal_relabel (t : Token) : (t.relabel c).literal = t.literal := rfl

@[simp] theorem Token.relabel_relabel (t : Token) :
    (t.relabel d).relabel c = t.relabel (c.comp d) := rfl

@[simp] theorem Token.relabel_none (t : Token) : t.relabel .none = t := rfl

@[simp] theorem Token.map_lexeme_relabel (ts : List Token) :
    (ts.map (Token.relabel c)).map Token.lexeme = ts.map Token.lexeme := by
  rw [List.map_map]
  rfl

@[simp] theorem Reference.name_relabel (r : Reference) :
    (r.relabel c).name = r.name.relabel c := rfl

@[simp] theorem Reference.link_relabel (r : Reference) : (r.relabel c).link = c.link r.link := rfl

@[simp] theorem Reference.relabel_relabel (r : Reference) :
    (r.relabel d).relabel c = r.relabel (c.comp d) := rfl

@[simp] theorem Reference.relabel_none (r : Reference) : r.relabel .none = r := rfl

end Tokens

section Trees

variable (c d : Relabeling)

@[simp] theorem Expr.relabelAll_eq_map (es : List Expr) :
    Expr.relabelAll c es = es.map (Expr.relabel c) := by
  induction es with
  | nil => rfl
  | cons e es ih => rw [Expr.relabelAll, ih, List.map_cons]

@[simp] theorem Stmt.relabelAll_eq_map (ss : List Stmt) :
    Stmt.relabelAll c ss = ss.map (Stmt.relabel c) := by
  induction ss with
  | nil => rfl
  | cons s ss ih => rw [Stmt.relabelAll, ih, List.map_cons]

@[simp] theorem FunctionDecl.relabelAll_eq_map (fs : List FunctionDecl) :
    FunctionDecl.relabelAll c fs = fs.map (FunctionDecl.relabel c) := by
  induction fs with
  | nil => rfl
  | cons f fs ih => rw [FunctionDecl.relabelAll, ih, List.map_cons]

@[simp] theorem FunctionDecl.name_relabel (f : FunctionDecl) :
    (f.relabel c).name = f.name.relabel c := by
  obtain ⟨name, parameters, body⟩ := f
  rfl

@[simp] theorem FunctionDecl.parameters_relabel (f : FunctionDecl) :
    (f.relabel c).parameters = f.parameters.map (Token.relabel c) := by
  obtain ⟨name, parameters, body⟩ := f
  rfl

@[simp] theorem FunctionDecl.body_relabel (f : FunctionDecl) :
    (f.relabel c).body = f.body.map (Stmt.relabel c) := by
  obtain ⟨name, parameters, body⟩ := f
  exact Stmt.relabelAll_eq_map c body

@[simp] theorem FunctionDecl.isInitializer_relabel (f : FunctionDecl) :
    (f.relabel c).isInitializer = f.isInitializer := by
  simp [FunctionDecl.isInitializer]

@[simp] theorem FunctionDecl.methodRoutine_relabel (f : FunctionDecl) :
    (f.relabel c).methodRoutine = f.methodRoutine := by
  simp [FunctionDecl.methodRoutine]

theorem Expr.name?_relabel (e : Expr) :
    (e.relabel c).name? = e.name?.map (Token.relabel c) := by
  cases e <;> rfl

mutual

/-- Two changes of an expression are one. -/
theorem Expr.relabel_relabel : ∀ e : Expr, (e.relabel d).relabel c = e.relabel (c.comp d)
  | .literal _ => rfl
  | .grouping inner => by simp only [Expr.relabel, inner.relabel_relabel]
  | .unary operator operand => by
      simp only [Expr.relabel, operand.relabel_relabel, Token.relabel_relabel]
  | .binary left operator right => by
      simp only [Expr.relabel, left.relabel_relabel, right.relabel_relabel, Token.relabel_relabel]
  | .logical left operator right => by
      simp only [Expr.relabel, left.relabel_relabel, right.relabel_relabel, Token.relabel_relabel]
  | .read _ => rfl
  | .readConstant _ => rfl
  | .assign target value => by
      simp only [Expr.relabel, value.relabel_relabel, Reference.relabel_relabel]
  | .call callee closing arguments => by
      simp only [Expr.relabel, callee.relabel_relabel, Expr.relabelAll_relabelAll arguments,
        Token.relabel_relabel]
  | .get object name => by
      simp only [Expr.relabel, object.relabel_relabel, Token.relabel_relabel]
  | .set object name value => by
      simp only [Expr.relabel, object.relabel_relabel, value.relabel_relabel, Token.relabel_relabel]
  | .this _ _ => rfl
  | .super _ _ _ => rfl

theorem Expr.relabelAll_relabelAll :
    ∀ es : List Expr, Expr.relabelAll c (Expr.relabelAll d es) = Expr.relabelAll (c.comp d) es
  | [] => rfl
  | e :: es => by
      simp only [Expr.relabelAll, e.relabel_relabel, Expr.relabelAll_relabelAll es]

end

/-- The same of an expression that may be absent. -/
theorem Expr.map_relabel_relabel (e : Option Expr) :
    (e.map (Expr.relabel d)).map (Expr.relabel c) = e.map (Expr.relabel (c.comp d)) := by
  rw [Option.map_map]
  exact congrArg (e.map ·) (funext (Expr.relabel_relabel c d))

mutual

/-- Two changes of a statement are one. -/
theorem Stmt.relabel_relabel : ∀ s : Stmt, (s.relabel d).relabel c = s.relabel (c.comp d)
  | .block body => by simp only [Stmt.relabel, Stmt.relabelAll_relabelAll body]
  | .funDecl declaration => by simp only [Stmt.relabel, declaration.relabel_relabel]
  | .classDecl name parent methods => by
      simp only [Stmt.relabel, Expr.map_relabel_relabel,
        FunctionDecl.relabelAll_relabelAll methods, Token.relabel_relabel]
  | .varDecl name initializer => by
      simp only [Stmt.relabel, Expr.map_relabel_relabel, Token.relabel_relabel]
  | .constDecl name initializer => by
      simp only [Stmt.relabel, Expr.map_relabel_relabel, Token.relabel_relabel]
  | .exprStmt expression => by simp only [Stmt.relabel, Expr.relabel_relabel]
  | .ifStmt condition thenBranch none => by
      simp only [Stmt.relabel, Expr.relabel_relabel, thenBranch.relabel_relabel]
  | .ifStmt condition thenBranch (some elseBranch) => by
      simp only [Stmt.relabel, Expr.relabel_relabel, thenBranch.relabel_relabel,
        elseBranch.relabel_relabel]
  | .printStmt expression => by simp only [Stmt.relabel, Expr.relabel_relabel]
  | .returnStmt keyword value => by
      simp only [Stmt.relabel, Expr.map_relabel_relabel, Token.relabel_relabel]
  | .whileStmt condition body => by
      simp only [Stmt.relabel, Expr.relabel_relabel, body.relabel_relabel]

theorem Stmt.relabelAll_relabelAll :
    ∀ ss : List Stmt, Stmt.relabelAll c (Stmt.relabelAll d ss) = Stmt.relabelAll (c.comp d) ss
  | [] => rfl
  | s :: ss => by
      simp only [Stmt.relabelAll, s.relabel_relabel, Stmt.relabelAll_relabelAll ss]

theorem FunctionDecl.relabel_relabel :
    ∀ f : FunctionDecl, (f.relabel d).relabel c = f.relabel (c.comp d)
  | ⟨name, parameters, body⟩ => by
      simp only [FunctionDecl.relabel, Stmt.relabelAll_relabelAll body, List.map_map,
        Token.relabel_relabel]
      rfl

theorem FunctionDecl.relabelAll_relabelAll :
    ∀ fs : List FunctionDecl, FunctionDecl.relabelAll c (FunctionDecl.relabelAll d fs) =
      FunctionDecl.relabelAll (c.comp d) fs
  | [] => rfl
  | f :: fs => by
      simp only [FunctionDecl.relabelAll, f.relabel_relabel,
        FunctionDecl.relabelAll_relabelAll fs]

end

mutual

@[simp] theorem Expr.relabel_none : ∀ e : Expr, e.relabel .none = e
  | .literal _ => rfl
  | .grouping inner => by simp only [Expr.relabel, inner.relabel_none]
  | .unary operator operand => by
      simp only [Expr.relabel, operand.relabel_none, Token.relabel_none]
  | .binary left operator right => by
      simp only [Expr.relabel, left.relabel_none, right.relabel_none, Token.relabel_none]
  | .logical left operator right => by
      simp only [Expr.relabel, left.relabel_none, right.relabel_none, Token.relabel_none]
  | .read _ => rfl
  | .readConstant _ => rfl
  | .assign target value => by
      simp only [Expr.relabel, value.relabel_none, Reference.relabel_none]
  | .call callee closing arguments => by
      simp only [Expr.relabel, callee.relabel_none, Expr.relabelAll_none arguments,
        Token.relabel_none]
  | .get object name => by simp only [Expr.relabel, object.relabel_none, Token.relabel_none]
  | .set object name value => by
      simp only [Expr.relabel, object.relabel_none, value.relabel_none, Token.relabel_none]
  | .this _ _ => rfl
  | .super _ _ _ => rfl

theorem Expr.relabelAll_none : ∀ es : List Expr, Expr.relabelAll .none es = es
  | [] => rfl
  | e :: es => by simp only [Expr.relabelAll, e.relabel_none, Expr.relabelAll_none es]

end

@[simp] theorem Expr.map_relabel_none (e : Option Expr) : e.map (Expr.relabel .none) = e := by
  cases e <;> simp

mutual

@[simp] theorem Stmt.relabel_none : ∀ s : Stmt, s.relabel .none = s
  | .block body => by simp only [Stmt.relabel, Stmt.relabelAll_none body]
  | .funDecl declaration => by simp only [Stmt.relabel, declaration.relabel_none]
  | .classDecl name parent methods => by
      simp only [Stmt.relabel, Expr.map_relabel_none, FunctionDecl.relabelAll_none methods,
        Token.relabel_none]
  | .varDecl name initializer => by
      simp only [Stmt.relabel, Expr.map_relabel_none, Token.relabel_none]
  | .constDecl name initializer => by
      simp only [Stmt.relabel, Expr.map_relabel_none, Token.relabel_none]
  | .exprStmt expression => by simp only [Stmt.relabel, Expr.relabel_none]
  | .ifStmt condition thenBranch none => by
      simp only [Stmt.relabel, Expr.relabel_none, thenBranch.relabel_none]
  | .ifStmt condition thenBranch (some elseBranch) => by
      simp only [Stmt.relabel, Expr.relabel_none, thenBranch.relabel_none,
        elseBranch.relabel_none]
  | .printStmt expression => by simp only [Stmt.relabel, Expr.relabel_none]
  | .returnStmt keyword value => by
      simp only [Stmt.relabel, Expr.map_relabel_none, Token.relabel_none]
  | .whileStmt condition body => by
      simp only [Stmt.relabel, Expr.relabel_none, body.relabel_none]

theorem Stmt.relabelAll_none : ∀ ss : List Stmt, Stmt.relabelAll .none ss = ss
  | [] => rfl
  | s :: ss => by simp only [Stmt.relabelAll, s.relabel_none, Stmt.relabelAll_none ss]

theorem FunctionDecl.relabel_none : ∀ f : FunctionDecl, f.relabel .none = f
  | ⟨name, parameters, body⟩ => by
      have hparameters : parameters.map (Token.relabel .none) = parameters := List.map_id _
      simp only [FunctionDecl.relabel, Stmt.relabelAll_none body, Token.relabel_none, hparameters]

theorem FunctionDecl.relabelAll_none :
    ∀ fs : List FunctionDecl, FunctionDecl.relabelAll .none fs = fs
  | [] => rfl
  | f :: fs => by
      simp only [FunctionDecl.relabelAll, f.relabel_none, FunctionDecl.relabelAll_none fs]

end

end Trees

end Lox
