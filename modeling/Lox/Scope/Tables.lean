import Lox.Scope.Links
import Lox.Scope.Resolve

/-!
# Tables of links

Links can be kept apart from the trees, in tables that outlive the texts.  Then every reference has
a number of its own, which stands in the tree in place of its link, and resolution writes what it
finds into the tables under that number.

The numbers are given in the order in which resolution comes to the references.
-/

namespace Lox

/-- What stands in a tree for the link of the reference with a number. -/
def Link.numbered (n : Nat) : Link := ⟨some n, none⟩

/-- The number of references in an expression. -/
def Expr.size (e : Expr) : Nat := (e.references .resolved).length

/-- The number of references in a list of expressions. -/
def Expr.sizeAll (es : List Expr) : Nat := (Expr.referencesAll .resolved es).length

section ExprSizes

variable (e l r : Expr) (es : List Expr) (t u : Token) (x : Reference) (link : Link)

@[simp] theorem Expr.size_literal (v : Literal) : (literal v).size = 0 := rfl

@[simp] theorem Expr.size_grouping : (grouping e).size = e.size := rfl

@[simp] theorem Expr.size_unary : (unary t e).size = e.size := rfl

@[simp] theorem Expr.size_binary : (binary l t r).size = l.size + r.size := List.length_append

@[simp] theorem Expr.size_logical : (logical l t r).size = l.size + r.size := List.length_append

@[simp] theorem Expr.size_read : (read x).size = 1 := rfl

@[simp] theorem Expr.size_readConstant : (readConstant x).size = 1 := rfl

@[simp] theorem Expr.size_assign : (assign x e).size = e.size + 1 := List.length_append

@[simp] theorem Expr.size_call : (call e t es).size = e.size + Expr.sizeAll es :=
  List.length_append

@[simp] theorem Expr.size_get : (get e t).size = e.size := rfl

@[simp] theorem Expr.size_set : (set e t r).size = r.size + e.size := List.length_append

@[simp] theorem Expr.size_this : (this t link).size = 1 := rfl

@[simp] theorem Expr.size_super : (super t u link).size = 1 := rfl

@[simp] theorem Expr.sizeAll_nil : Expr.sizeAll [] = 0 := rfl

@[simp] theorem Expr.sizeAll_cons : Expr.sizeAll (e :: es) = e.size + Expr.sizeAll es :=
  List.length_append

end ExprSizes

mutual

/-- Gives the references of an expression their numbers, from `n` on. -/
def Expr.numbered (n : Nat) : Expr → Expr
  | .literal value => .literal value
  | .grouping inner => .grouping (inner.numbered n)
  | .unary operator operand => .unary operator (operand.numbered n)
  | .binary left operator right =>
      .binary (left.numbered n) operator (right.numbered (n + left.size))
  | .logical left operator right =>
      .logical (left.numbered n) operator (right.numbered (n + left.size))
  | .read target => .read ⟨target.name, .numbered n⟩
  | .readConstant target => .readConstant ⟨target.name, .numbered n⟩
  | .assign target value =>
      .assign ⟨target.name, .numbered (n + value.size)⟩ (value.numbered n)
  | .call callee closing arguments =>
      .call (callee.numbered n) closing (Expr.numberedAll (n + callee.size) arguments)
  | .get object name => .get (object.numbered n) name
  | .set object name value => .set (object.numbered (n + value.size)) name (value.numbered n)
  | .this keyword _ => .this keyword (.numbered n)
  | .super keyword method _ => .super keyword method (.numbered n)

def Expr.numberedAll (n : Nat) : List Expr → List Expr
  | [] => []
  | e :: es => e.numbered n :: Expr.numberedAll (n + e.size) es

end

/-- The number of references in an expression that may be absent. -/
def optionSize (e : Option Expr) : Nat := (optionReferences .resolved e).length

/-- The number of references in a statement. -/
def Stmt.size (s : Stmt) : Nat := (s.references .resolved).length

/-- The number of references in a function. -/
def FunctionDecl.size (f : FunctionDecl) : Nat := (f.references .resolved).length

/-- The number of references in a list of statements. -/
def Stmt.sizeAll (ss : List Stmt) : Nat := (Stmt.referencesAll .resolved ss).length

/-- The number of references in a list of functions. -/
def FunctionDecl.sizeAll (fs : List FunctionDecl) : Nat :=
  (FunctionDecl.referencesAll .resolved fs).length

section StmtSizes

variable (e : Expr) (o : Option Expr) (s u : Stmt) (ss : List Stmt) (f : FunctionDecl)
  (fs : List FunctionDecl) (t : Token)

@[simp] theorem optionSize_none : optionSize none = 0 := rfl

@[simp] theorem optionSize_some : optionSize (some e) = e.size := rfl

@[simp] theorem Stmt.size_block : (block ss).size = Stmt.sizeAll ss := rfl

@[simp] theorem Stmt.size_funDecl : (funDecl f).size = f.size := rfl

@[simp] theorem Stmt.size_classDecl :
    (classDecl t o fs).size = optionSize o + FunctionDecl.sizeAll fs := by
  cases o with
  | none => exact (Nat.zero_add _).symm
  | some e => exact List.length_append

@[simp] theorem Stmt.size_varDecl : (varDecl t o).size = optionSize o := rfl

@[simp] theorem Stmt.size_constDecl : (constDecl t o).size = optionSize o := rfl

@[simp] theorem Stmt.size_exprStmt : (exprStmt e).size = e.size := rfl

@[simp] theorem Stmt.size_ifStmt_none : (ifStmt e s none).size = e.size + s.size :=
  List.length_append

@[simp] theorem Stmt.size_ifStmt_some : (ifStmt e s (some u)).size = e.size + s.size + u.size :=
  List.length_append.trans (congrArg (· + _) List.length_append)

@[simp] theorem Stmt.size_printStmt : (printStmt e).size = e.size := rfl

@[simp] theorem Stmt.size_returnStmt : (returnStmt t o).size = optionSize o := rfl

@[simp] theorem Stmt.size_whileStmt : (whileStmt e s).size = e.size + s.size :=
  List.length_append

@[simp] theorem Stmt.sizeAll_nil : Stmt.sizeAll [] = 0 := rfl

@[simp] theorem Stmt.sizeAll_cons : Stmt.sizeAll (s :: ss) = s.size + Stmt.sizeAll ss :=
  List.length_append

@[simp] theorem FunctionDecl.size_mk (names : List Token) :
    (FunctionDecl.mk t names ss).size = Stmt.sizeAll ss := rfl

@[simp] theorem FunctionDecl.sizeAll_nil : FunctionDecl.sizeAll [] = 0 := rfl

@[simp] theorem FunctionDecl.sizeAll_cons :
    FunctionDecl.sizeAll (f :: fs) = f.size + FunctionDecl.sizeAll fs :=
  List.length_append

end StmtSizes

mutual

/-- Gives the references of a statement their numbers, from `n` on. -/
def Stmt.numbered (n : Nat) : Stmt → Stmt
  | .block body => .block (Stmt.numberedAll n body)
  | .funDecl declaration => .funDecl (declaration.numbered n)
  | .classDecl name parent methods =>
      .classDecl name (parent.map (Expr.numbered n))
        (FunctionDecl.numberedAll (n + optionSize parent) methods)
  | .varDecl name initializer => .varDecl name (initializer.map (Expr.numbered n))
  | .constDecl name initializer => .constDecl name (initializer.map (Expr.numbered n))
  | .exprStmt expression => .exprStmt (expression.numbered n)
  | .ifStmt condition thenBranch none =>
      .ifStmt (condition.numbered n) (thenBranch.numbered (n + condition.size)) none
  | .ifStmt condition thenBranch (some elseBranch) =>
      .ifStmt (condition.numbered n) (thenBranch.numbered (n + condition.size))
        (some (elseBranch.numbered (n + condition.size + thenBranch.size)))
  | .printStmt expression => .printStmt (expression.numbered n)
  | .returnStmt keyword value => .returnStmt keyword (value.map (Expr.numbered n))
  | .whileStmt condition body =>
      .whileStmt (condition.numbered n) (body.numbered (n + condition.size))

def Stmt.numberedAll (n : Nat) : List Stmt → List Stmt
  | [] => []
  | s :: ss => s.numbered n :: Stmt.numberedAll (n + s.size) ss

def FunctionDecl.numbered (n : Nat) : FunctionDecl → FunctionDecl
  | ⟨name, parameters, body⟩ => ⟨name, parameters, Stmt.numberedAll n body⟩

def FunctionDecl.numberedAll (n : Nat) : List FunctionDecl → List FunctionDecl
  | [] => []
  | f :: fs => f.numbered n :: FunctionDecl.numberedAll (n + f.size) fs

end

/-- The two tables: a number has an entry if something is known about its reference. -/
structure Tables where
  depths : List (Nat × Nat)
  constantDepths : List (Nat × Nat)
  deriving DecidableEq, Repr

namespace Tables

def empty : Tables := ⟨[], []⟩

/-- The link that is known for a number. -/
def link (t : Tables) (n : Nat) : Link :=
  ⟨t.depths.lookup n, t.constantDepths.lookup n⟩

/-- Looks up what stands in a tree for a link. -/
def look (t : Tables) (placeholder : Link) : Link :=
  match placeholder.depth with
  | some n => t.link n
  | none => .unresolved

/-- Puts an entry into a table, if there is something to put. -/
def entered (n : Nat) (depth : Option Nat) (table : List (Nat × Nat)) : List (Nat × Nat) :=
  match depth with
  | some d => (n, d) :: table
  | none => table

/-- Writes a link that has been found. -/
def record (t : Tables) (n : Nat) (link : Link) : Tables :=
  ⟨entered n link.depth t.depths, entered n link.constantDepth t.constantDepths⟩

/-- Writes several links, under the numbers from `n` on. -/
def recordAll (t : Tables) (n : Nat) : List Link → Tables
  | [] => t
  | link :: links => (t.record n link).recordAll (n + 1) links

end Tables

/-- The links that resolution finds, in the order in which it comes to the references. -/
def resolvedLinks (program : List Stmt) : List Link :=
  (Stmt.referencesAll .resolved (resolveProgram program)).map LinkRecord.link

end Lox
