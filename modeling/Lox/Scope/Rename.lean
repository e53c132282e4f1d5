import Lox.Tree.Basic

/-!
# Renaming a local name

A local variable, a local constant or a parameter can be given another name: its declaration takes
the new name, and so does every reference whose link leads to the scope that declares it.  Other
declarations of the old name keep it, and so do the references that lead to them.

A scope is found by the way down to it.  On that way every scope around a place is either marked, if
it is the one in which the name is replaced, or not; a reference with a link of depth `n` leads to
the `n`-th of these scopes.  The top level of a program is no scope.
-/

namespace Lox

/-- An old name and the new one that replaces it. -/
structure Renaming where
  old : String
  new : String
  deriving DecidableEq, Repr

/-- The name that a marked scope declares in the place of a name; other scopes keep it. -/
def Renaming.apply (ρ : Renaming) (marked : Bool) (name : String) : String :=
  if marked && name == ρ.old then ρ.new else name

/--
The way down to a scope: at each step the number of the statement, method or branch to enter.  No
trail means that the scope lies elsewhere.
-/
abbrev Trail := Option (List Nat)

namespace Trail

/-- The scope that is entered is the one that the trail leads to. -/
def ends (t : Trail) : Bool := t == some []

/-- The rest of the trail in the first part of something. -/
def first : Trail → Trail
  | some (0 :: rest) => some rest
  | _ => none

/-- The rest of the trail among the other parts. -/
def others : Trail → Trail
  | some ((n + 1) :: rest) => some (n :: rest)
  | _ => none

variable {t : Trail}

theorem eq_of_ends (h : t.ends = true) : t = some [] :=
  eq_of_beq h

/-- A trail leads to the first part of something or to one of the others. -/
theorem first_eq_none_or (t : Trail) : t.first = none ∨ t.others = none := by
  rcases t with _ | _ | ⟨_ | _, _⟩
  · exact .inl rfl
  · exact .inl rfl
  · exact .inr rfl
  · exact .inl rfl

end Trail

/-- The scope at a distance is marked; without a distance none is. -/
def markAt (marks : List Bool) : Option Nat → Bool
  | some depth => marks.getD depth false
  | none => false

/-- The scope to which a link leads is marked. -/
def Link.leadsToMark (marks : List Bool) (link : Link) : Bool :=
  markAt marks link.depth

/-- A name that a marked scope declares, or another one. -/
def Token.renamed (ρ : Renaming) (marked : Bool) (t : Token) : Token :=
  { t with lexeme := ρ.apply marked t.lexeme }

/-- A reference with the name under which it finds what it refers to. -/
def Reference.renamed (ρ : Renaming) (marks : List Bool) (r : Reference) : Reference :=
  ⟨r.name.renamed ρ (r.link.leadsToMark marks), r.link⟩

mutual

def Expr.renamed (ρ : Renaming) (marks : List Bool) : Expr → Expr
  | .literal value => .literal value
  | .grouping inner => .grouping (inner.renamed ρ marks)
  | .unary operator operand => .unary operator (operand.renamed ρ marks)
  | .binary left operator right => .binary (left.renamed ρ marks) operator (right.renamed ρ marks)
  | .logical left operator right =>
      .logical (left.renamed ρ marks) operator (right.renamed ρ marks)
  | .read target => .read (target.renamed ρ marks)
  | .readConstant target => .readConstant (target.renamed ρ marks)
  | .assign target value => .assign (target.renamed ρ marks) (value.renamed ρ marks)
  | .call callee closing arguments =>
      .call (callee.renamed ρ marks) closing (Expr.renamedAll ρ marks arguments)
  | .get object name => .get (object.renamed ρ marks) name
  | .set object name value => .set (object.renamed ρ marks) name (value.renamed ρ marks)
  | .this keyword link => .this keyword link
  | .super keyword method link => .super keyword method link

def Expr.renamedAll (ρ : Renaming) (marks : List Bool) : List Expr → List Expr
  | [] => []
  | e :: es => e.renamed ρ marks :: Expr.renamedAll ρ marks es

end

/--
The marks of the scopes around methods: those of the instance and of the superclass have none.
-/
def marksOfMethods (isDerived : Bool) (marks : List Bool) : List Bool :=
  if isDerived then false :: false :: marks else false :: marks

mutual

def Stmt.renamed (ρ : Renaming) : Stmt → Trail → List Bool → Stmt
  | .block body, t, marks => .block (Stmt.renamedAll ρ body t (t.ends :: marks))
  | .funDecl declaration, t, marks => .funDecl (declaration.renamed ρ t marks)
  | .classDecl name parent methods, t, marks =>
      .classDecl name (parent.map (Expr.renamed ρ marks))
        (FunctionDecl.renamedAll ρ methods t (marksOfMethods parent.isSome marks))
  | .varDecl name initializer, _, marks =>
      .varDecl (name.renamed ρ (marks.headD false)) (initializer.map (Expr.renamed ρ marks))
  | .constDecl name initializer, _, marks =>
      .constDecl (name.renamed ρ (marks.headD false)) (initializer.map (Expr.renamed ρ marks))
  | .exprStmt expression, _, marks => .exprStmt (expression.renamed ρ marks)
  | .ifStmt condition thenBranch none, t, marks =>
      .ifStmt (condition.renamed ρ marks) (thenBranch.renamed ρ t.first marks) none
  | .ifStmt condition thenBranch (some elseBranch), t, marks =>
      .ifStmt (condition.renamed ρ marks) (thenBranch.renamed ρ t.first marks)
        (some (elseBranch.renamed ρ t.others.first marks))
  | .printStmt expression, _, marks => .printStmt (expression.renamed ρ marks)
  | .returnStmt keyword value, _, marks => .returnStmt keyword (value.map (Expr.renamed ρ marks))
  | .whileStmt condition body, t, marks =>
      .whileStmt (condition.renamed ρ marks) (body.renamed ρ t.first marks)

def Stmt.renamedAll (ρ : Renaming) : List Stmt → Trail → List Bool → List Stmt
  | [], _, _ => []
  | s :: ss, t, marks => s.renamed ρ t.first marks :: Stmt.renamedAll ρ ss t.others marks

def FunctionDecl.renamed (ρ : Renaming) : FunctionDecl → Trail → List Bool → FunctionDecl
  | ⟨name, parameters, body⟩, t, marks =>
      ⟨name, parameters.map (Token.renamed ρ t.ends), Stmt.renamedAll ρ body t (t.ends :: marks)⟩

def FunctionDecl.renamedAll (ρ : Renaming) :
    List FunctionDecl → Trail → List Bool → List FunctionDecl
  | [], _, _ => []
  | f :: fs, t, marks => f.renamed ρ t.first marks :: FunctionDecl.renamedAll ρ fs t.others marks

end

/-- A program with a name replaced in the scope at the end of a trail. -/
def renameLocal (trail : List Nat) (ρ : Renaming) (program : List Stmt) : List Stmt :=
  Stmt.renamedAll ρ program (some trail) []

/-- The statement declares a variable or a constant of this name. -/
def Stmt.declaresVariable (name : String) : Stmt → Bool
  | .varDecl t _ => t.lexeme == name
  | .constDecl t _ => t.lexeme == name
  | _ => false

mutual

/--
The scope at the end of the trail declares a variable, a constant or a parameter of this name.
-/
def Stmt.declaresAt (name : String) : Stmt → Trail → Bool
  | .block body, t =>
      t.ends && body.any (Stmt.declaresVariable name) || Stmt.declaresAtAny name body t
  | .funDecl declaration, t => declaration.declaresAt name t
  | .classDecl _ _ methods, t => FunctionDecl.declaresAtAny name methods t
  | .ifStmt _ thenBranch none, t => thenBranch.declaresAt name t.first
  | .ifStmt _ thenBranch (some elseBranch), t =>
      thenBranch.declaresAt name t.first || elseBranch.declaresAt name t.others.first
  | .whileStmt _ body, t => body.declaresAt name t.first
  | .varDecl _ _, _ | .constDecl _ _, _ | .exprStmt _, _ | .printStmt _, _ | .returnStmt _ _, _ =>
      false

def Stmt.declaresAtAny (name : String) : List Stmt → Trail → Bool
  | [], _ => false
  | s :: ss, t => s.declaresAt name t.first || Stmt.declaresAtAny name ss t.others

def FunctionDecl.declaresAt (name : String) : FunctionDecl → Trail → Bool
  | ⟨_, parameters, body⟩, t =>
      t.ends && (parameters.any (·.lexeme == name) || body.any (Stmt.declaresVariable name))
        || Stmt.declaresAtAny name body t

def FunctionDecl.declaresAtAny (name : String) : List FunctionDecl → Trail → Bool
  | [], _ => false
  | f :: fs, t => f.declaresAt name t.first || FunctionDecl.declaresAtAny name fs t.others

end

/-- A name is that of a variable, a constant or a parameter of the scope at the end of a trail. -/
def DeclaresLocal (trail : List Nat) (name : String) (program : List Stmt) : Prop :=
  Stmt.declaresAtAny name program (some trail) = true

mutual

/-- The names that an expression refers to. -/
def Expr.names : Expr → List String
  | .literal _ => []
  | .grouping inner => inner.names
  | .unary _ operand => operand.names
  | .binary left _ right => left.names ++ right.names
  | .logical left _ right => left.names ++ right.names
  | .read target => [target.name.lexeme]
  | .readConstant target => [target.name.lexeme]
  | .assign target value => target.name.lexeme :: value.names
  | .call callee _ arguments => callee.names ++ Expr.namesAll arguments
  | .get object _ => object.names
  | .set object _ value => object.names ++ value.names
  | .this _ _ => []
  | .super _ _ _ => []

def Expr.namesAll : List Expr → List String
  | [] => []
  | e :: es => e.names ++ Expr.namesAll es

end

/-- The names of an expression that may be absent. -/
def optionNames : Option Expr → List String
  | none => []
  | some e => e.names

mutual

/-- The names that a statement declares or refers to. -/
def Stmt.names : Stmt → List String
  | .block body => Stmt.namesAll body
  | .funDecl declaration => declaration.names
  | .classDecl name parent methods =>
      name.lexeme :: (optionNames parent ++ FunctionDecl.namesAll methods)
  | .varDecl name initializer => name.lexeme :: optionNames initializer
  | .constDecl name initializer => name.lexeme :: optionNames initializer
  | .exprStmt expression => expression.names
  | .ifStmt condition thenBranch none => condition.names ++ thenBranch.names
  | .ifStmt condition thenBranch (some elseBranch) =>
      condition.names ++ (thenBranch.names ++ elseBranch.names)
  | .printStmt expression => expression.names
  | .returnStmt _ value => optionNames value
  | .whileStmt condition body => condition.names ++ body.names

def Stmt.namesAll : List Stmt → List String
  | [] => []
  | s :: ss => s.names ++ Stmt.namesAll ss

def FunctionDecl.names : FunctionDecl → List String
  | ⟨name, parameters, body⟩ =>
      name.lexeme :: (parameters.map Token.lexeme ++ Stmt.namesAll body)

def FunctionDecl.namesAll : List FunctionDecl → List String
  | [] => []
  | f :: fs => f.names ++ FunctionDecl.namesAll fs

end

end Lox
