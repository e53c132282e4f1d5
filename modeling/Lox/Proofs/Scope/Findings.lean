import Lox.Proofs.Scope.Locals
import Lox.Proofs.Scope.Tables
import Lox.Proofs.Scope.Walk

/-!
# What walks through a program find

A walk finds the errors and the links that belong to the program.  At the top level there is no
scope; so each walk through a program begins where the one before it has begun, finds the same
errors again and writes the same links into the tables, where they stand already.

**Main definitions.**
* `Walk.Finds`: the errors and the links by which one state of a walk is ahead of another.
* `entriesFrom`: the entries that links have in a table.

**Results.**
* `Expr.walk_finds`, `Stmt.walk_finds`: a walk finds the errors and the links of a tree.
* `Walk.errors_repeated`, `Walk.tables_repeated`: what several walks through a program find.
* `resolving_again_changes_nothing`: this for what parsed programs are, with the stack of scopes.
-/

namespace Lox

/-- The entries that links from a number on have in a table. -/
def entriesFrom (part : Link → Option Nat) : Nat → List Link → List (Nat × Nat)
  | _, [] => []
  | n, link :: links =>
      match part link with
      | some depth => (n, depth) :: entriesFrom part (n + 1) links
      | none => entriesFrom part (n + 1) links

/-- Puts entries into a table, one after the other. -/
def putEntries (table entries : List (Nat × Nat)) : List (Nat × Nat) :=
  entries.foldl (fun table entry => putEntry entry.1 entry.2 table) table

/-- Writes links under the numbers from `n` on. -/
def Tables.putAll (t : Tables) (n : Nat) (links : List Link) : Tables :=
  ⟨putEntries t.depths (entriesFrom Link.depth n links),
    putEntries t.constantDepths (entriesFrom Link.constantDepth n links)⟩

/-- The entries of two rows of links, the second of which is numbered behind the first. -/
theorem entriesFrom_append (part : Link → Option Nat) (n : Nat) (first second : List Link) :
    entriesFrom part n (first ++ second) =
      entriesFrom part n first ++ entriesFrom part (n + first.length) second := by
  induction first generalizing n with
  | nil => rfl
  | cons link links ih =>
      rw [List.cons_append, entriesFrom, entriesFrom, List.length_cons, ih,
        Nat.add_assoc n 1, Nat.add_comm 1]
      split <;> rfl

/-- Two rows of links are entered one after the other. -/
theorem Tables.putAll_append (t : Tables) (n : Nat) (first second : List Link) :
    t.putAll n (first ++ second) = (t.putAll n first).putAll (n + first.length) second := by
  simp only [Tables.putAll, putEntries, entriesFrom_append, List.foldl_append]

/-- A link that is known for a constant is the link of the name. -/
def Link.Agrees (link : Link) : Prop :=
  ∀ depth, link.constantDepth = some depth → link.depth = some depth

/--
A state of a walk is ahead of another by some errors and by the links of the references with the
numbers from `n` to `next`.
-/
structure Walk.Finds
    (w w' : Walk) (errors : List ScopeError) (n next : Nat) (links : List Link) : Prop where
  errors : w'.errors = w.errors ++ errors
  tables : w'.tables = w.tables.putAll n links
  next : next = n + links.length
  agree : ∀ link ∈ links, link.Agrees

namespace Walk

/-- Where nothing is done, nothing is found. -/
theorem Finds.refl (w : Walk) (n : Nat) : w.Finds w [] n n [] :=
  ⟨(List.append_nil _).symm, rfl, rfl, nofun⟩

/-- What is found on the way is found in the order of the way. -/
theorem Finds.trans
    {w w' w'' : Walk}
    {errors errors' : List ScopeError}
    {n next next' : Nat}
    {links links' : List Link}
    (h : w.Finds w' errors n next links)
    (h' : w'.Finds w'' errors' next next' links') :
    w.Finds w'' (errors ++ errors') n next' (links ++ links') where
  errors := by rw [h'.errors, h.errors, List.append_assoc]
  tables := by rw [h'.tables, h.tables, h.next, Tables.putAll_append]
  next := by rw [h'.next, h.next, List.length_append, Nat.add_assoc]
  agree := fun link hlink =>
    (List.mem_append.mp hlink).elim (h.agree link) (h'.agree link)

/-- Only links are found behind what has been found. -/
theorem Finds.andLinks
    {w w' w'' : Walk}
    {errors : List ScopeError}
    {n next next' : Nat}
    {links links' : List Link}
    (h : w.Finds w' errors n next links)
    (h' : w'.Finds w'' [] next next' links') :
    w.Finds w'' errors n next' (links ++ links') := by
  have hboth := h.trans h'
  rwa [List.append_nil] at hboth

/-- Nothing is found behind what has been found. -/
theorem Finds.andNothing
    {w w' w'' : Walk}
    {errors : List ScopeError}
    {n next : Nat}
    {links : List Link}
    (h : w.Finds w' errors n next links)
    (h' : w'.Finds w'' [] next next []) :
    w.Finds w'' errors n next links := by
  have hboth := h.andLinks h'
  rwa [List.append_nil] at hboth

/-- Reported errors are found, and no links. -/
theorem finds_report (w : Walk) (errors : List ScopeError) (n : Nat) :
    w.Finds (w.report errors) errors n n [] :=
  ⟨rfl, rfl, rfl, nofun⟩

/-- Nothing is found while scopes are opened and closed. -/
theorem finds_nothing
    {w w' : Walk}
    {n : Nat}
    (h : w'.errors = w.errors ∧ w'.tables = w.tables) :
    w.Finds w' [] n n [] :=
  ⟨h.1.trans (List.append_nil _).symm, h.2, rfl, nofun⟩

/-- To change the class in hand finds nothing. -/
theorem finds_setOwner (w : Walk) (owner : Owner) (n : Nat) :
    w.Finds (w.setOwner owner) [] n n [] :=
  finds_nothing ⟨rfl, rfl⟩

/-- To open a scope finds nothing. -/
theorem finds_enter (w : Walk) (scope : OpenScope) (n : Nat) : w.Finds (w.enter scope) [] n n [] :=
  finds_nothing ⟨rfl, rfl⟩

/-- To close a scope finds nothing. -/
theorem finds_leave (w : Walk) (n : Nat) : w.Finds w.leave [] n n [] :=
  finds_nothing ⟨rfl, rfl⟩

/-- To close the scope of a superclass finds nothing. -/
theorem finds_leaveSuperclass (w : Walk) (parent : Option Expr) (n : Nat) :
    w.Finds (w.leaveSuperclass parent) [] n n [] := by
  cases parent <;> exact finds_nothing ⟨rfl, rfl⟩

theorem finds_onInnermost (w : Walk) (change : OpenScope → OpenScope) (n : Nat) :
    w.Finds (w.onInnermost change) [] n n [] := by
  unfold onInnermost
  split <;> exact finds_nothing ⟨rfl, rfl⟩

/-- To define a name finds nothing. -/
theorem finds_define (w : Walk) (name : Token) (n : Nat) : w.Finds (w.define name) [] n n [] :=
  w.finds_onInnermost _ n

section Places

variable
  {w : Walk}
  {c : Context}
  (h : w.At c)
include h

/-- A declaration is reported if the scope has the name already. -/
theorem At.finds_declare (name : Token) (n : Nat) :
    w.Finds (w.declare name) (c.declarationErrors name) n n [] := by
  rw [Context.declarationErrors, ← h.innermost_declares]
  exact (w.finds_report _ n).andLinks (finds_onInnermost _ _ n)

/-- The link of a name is written under the number of the reference. -/
theorem At.finds_resolveLocal (name : String) (n : Nat) :
    w.Finds (w.resolveLocal name (.numbered n)) [] n (n + 1) [c.link name .unresolved] := by
  unfold resolveLocal Context.link
  rw [(h.distance?_eq name).1]
  cases findScope? name c.scopes with
  | none => exact ⟨(List.append_nil _).symm, rfl, rfl, by simp [Link.Agrees, Link.unresolved]⟩
  | some found => exact ⟨(List.append_nil _).symm, rfl, rfl, by simp [Link.Agrees, Link.unresolved]⟩

/-- The link of an assignment is found under the next number. -/
theorem At.finds_resolveAssigned (name : String) (n : Nat) :
    w.Finds (w.resolveAssigned name (.numbered n)) [] n (n + 1)
      [c.assignmentLink name .unresolved] := by
  have hdistance := h.distance?_eq name
  unfold resolveAssigned resolveLocal Context.assignmentLink
  rw [hdistance.1]
  cases hfound : findScope? name c.scopes with
  | none => exact ⟨(List.append_nil _).symm, rfl, rfl, by simp [Link.Agrees, Link.unresolved]⟩
  | some found =>
      obtain ⟨depth, standing⟩ := found
      have hconstant := hdistance.2 depth standing hfound
      dsimp only [Option.map_some]
      rw [hconstant]
      cases standing <;>
        exact ⟨(List.append_nil _).symm, rfl, rfl, by simp [Link.Agrees, Link.unresolved]⟩

/-- The link of a name that is read is found under the next number. -/
theorem At.finds_read (name : Token) (n : Nat) :
    w.Finds (w.read ⟨name, .numbered n⟩) (c.readErrors name) n (n + 1)
      [c.link name.lexeme .unresolved] := by
  rw [Context.readErrors, ← h.innermost_isPending]
  exact (w.finds_report _ n).andLinks ((h.report _).finds_resolveLocal name.lexeme n)

/-- The link to the instance is found under the next number. -/
theorem At.finds_this (keyword : Token) (n : Nat) :
    w.Finds (w.this keyword (.numbered n)) (c.thisErrors keyword) n (n + 1)
      [c.thisLink .unresolved] := by
  unfold Walk.this Context.thisErrors Context.thisLink
  rw [h.owner]
  cases c.owner with
  | none => exact ⟨rfl, rfl, rfl, by simp [Link.Agrees, Link.unresolved]⟩
  | base => exact h.finds_resolveLocal "this" n
  | derived => exact h.finds_resolveLocal "this" n

/-- The link to the superclass is found under the next number. -/
theorem At.finds_super (keyword : Token) (n : Nat) :
    w.Finds (w.super keyword (.numbered n)) (c.superErrors keyword) n (n + 1)
      [c.link "super" .unresolved] := by
  have herrors : w.superErrors keyword = c.superErrors keyword := by
    rw [Walk.superErrors, h.owner, Context.superErrors]
    cases c.owner <;> rfl
  rw [Walk.super, herrors]
  exact (w.finds_report _ n).andLinks ((h.report _).finds_resolveLocal "super" n)

end Places

end Walk

/-- The links that resolution finds in an expression without links. -/
def Expr.linksIn (c : Context) (e : Expr) : List Link :=
  linksOf (((e.relabel .unlinked).resolve c).references .resolved)

def Expr.linksInAll (c : Context) (es : List Expr) : List Link :=
  linksOf (Expr.referencesAll .resolved (Expr.resolveAll c (Expr.relabelAll .unlinked es)))

theorem linksOf_append (first second : List LinkRecord) :
    linksOf (first ++ second) = linksOf first ++ linksOf second :=
  List.map_append

mutual

/-- Walking through an expression finds its errors and its links. -/
theorem Expr.walk_finds :
    ∀ (e : Expr) {w : Walk} {c : Context} (n : Nat), w.At c →
      w.Finds ((e.numbered n).walk w) (e.errors c none) n (n + e.size) (e.linksIn c)
  | .literal _, w, _, n, _ => .refl w n
  | .grouping inner, _, _, n, h => inner.walk_finds n h
  | .unary _ operand, _, _, n, h => operand.walk_finds n h
  | .binary left _ right, w, c, n, h => by
      have hright := right.walk_finds (n + left.size)
        (h.restores ((left.numbered n).walk_restores w))
      rw [Expr.size_binary, ← Nat.add_assoc, Expr.linksIn, Expr.relabel, Expr.resolve,
        Expr.references, linksOf_append]
      exact (left.walk_finds n h).trans hright
  | .logical left _ right, w, c, n, h => by
      have hright := right.walk_finds (n + left.size)
        (h.restores ((left.numbered n).walk_restores w))
      rw [Expr.size_logical, ← Nat.add_assoc, Expr.linksIn, Expr.relabel, Expr.resolve,
        Expr.references, linksOf_append]
      exact (left.walk_finds n h).trans hright
  | .read target, _, _, n, h => h.finds_read target.name n
  | .readConstant target, _, _, n, h => h.finds_read target.name n
  | .assign target value, w, c, n, h => by
      have htarget := (h.restores ((value.numbered n).walk_restores w)).finds_resolveAssigned
        target.name.lexeme (n + value.size)
      rw [Expr.size_assign, ← Nat.add_assoc, Expr.linksIn, Expr.relabel, Expr.resolve,
        Expr.references, linksOf_append]
      exact (value.walk_finds n h).andLinks htarget
  | .call callee _ arguments, w, c, n, h => by
      have harguments := Expr.walkAll_finds arguments (n + callee.size)
        (h.restores ((callee.numbered n).walk_restores w))
      rw [Expr.size_call, ← Nat.add_assoc, Expr.linksIn, Expr.relabel, Expr.resolve,
        Expr.references, linksOf_append]
      exact (callee.walk_finds n h).trans harguments
  | .get object _, _, _, n, h => object.walk_finds n h
  | .set object _ value, w, c, n, h => by
      have hobject := object.walk_finds (n + value.size)
        (h.restores ((value.numbered n).walk_restores w))
      rw [Expr.size_set, ← Nat.add_assoc, Expr.linksIn, Expr.relabel, Expr.resolve,
        Expr.references, linksOf_append]
      exact (value.walk_finds n h).trans hobject
  | .this keyword _, _, _, n, h => h.finds_this keyword n
  | .super keyword _ _, _, _, n, h => h.finds_super keyword n

/-- The walk through several expressions finds their errors and their links. -/
theorem Expr.walkAll_finds :
    ∀ (es : List Expr) {w : Walk} {c : Context} (n : Nat), w.At c →
      w.Finds (Expr.walkAll (Expr.numberedAll n es) w) (Expr.errorsAll c es none) n
        (n + Expr.sizeAll es) (Expr.linksInAll c es)
  | [], w, _, n, _ => .refl w n
  | e :: es, w, c, n, h => by
      have hrest := Expr.walkAll_finds es (n + e.size)
        (h.restores ((e.numbered n).walk_restores w))
      rw [Expr.sizeAll_cons, ← Nat.add_assoc, Expr.linksInAll, Expr.relabelAll, Expr.resolveAll,
        Expr.referencesAll, linksOf_append]
      exact (e.walk_finds n h).trans hrest

end

/-- The walk through an expression that may be absent finds its errors and its links. -/
theorem optionWalk_finds
    (o : Option Expr)
    {w : Walk}
    {c : Context}
    (n : Nat)
    (h : w.At c) :
    w.Finds (optionWalk (o.map (Expr.numbered n)) w) (optionErrors c o none) n (n + optionSize o)
      (linksOf (optionReferences .resolved
        ((o.map (Expr.relabel .unlinked)).map (Expr.resolve c)))) := by
  cases o with
  | none => exact .refl w n
  | some e => exact e.walk_finds n h

section Numbers

variable (n : Nat)

@[simp] theorem FunctionDecl.name_numbered (f : FunctionDecl) : (f.numbered n).name = f.name := by
  obtain ⟨name, parameters, body⟩ := f
  rfl

@[simp] theorem FunctionDecl.methodRoutine_numbered (f : FunctionDecl) :
    (f.numbered n).methodRoutine = f.methodRoutine := by
  simp [FunctionDecl.methodRoutine, FunctionDecl.isInitializer]

theorem Expr.name?_numbered (e : Expr) : (e.numbered n).name? = e.name? := by
  cases e <;> rfl

/-- A class inherits from itself by name, whatever the numbers are. -/
theorem inheritanceErrors_numbered (name : Token) (e : Expr) :
    inheritanceErrors name (e.numbered n) = inheritanceErrors name e := by
  rw [inheritanceErrors, e.name?_numbered, inheritanceErrors]

/-- Numbers have nothing to do with names. -/
theorem Stmt.contextAfter_numbered (s : Stmt) (c : Context) :
    (s.numbered n).contextAfter c = s.contextAfter c := by
  fun_induction Stmt.contextAfter s c generalizing n <;> simp_all [Stmt.numbered, Stmt.contextAfter]

end Numbers

namespace Walk

variable
  {w : Walk}
  {c : Context}
  (h : w.At c)
include h

/-- Behind the name of a class, the class is defined. -/
theorem At.nameClass (name : Token) :
    ((w.nameClass name).setOwner w.owner).At (c.define name) := by
  have hnamed := ((h.setOwner .base).declare name).define
  exact ⟨hnamed.scopes, hnamed.routine, h.owner⟩

/-- Among the methods of a class. -/
theorem At.inClass (name : Token) (parent : Option Expr) :
    (((w.nameClass name).enterSuperclass name parent).enter (.binding "this")).At
      ((c.define name).inClass parent.isSome) := by
  have hnamed := ((h.setOwner .base).declare name).define
  cases parent with
  | none => exact hnamed.enter (.binding "this")
  | some e =>
      have hparent := ((hnamed.report (inheritanceErrors name e)).setOwner .derived).restores
        (e.walk_restores _)
      exact (hparent.enter (.binding "super")).enter (.binding "this")

end Walk

/-- Behind a statement, the open scopes say the same as the context there. -/
theorem Stmt.walk_at :
    ∀ (s : Stmt) {w : Walk} {c : Context}, w.At c → (s.walk w).At (s.contextAfter c)
  | .block body, _, _, h => h.restores (Stmt.walkAll_samePlace body _).leave
  | .funDecl f, _, _, h => (h.declare f.name).define.restores (f.walk_restores .function _)
  | .classDecl name _ methods, _, _, h =>
      (h.nameClass name).restores
        (Walk.restores_class (FunctionDecl.walkMethods_restores methods _))
  | .varDecl name initializer, _, _, h =>
      ((h.declare name).restores (optionWalk_restores initializer _)).define
  | .constDecl name none, _, _, h => ((h.declare name).report _).define.markConstant
  | .constDecl name (some value), _, _, h =>
      ((h.declare name).restores (value.walk_restores _)).define.markConstant
  | .exprStmt e, w, _, h => h.restores (e.walk_restores w)
  | .ifStmt condition thenBranch none, w, _, h =>
      thenBranch.walk_at (h.restores (condition.walk_restores w))
  | .ifStmt condition thenBranch (some elseBranch), w, _, h =>
      elseBranch.walk_at (thenBranch.walk_at (h.restores (condition.walk_restores w)))
  | .printStmt e, w, _, h => h.restores (e.walk_restores w)
  | .returnStmt keyword value, w, _, h => h.restores (w.restores_return keyword value)
  | .whileStmt condition body, w, _, h =>
      body.walk_at (h.restores (condition.walk_restores w))

/-- The walk through a statement comes to the place behind it. -/
theorem Stmt.walk_numbered_at
    (s : Stmt)
    {w : Walk}
    {c : Context}
    (n : Nat)
    (h : w.At c) :
    ((s.numbered n).walk w).At (s.contextAfter c) := by
  rw [← s.contextAfter_numbered n]
  exact (s.numbered n).walk_at h

namespace Walk

variable
  {w : Walk}
  {c : Context}
  (h : w.At c)
include h

omit h in
/-- The walk finds all parameters that are declared twice. -/
theorem At.finds_declareAll (names : List Token) (n : Nat) :
    ∀ {w : Walk} {c : Context}, w.At c →
      w.Finds (w.declareAll names) (Context.parameterErrors names c) n n [] := by
  induction names with
  | nil => exact fun {w _} _ => .refl w n
  | cons name names ih =>
      intro w c h
      have hname := (h.finds_declare name n).andLinks (finds_define _ name n)
      exact hname.trans (ih (h.declare name).define)

/-- The walk finds that a value is returned where none may be. -/
theorem At.finds_return (keyword : Token) (value : Option Expr) (n : Nat) :
    w.Finds (w.return keyword (value.map (Expr.numbered n)))
      (c.returnErrors keyword value.isSome ++ optionErrors c value none) n (n + optionSize value)
      (linksOf (optionReferences .resolved
        ((value.map (Expr.relabel .unlinked)).map (Expr.resolve c)))) := by
  unfold Walk.return Context.returnErrors
  rw [h.routine]
  cases value with
  | none =>
      have herrors : errorIf (c.routine == .none) .returnAtTopLevel keyword
          ++ errorIf ((none : Option Expr).isSome && c.routine == .initializer)
            .returnValueFromInitializer keyword ++ optionErrors c none none =
          errorIf (c.routine == .none) .returnAtTopLevel keyword := by
        simp [errorIf, optionErrors]
      rw [herrors]
      exact w.finds_report _ n
  | some e =>
      have htop := w.finds_report (errorIf (c.routine == .none) .returnAtTopLevel keyword) n
      have hchecked := htop.trans
        (finds_report _ (errorIf (c.routine == .initializer) .returnValueFromInitializer keyword) n)
      exact hchecked.trans (e.walk_finds n ((h.report _).report _))

/-- Up to the methods of a class, errors about its name and its superclass are found. -/
theorem At.finds_class (name : Token) (parent : Option Expr) (n : Nat) :
    w.Finds
      (((w.nameClass name).enterSuperclass name (parent.map (Expr.numbered n))).enter
        (.binding "this"))
      (c.declarationErrors name ++ superclassErrors c name parent none) n (n + optionSize parent)
      (linksOf (optionReferences .resolved
        ((parent.map (Expr.relabel .unlinked)).map (Expr.resolve (c.atSuperclass name))))) := by
  have hbase := h.setOwner .base
  have hnamed := (hbase.declare name).define
  have hname := ((w.finds_setOwner .base n).trans (hbase.finds_declare name n)).andLinks
    (finds_define _ name n)
  cases parent with
  | none =>
      rw [superclassErrors, List.append_nil]
      exact hname.andLinks (finds_enter _ _ n)
  | some e =>
      have hreport := hname.trans (finds_report _ (inheritanceErrors name e) n)
      have hderived := (hnamed.report (inheritanceErrors name e)).setOwner .derived
      have hparent := (hreport.andLinks (finds_setOwner _ .derived n)).trans
        (e.walk_finds n hderived)
      have hfound := (hparent.andNothing (finds_enter _ (.binding "super") _)).andNothing
        (finds_enter _ (.binding "this") _)
      simp only [List.append_assoc, List.nil_append, List.append_nil] at hfound
      simp only [Option.map_some, Walk.enterSuperclass, inheritanceErrors_numbered,
        superclassErrors]
      exact hfound

end Walk

/-- The links that resolution finds in a statement without links. -/
def Stmt.linksIn (c : Context) (s : Stmt) : List Link :=
  linksOf (((s.relabel .unlinked).resolve c).references .resolved)

def Stmt.linksInAll (c : Context) (ss : List Stmt) : List Link :=
  linksOf (Stmt.referencesAll .resolved (Stmt.resolveAll (Stmt.relabelAll .unlinked ss) c))

def FunctionDecl.linksIn (routine : Routine) (c : Context) (f : FunctionDecl) : List Link :=
  linksOf (((f.relabel .unlinked).resolve routine c).references .resolved)

def FunctionDecl.linksInMethods (c : Context) (fs : List FunctionDecl) : List Link :=
  linksOf (FunctionDecl.referencesAll .resolved
    (FunctionDecl.resolveMethods (FunctionDecl.relabelAll .unlinked fs) c))

mutual

/-- Walking through a statement finds its errors and its links. -/
theorem Stmt.walk_finds :
    ∀ (s : Stmt) {w : Walk} {c : Context} (n : Nat), w.At c →
      w.Finds ((s.numbered n).walk w) (s.errors c none) n (n + s.size) (s.linksIn c)
  | .block body, w, _, n, h =>
      ((w.finds_enter .empty n).trans (Stmt.walkAll_finds body n (h.enter .empty))).andNothing
        (Walk.finds_leave _ _)
  | .funDecl f, _, _, n, h => by
      have hname := (h.finds_declare f.name n).andNothing (Walk.finds_define _ f.name n)
      rw [Stmt.numbered, Stmt.walk, FunctionDecl.name_numbered, Stmt.linksIn, Stmt.relabel,
        Stmt.resolve, FunctionDecl.name_relabel]
      exact hname.trans (f.walk_finds .function n (h.declare f.name).define)
  | .classDecl name parent methods, w, c, n, h => by
      have hinside := h.inClass name (parent.map (Expr.numbered n))
      rw [Option.isSome_map] at hinside
      have hfound := (h.finds_class name parent n).trans
        (FunctionDecl.walkMethods_finds methods (n + optionSize parent) hinside)
      have hlinks : Stmt.linksIn c (.classDecl name parent methods) =
          linksOf (optionReferences .resolved
              ((parent.map (Expr.relabel .unlinked)).map (Expr.resolve (c.atSuperclass name))))
            ++ FunctionDecl.linksInMethods ((c.define name).inClass parent.isSome) methods := by
        cases parent with
        | none => rfl
        | some e => exact linksOf_append _ _
      rw [Stmt.size_classDecl, ← Nat.add_assoc, hlinks]
      exact ((hfound.andNothing (Walk.finds_leave _ _)).andNothing
        (Walk.finds_leaveSuperclass _ _ _)).andNothing (Walk.finds_setOwner _ _ _)
  | .varDecl name initializer, _, _, n, h =>
      ((h.finds_declare name n).trans
        (optionWalk_finds initializer n (h.declare name))).andNothing (Walk.finds_define _ name _)
  | .constDecl name none, _, _, n, h =>
      (((h.finds_declare name n).trans (Walk.finds_report _ _ n)).andNothing
        (Walk.finds_define _ name n)).andNothing (Walk.finds_onInnermost _ _ n)
  | .constDecl name (some value), _, _, n, h =>
      (((h.finds_declare name n).trans (value.walk_finds n (h.declare name))).andNothing
        (Walk.finds_define _ name _)).andNothing (Walk.finds_onInnermost _ _ _)
  | .exprStmt e, _, _, n, h => e.walk_finds n h
  | .ifStmt condition thenBranch none, w, c, n, h => by
      have hcondition := h.restores ((condition.numbered n).walk_restores w)
      rw [Stmt.size_ifStmt_none, ← Nat.add_assoc, Stmt.linksIn, Stmt.relabel, Stmt.resolve,
        Stmt.references, linksOf_append]
      exact (condition.walk_finds n h).trans (thenBranch.walk_finds _ hcondition)
  | .ifStmt condition thenBranch (some elseBranch), w, c, n, h => by
      have hcondition := h.restores ((condition.numbered n).walk_restores w)
      have hthen := thenBranch.walk_numbered_at (n + condition.size) hcondition
      rw [Stmt.size_ifStmt_some, ← Nat.add_assoc, ← Nat.add_assoc, Stmt.linksIn, Stmt.relabel,
        Stmt.resolve, Stmt.references, linksOf_append, linksOf_append, Stmt.contextAfter_relabel]
      exact ((condition.walk_finds n h).trans (thenBranch.walk_finds _ hcondition)).trans
        (elseBranch.walk_finds _ hthen)
  | .printStmt e, _, _, n, h => e.walk_finds n h
  | .returnStmt keyword value, _, _, n, h => h.finds_return keyword value n
  | .whileStmt condition body, w, c, n, h => by
      have hcondition := h.restores ((condition.numbered n).walk_restores w)
      rw [Stmt.size_whileStmt, ← Nat.add_assoc, Stmt.linksIn, Stmt.relabel, Stmt.resolve,
        Stmt.references, linksOf_append]
      exact (condition.walk_finds n h).trans (body.walk_finds _ hcondition)

/-- The walk through several statements finds their errors and their links. -/
theorem Stmt.walkAll_finds :
    ∀ (ss : List Stmt) {w : Walk} {c : Context} (n : Nat), w.At c →
      w.Finds (Stmt.walkAll (Stmt.numberedAll n ss) w) (Stmt.errorsAll ss c none) n
        (n + Stmt.sizeAll ss) (Stmt.linksInAll c ss)
  | [], w, _, n, _ => .refl w n
  | s :: ss, w, c, n, h => by
      rw [Stmt.sizeAll_cons, ← Nat.add_assoc, Stmt.linksInAll, Stmt.relabelAll, Stmt.resolveAll,
        Stmt.referencesAll, linksOf_append, Stmt.contextAfter_relabel]
      exact (s.walk_finds n h).trans (Stmt.walkAll_finds ss (n + s.size) (s.walk_numbered_at n h))

/-- The walk through a function finds its errors and its links. -/
theorem FunctionDecl.walk_finds :
    ∀ (f : FunctionDecl) (routine : Routine) {w : Walk} {c : Context} (n : Nat), w.At c →
      w.Finds ((f.numbered n).walk routine w) (f.errors routine c none) n (n + f.size)
        (f.linksIn routine c)
  | ⟨name, parameters, body⟩, routine, w, c, n, h => by
      have hentered : ((w.setRoutine routine).enter .empty).At (c.atParameters routine) :=
        ⟨.cons .empty h.scopes, rfl, h.owner⟩
      have hopened : w.Finds ((w.setRoutine routine).enter .empty) [] n n [] :=
        Walk.finds_nothing ⟨rfl, rfl⟩
      have hparameters := hopened.trans (Walk.At.finds_declareAll parameters n hentered)
      have hbody := hparameters.trans (Stmt.walkAll_finds body n (hentered.declareAll parameters))
      rw [FunctionDecl.linksIn, FunctionDecl.relabel, Token.map_relabel_unlinked]
      exact hbody.andNothing (Walk.finds_nothing ⟨rfl, rfl⟩)

/-- The walk through methods finds their errors and their links. -/
theorem FunctionDecl.walkMethods_finds :
    ∀ (fs : List FunctionDecl) {w : Walk} {c : Context} (n : Nat), w.At c →
      w.Finds (FunctionDecl.walkMethods (FunctionDecl.numberedAll n fs) w)
        (FunctionDecl.errorsOfMethods fs c none) n (n + FunctionDecl.sizeAll fs)
        (FunctionDecl.linksInMethods c fs)
  | [], w, _, n, _ => .refl w n
  | f :: fs, w, c, n, h => by
      have hrest := FunctionDecl.walkMethods_finds fs (n + f.size)
        (h.restores ((f.numbered n).walk_restores f.methodRoutine w))
      rw [FunctionDecl.sizeAll_cons, ← Nat.add_assoc, FunctionDecl.linksInMethods,
        FunctionDecl.relabelAll, FunctionDecl.resolveMethods, FunctionDecl.referencesAll,
        linksOf_append, FunctionDecl.methodRoutine_relabel, FunctionDecl.numberedAll,
        FunctionDecl.walkMethods, FunctionDecl.methodRoutine_numbered]
      exact (f.walk_finds f.methodRoutine n h).trans hrest

end

/-! ### Several walks -/

section Tables

variable
  {n depth : Nat}
  {table entries : List (Nat × Nat)}

/-- An entry that stands in a table already is not written again. -/
theorem putEntry_of_lookup (h : table.lookup n = some depth) : putEntry n depth table = table := by
  induction table with
  | nil => cases h
  | cons entry rest ih =>
      obtain ⟨m, value⟩ := entry
      rw [putEntry]
      cases hm : m == n with
      | true =>
          obtain rfl := eq_of_beq hm
          have hvalue : value = depth := by simpa using h
          simp [hvalue]
      | false =>
          have hother : (n == m) = false := by rw [← hm]; exact Bool.beq_comm
          simp only [List.lookup, hother] at h
          simp [ih h]

/-- A new entry stands at the end. -/
theorem putEntry_of_not_mem (h : ∀ entry ∈ table, entry.1 ≠ n) :
    putEntry n depth table = table ++ [(n, depth)] := by
  induction table with
  | nil => rfl
  | cons entry rest ih =>
      have hentry : (entry.1 == n) = false := beq_false_of_ne (h entry List.mem_cons_self)
      simp [putEntry, hentry, ih fun other hother => h other (List.mem_cons_of_mem entry hother)]

/-- The numbers of the entries go up. -/
abbrev Ascending (entries : List (Nat × Nat)) : Prop :=
  entries.Pairwise fun entry later => entry.1 < later.1

/-- Entries with higher numbers go behind a table. -/
theorem putEntries_append
    (hentries : Ascending entries)
    (htable : ∀ entry ∈ table, ∀ later ∈ entries, entry.1 < later.1) :
    putEntries table entries = table ++ entries := by
  induction entries generalizing table with
  | nil => exact (List.append_nil table).symm
  | cons entry rest ih =>
      obtain ⟨hentry, hrest⟩ := List.pairwise_cons.mp hentries
      have hnew : putEntry entry.1 entry.2 table = table ++ [entry] :=
        putEntry_of_not_mem fun other hother =>
          Nat.ne_of_lt (htable other hother entry List.mem_cons_self)
      have hbehind : ∀ other ∈ table ++ [entry], ∀ later ∈ rest, other.1 < later.1 := by
        intro other hother later hlater
        rcases List.mem_append.mp hother with hmem | hmem
        · exact htable other hmem later (List.mem_cons_of_mem entry hlater)
        · exact List.mem_singleton.mp hmem ▸ hentry later hlater
      rw [putEntries, List.foldl_cons, hnew]
      exact (ih hrest hbehind).trans (by simp)

/-- Entries with higher numbers do not change what a number is looked up to. -/
theorem lookup_putEntries_of_lt (h : ∀ entry ∈ entries, n < entry.1) (table : List (Nat × Nat)) :
    (putEntries table entries).lookup n = table.lookup n := by
  induction entries generalizing table with
  | nil => rfl
  | cons entry rest ih =>
      have hentry : (n == entry.1) = false := beq_false_of_ne (h entry List.mem_cons_self).ne
      rw [putEntries, List.foldl_cons]
      refine (ih (fun other hother => h other (List.mem_cons_of_mem entry hother)) _).trans ?_
      simp [lookup_putEntry, hentry]

/-- Entries that have been written stand in the table. -/
theorem lookup_putEntries (hentries : Ascending entries) (table : List (Nat × Nat)) :
    ∀ entry ∈ entries, (putEntries table entries).lookup entry.1 = some entry.2 := by
  induction entries generalizing table with
  | nil => nofun
  | cons entry rest ih =>
      obtain ⟨hentry, hrest⟩ := List.pairwise_cons.mp hentries
      intro other hother
      rcases List.mem_cons.mp hother with rfl | hmem
      · rw [putEntries, List.foldl_cons]
        exact (lookup_putEntries_of_lt hentry _).trans (by simp [lookup_putEntry])
      · exact ih hrest _ other hmem

/-- Entries that stand in a table already are not written again. -/
theorem putEntries_of_lookup (h : ∀ entry ∈ entries, table.lookup entry.1 = some entry.2) :
    putEntries table entries = table := by
  induction entries with
  | nil => rfl
  | cons entry rest ih =>
      rw [putEntries, List.foldl_cons, putEntry_of_lookup (h entry List.mem_cons_self)]
      exact ih fun other hother => h other (List.mem_cons_of_mem entry hother)

end Tables

/-- Entries are numbered from the first number on. -/
theorem le_of_mem_entriesFrom
    {part : Link → Option Nat}
    {n : Nat}
    {links : List Link}
    {entry : Nat × Nat}
    (h : entry ∈ entriesFrom part n links) :
    n ≤ entry.1 := by
  induction links generalizing n with
  | nil => cases h
  | cons link links ih =>
      rw [entriesFrom] at h
      split at h
      · rcases List.mem_cons.mp h with rfl | hmem
        · exact le_rfl
        · exact Nat.le_of_succ_le (ih hmem)
      · exact Nat.le_of_succ_le (ih h)

/-- The numbers of entries ascend. -/
theorem ascending_entriesFrom (part : Link → Option Nat) (n : Nat) (links : List Link) :
    Ascending (entriesFrom part n links) := by
  induction links generalizing n with
  | nil => exact .nil
  | cons link links ih =>
      rw [entriesFrom]
      split
      · exact .cons (fun _ hlater => le_of_mem_entriesFrom hlater) (ih (n + 1))
      · exact ih (n + 1)

/-- What is known of a constant is known of the name. -/
theorem mem_entriesFrom_of_agrees
    {n : Nat}
    {links : List Link}
    (h : ∀ link ∈ links, link.Agrees) :
    ∀ entry ∈ entriesFrom Link.constantDepth n links, entry ∈ entriesFrom Link.depth n links := by
  induction links generalizing n with
  | nil => nofun
  | cons link links ih =>
      intro entry hentry
      have hrest := ih (n := n + 1) fun other hother => h other (List.mem_cons_of_mem link hother)
      rw [entriesFrom] at hentry
      rw [entriesFrom]
      split at hentry
      · next depth hconstant =>
          rw [h link List.mem_cons_self depth hconstant]
          exact List.mem_cons.mpr ((List.mem_cons.mp hentry).imp_right (hrest entry))
      · split
        · exact List.mem_cons_of_mem _ (hrest entry hentry)
        · exact hrest entry hentry

namespace Tables

/-- Links that are entered twice are entered once. -/
theorem putAll_putAll (t : Tables) (n : Nat) (links : List Link) :
    (t.putAll n links).putAll n links = t.putAll n links := by
  simp only [putAll, Tables.mk.injEq]
  exact ⟨putEntries_of_lookup (lookup_putEntries (ascending_entriesFrom _ n links) _),
    putEntries_of_lookup (lookup_putEntries (ascending_entriesFrom _ n links) _)⟩

/-- Links that are entered in empty tables are all that the tables hold. -/
theorem putAll_empty (n : Nat) (links : List Link) :
    empty.putAll n links =
      ⟨entriesFrom Link.depth n links, entriesFrom Link.constantDepth n links⟩ := by
  simp only [putAll, Tables.mk.injEq]
  exact ⟨putEntries_append (ascending_entriesFrom _ n links) nofun,
    putEntries_append (ascending_entriesFrom _ n links) nofun⟩

end Tables

/-- At the top level, a walk through a program ends where it has begun. -/
theorem Stmt.walkAll_top (ss : List Stmt) {w : Walk} (h : w.At .top) :
    (Stmt.walkAll ss w).At .top := by
  induction ss generalizing w with
  | nil => exact h
  | cons s ss ih =>
      have hs := s.walk_at h
      rw [s.contextAfter_top] at hs
      exact ih hs

section Repeated

variable
  (program : List Stmt)
  (k : Nat)

/-- Every walk finds the errors of the program. -/
theorem Walk.errors_repeated (n : Nat) {w : Walk} (h : w.At .top) :
    (Walk.repeated (Stmt.numberedAll k program) n w).errors =
      w.errors ++ (List.replicate n (scopeErrors program)).flatten := by
  induction n generalizing w with
  | zero => exact (List.append_nil _).symm
  | succ n ih =>
      rw [Walk.repeated, ih (Stmt.walkAll_top _ h), (Stmt.walkAll_finds program k h).errors,
        List.replicate_succ, List.flatten_cons, List.append_assoc]
      rfl

/-- The first walk writes all links, and the others change nothing about them. -/
theorem Walk.tables_repeated (n : Nat) {w : Walk} (h : w.At .top) :
    (Walk.repeated (Stmt.numberedAll k program) (n + 1) w).tables =
      w.tables.putAll k (Stmt.linksInAll .top program) := by
  induction n generalizing w with
  | zero => exact (Stmt.walkAll_finds program k h).tables
  | succ n ih =>
      rw [Walk.repeated, ih (Stmt.walkAll_top _ h), (Stmt.walkAll_finds program k h).tables,
        Tables.putAll_putAll]

end Repeated

section Resolved

variable
  (c : Context)
  (name : String)
  (link : Link)

/-- The link that is found for a name with a link is this link. -/
theorem Context.link_link : c.link name (c.link name link) = c.link name link := by
  unfold Context.link
  split <;> rfl

/-- The link that is found for an assigned name with a link is this link. -/
theorem Context.assignmentLink_assignmentLink :
    c.assignmentLink name (c.assignmentLink name link) = c.assignmentLink name link := by
  unfold Context.assignmentLink
  cases findScope? name c.scopes with
  | none => rfl
  | some found =>
      obtain ⟨depth, standing⟩ := found
      cases standing <;> rfl

theorem Context.thisLink_thisLink : c.thisLink (c.thisLink link) = c.thisLink link := by
  unfold Context.thisLink
  cases c.owner with
  | none => rfl
  | base => exact c.link_link "this" link
  | derived => exact c.link_link "this" link

/-- A resolved reference resolves to itself. -/
theorem Reference.resolve_resolve (r : Reference) : (r.resolve c).resolve c = r.resolve c :=
  congrArg (Reference.mk r.name) (c.link_link _ _)

/-- A resolved target resolves to itself. -/
theorem Reference.resolveAssigned_resolveAssigned (r : Reference) :
    (r.resolveAssigned c).resolveAssigned c = r.resolveAssigned c :=
  congrArg (Reference.mk r.name) (c.assignmentLink_assignmentLink _ _)

mutual

/-- A resolved expression resolves to itself. -/
theorem Expr.resolve_resolve : ∀ e : Expr, (e.resolve c).resolve c = e.resolve c
  | .literal _ => rfl
  | .grouping inner => congrArg Expr.grouping inner.resolve_resolve
  | .unary operator operand => congrArg (Expr.unary operator) operand.resolve_resolve
  | .binary left _ right => by
      simp only [Expr.resolve, left.resolve_resolve, right.resolve_resolve]
  | .logical left _ right => by
      simp only [Expr.resolve, left.resolve_resolve, right.resolve_resolve]
  | .read target => congrArg Expr.read (target.resolve_resolve c)
  | .readConstant target => congrArg Expr.readConstant (target.resolve_resolve c)
  | .assign target value => by
      simp only [Expr.resolve, target.resolveAssigned_resolveAssigned c, value.resolve_resolve]
  | .call callee _ arguments => by
      simp only [Expr.resolve, callee.resolve_resolve, Expr.resolveAll_resolveAll arguments]
  | .get object name => congrArg (Expr.get · name) object.resolve_resolve
  | .set object _ value => by
      simp only [Expr.resolve, object.resolve_resolve, value.resolve_resolve]
  | .this keyword link => congrArg (Expr.this keyword) (c.thisLink_thisLink link)
  | .super keyword method link => congrArg (Expr.super keyword method) (c.link_link "super" link)

theorem Expr.resolveAll_resolveAll :
    ∀ es : List Expr, Expr.resolveAll c (Expr.resolveAll c es) = Expr.resolveAll c es
  | [] => rfl
  | e :: es => congrArg₂ List.cons e.resolve_resolve (Expr.resolveAll_resolveAll es)

end

theorem Expr.map_resolve_resolve (e : Option Expr) :
    (e.map (Expr.resolve c)).map (Expr.resolve c) = e.map (Expr.resolve c) := by
  rw [Option.map_map]
  exact congrArg (e.map ·) (funext (Expr.resolve_resolve c))

end Resolved

theorem FunctionDecl.isInitializer_resolve
    (f : FunctionDecl)
    (routine : Routine)
    (c : Context) :
    (f.resolve routine c).isInitializer = f.isInitializer := by
  obtain ⟨name, parameters, body⟩ := f
  rfl

/-- What a statement declares does not depend on links. -/
theorem Stmt.contextAfter_resolve (s : Stmt) (c c' : Context) :
    (s.resolve c').contextAfter c = s.contextAfter c := by
  fun_induction Stmt.contextAfter s c generalizing c' with
  | case1 declaration c =>
      obtain ⟨name, parameters, body⟩ := declaration
      rfl
  | case5 condition thenBranch c ih =>
      rw [Stmt.resolve, Stmt.contextAfter, ih]
  | case6 condition thenBranch elseBranch c ihThen ihElse =>
      rw [Stmt.resolve, Stmt.contextAfter, ihThen, ihElse]
  | case7 condition body c ih =>
      rw [Stmt.resolve, Stmt.contextAfter, ih]
  | _ => rfl

mutual

/-- A statement that has been resolved keeps its links when it is resolved again. -/
theorem Stmt.resolve_resolve : ∀ (s : Stmt) (c : Context), (s.resolve c).resolve c = s.resolve c
  | .block body, c => congrArg Stmt.block (Stmt.resolveAll_resolveAll body c.inBlock)
  | .funDecl ⟨name, parameters, body⟩, c =>
      congrArg Stmt.funDecl
        (FunctionDecl.resolve_resolve ⟨name, parameters, body⟩ .function (c.define name))
  | .classDecl name parent methods, c => by
      simp only [Stmt.resolve, Option.isSome_map, Expr.map_resolve_resolve,
        FunctionDecl.resolveMethods_resolveMethods methods]
  | .varDecl name initializer, c =>
      congrArg (Stmt.varDecl name) (Expr.map_resolve_resolve (c.declare name) initializer)
  | .constDecl name initializer, c =>
      congrArg (Stmt.constDecl name) (Expr.map_resolve_resolve (c.declare name) initializer)
  | .exprStmt e, c => congrArg Stmt.exprStmt (e.resolve_resolve c)
  | .ifStmt condition thenBranch none, c => by
      simp only [Stmt.resolve, condition.resolve_resolve, thenBranch.resolve_resolve]
  | .ifStmt condition thenBranch (some elseBranch), c => by
      simp only [Stmt.resolve, condition.resolve_resolve, thenBranch.resolve_resolve,
        Stmt.contextAfter_resolve, elseBranch.resolve_resolve]
  | .printStmt e, c => congrArg Stmt.printStmt (e.resolve_resolve c)
  | .returnStmt keyword value, c =>
      congrArg (Stmt.returnStmt keyword) (Expr.map_resolve_resolve c value)
  | .whileStmt condition body, c => by
      simp only [Stmt.resolve, condition.resolve_resolve, body.resolve_resolve]

theorem Stmt.resolveAll_resolveAll :
    ∀ (ss : List Stmt) (c : Context),
      Stmt.resolveAll (Stmt.resolveAll ss c) c = Stmt.resolveAll ss c
  | [], _ => rfl
  | s :: ss, c => by
      simp only [Stmt.resolveAll, s.resolve_resolve, Stmt.contextAfter_resolve,
        Stmt.resolveAll_resolveAll ss]

/-- A resolved function resolves to itself. -/
theorem FunctionDecl.resolve_resolve :
    ∀ (f : FunctionDecl) (routine : Routine) (c : Context),
      (f.resolve routine c).resolve routine c = f.resolve routine c
  | ⟨name, parameters, body⟩, routine, c =>
      congrArg (FunctionDecl.mk name parameters)
        (Stmt.resolveAll_resolveAll body (c.inBody routine parameters))

theorem FunctionDecl.resolveMethods_resolveMethods :
    ∀ (fs : List FunctionDecl) (c : Context),
      FunctionDecl.resolveMethods (FunctionDecl.resolveMethods fs c) c =
        FunctionDecl.resolveMethods fs c
  | [], _ => rfl
  | f :: fs, c => by
      have hroutine : (f.resolve f.methodRoutine c).methodRoutine = f.methodRoutine := by
        rw [FunctionDecl.methodRoutine, FunctionDecl.isInitializer_resolve,
          ← FunctionDecl.methodRoutine]
      simp only [FunctionDecl.resolveMethods, hroutine, f.resolve_resolve,
        FunctionDecl.resolveMethods_resolveMethods fs]

end

/--
Resolution leaves nothing behind, and what it has found does not change when it is carried out
again.

Behind any statement or expression, and wherever the walk stands, the same scopes are open as
before. Those around the innermost one have not changed, and the function and the class around the
place are the same.  So, whatever the tables hold at first, several walks through what a text is
parsed to write the entries of one walk, and report its errors each time.  The errors and the
entries are those of the program; a constant has the depth that its name has.
-/
theorem resolving_again_changes_nothing (allowance : Nat) (source : String) :
    let program := (Parse.within allowance (scan source).tokens).statements
    (∀ (s : Stmt) (w : Walk), w.SamePlace (s.walk w))
      ∧ (∀ (e : Expr) (w : Walk), w.SamePlace (e.walk w))
      ∧ (∀ (k n : Nat) (tables : Tables),
          let numbered := Stmt.numberedAll k program
          let once := Stmt.walkAll numbered (.start tables)
          (Walk.repeated numbered (n + 1) (.start tables)).tables = once.tables
            ∧ (Walk.repeated numbered n (.start tables)).errors =
              (List.replicate n once.errors).flatten)
      ∧ (∀ k : Nat,
          let fresh := Stmt.walkAll (Stmt.numberedAll k program) (.start .empty)
          fresh.errors = scopeErrors program
            ∧ fresh.tables.depths = entriesFrom Link.depth k (resolvedLinks program)
            ∧ fresh.tables.constantDepths =
              entriesFrom Link.constantDepth k (resolvedLinks program)
            ∧ ∀ entry ∈ fresh.tables.constantDepths, entry ∈ fresh.tables.depths)
      ∧ resolveProgram (resolveProgram program) = resolveProgram program
      ∧ scopeErrors (resolveProgram program) = scopeErrors program := by
  intro program
  have hparsed : Stmt.AsParsedAll program :=
    Parse.asParsed_within allowance fun _ => scan_spelled
  have hunlinked : Stmt.relabelAll .unlinked (resolveProgram program) = program :=
    Stmt.relabelAll_resolveAll program .top hparsed
  have hlinks : Stmt.linksInAll .top program = resolvedLinks program := by
    have hsame : Stmt.relabelAll .unlinked program = program := by
      conv_lhs => rw [← hunlinked, Stmt.relabelAll_relabelAll]
      exact hunlinked
    rw [Stmt.linksInAll, hsame]
    rfl
  refine ⟨fun s w => s.walk_samePlace w, fun e w => (e.walk_restores w).samePlace,
    fun k n tables => ?_, fun k => ?_, Stmt.resolveAll_resolveAll program .top, ?_⟩
  · have hstart := Walk.At.start tables
    have hfound := Stmt.walkAll_finds program k hstart
    have herrors := Walk.errors_repeated program k n hstart
    exact ⟨(Walk.tables_repeated program k n hstart).trans hfound.tables.symm,
      by rw [herrors, hfound.errors]; rfl⟩
  · have hfound := Stmt.walkAll_finds program k (Walk.At.start .empty)
    have htables := hfound.tables.trans (Tables.putAll_empty k _)
    dsimp only
    rw [htables, hlinks]
    exact ⟨hfound.errors, rfl, rfl, mem_entriesFrom_of_agrees (hlinks ▸ hfound.agree)⟩
  · have herrors := Stmt.errorsAll_relabel .unlinked (resolveProgram program) .top none
    have hsame : ScopeError.relabel .unlinked = id :=
      funext fun e => congrArg (fun found => { e with found }) (Option.map_id_apply)
    rw [hunlinked, hsame, List.map_id] at herrors
    exact herrors.symm

end Lox
