import Lox.Proofs.Scope.Accepted
import Lox.Proofs.Tree.Relabel
import Lox.Scope.Check
import Lox.Scope.Resolve

/-!
# Scopes of relabeled programs

Scopes know names and not the lines on which they stand.  So a relabeled program has the same scope
errors at its own tokens, and resolution commutes with a change of the lines.

**Results.**
* `errorsWithin_relabel`: the scope errors of a relabeled program.
* `resolveProgram_relabel`: resolution commutes with a change of the lines.
* `errorsWithin_append`, `resolveProgram_append`: statements at the top level do not affect those
  after them.
-/

namespace Lox

/-- A scope error with its token on another line. -/
def ScopeError.relabel (c : Relabeling) (e : ScopeError) : ScopeError :=
  { e with found := e.found.map (Token.relabel c) }

section Scopes

variable (g : Relabeling)

@[simp] theorem Context.declare_relabel (c : Context) (name : Token) :
    c.declare (name.relabel g) = c.declare name := rfl

@[simp] theorem Context.define_relabel (c : Context) (name : Token) :
    c.define (name.relabel g) = c.define name := rfl

@[simp] theorem Context.defineConstant_relabel (c : Context) (name : Token) :
    c.defineConstant (name.relabel g) = c.defineConstant name := rfl

@[simp] theorem Context.atSuperclass_relabel (c : Context) (name : Token) :
    c.atSuperclass (name.relabel g) = c.atSuperclass name := rfl

@[simp] theorem Context.defineAll_relabel (c : Context) (names : List Token) :
    c.defineAll (names.map (Token.relabel g)) = c.defineAll names := by
  simp [Context.defineAll, List.foldl_map]

@[simp] theorem Context.inBody_relabel (c : Context) (routine : Routine) (names : List Token) :
    c.inBody routine (names.map (Token.relabel g)) = c.inBody routine names := by
  simp [Context.inBody]

theorem Stmt.contextAfter_relabel (s : Stmt) (c : Context) :
    (s.relabel g).contextAfter c = s.contextAfter c := by
  fun_induction Stmt.contextAfter s c <;> simp_all [Stmt.relabel, Stmt.contextAfter]

theorem errorIf_relabel (condition : Bool) (fault : ScopeFault) (found : Token) :
    errorIf condition fault (found.relabel g) =
      (errorIf condition fault found).map (ScopeError.relabel g) := by
  cases condition <;> rfl

theorem Room.enter_relabel
    (room : Room)
    {below below' : Room → List ScopeError}
    (h : ∀ r, below' r = (below r).map (ScopeError.relabel g)) :
    room.enter below' = (room.enter below).map (ScopeError.relabel g) := by
  match room with
  | none => exact h none
  | some 0 => rfl
  | some (n + 1) => exact h (some n)

theorem Context.declarationErrors_relabel (c : Context) (name : Token) :
    c.declarationErrors (name.relabel g) =
      (c.declarationErrors name).map (ScopeError.relabel g) :=
  errorIf_relabel g _ _ _

theorem Context.parameterErrors_relabel (names : List Token) (c : Context) :
    Context.parameterErrors (names.map (Token.relabel g)) c =
      (Context.parameterErrors names c).map (ScopeError.relabel g) := by
  induction names generalizing c with
  | nil => rfl
  | cons name names ih =>
      simp only [List.map_cons, Context.parameterErrors, List.map_append,
        Context.declarationErrors_relabel, Context.define_relabel, ih]

mutual

/-- The scope errors of a relabeled expression. -/
theorem Expr.errors_relabel (c : Context) :
    ∀ (e : Expr) (room : Room),
      (e.relabel g).errors c room = (e.errors c room).map (ScopeError.relabel g)
  | .literal _, _ => rfl
  | .grouping inner, room => room.enter_relabel g (inner.errors_relabel c)
  | .unary _ operand, room => room.enter_relabel g (operand.errors_relabel c)
  | .binary left _ right, room => room.enter_relabel g fun r => by
      simp only [left.errors_relabel c r, right.errors_relabel c r, List.map_append]
  | .logical left _ right, room => room.enter_relabel g fun r => by
      simp only [left.errors_relabel c r, right.errors_relabel c r, List.map_append]
  | .read target, _ => errorIf_relabel g _ _ _
  | .readConstant target, _ => errorIf_relabel g _ _ _
  | .assign _ value, room => room.enter_relabel g (value.errors_relabel c)
  | .call callee _ arguments, room => room.enter_relabel g fun r => by
      simp only [callee.errors_relabel c r, Expr.errorsAll_relabel c arguments r, List.map_append]
  | .get object _, room => room.enter_relabel g (object.errors_relabel c)
  | .set object _ value, room => room.enter_relabel g fun r => by
      simp only [object.errors_relabel c r, value.errors_relabel c r, List.map_append]
  | .this keyword _, _ => errorIf_relabel g _ _ _
  | .super keyword _ _, _ => by
      simp only [Expr.relabel, Expr.errors, Context.superErrors, errorIf_relabel, List.map_append]

theorem Expr.errorsAll_relabel (c : Context) :
    ∀ (es : List Expr) (room : Room),
      Expr.errorsAll c (Expr.relabelAll g es) room =
        (Expr.errorsAll c es room).map (ScopeError.relabel g)
  | [], _ => rfl
  | e :: es, room => by
      simp only [Expr.relabelAll, Expr.errorsAll, e.errors_relabel c room,
        Expr.errorsAll_relabel c es room, List.map_append]

end

theorem optionErrors_relabel (c : Context) (e : Option Expr) (room : Room) :
    optionErrors c (e.map (Expr.relabel g)) room =
      (optionErrors c e room).map (ScopeError.relabel g) := by
  cases e with
  | none => rfl
  | some e => exact e.errors_relabel g c room

theorem superclassErrors_relabel
    (c : Context)
    (name : Token)
    (parent : Option Expr)
    (room : Room) :
    superclassErrors c (name.relabel g) (parent.map (Expr.relabel g)) room =
      (superclassErrors c name parent room).map (ScopeError.relabel g) := by
  cases parent with
  | none => rfl
  | some parent =>
      have hinherits : inheritanceErrors (name.relabel g) (parent.relabel g) =
          (inheritanceErrors name parent).map (ScopeError.relabel g) := by
        unfold inheritanceErrors
        rw [Expr.name?_relabel]
        cases parent.name? with
        | none => rfl
        | some inherited => exact errorIf_relabel g _ _ _
      simp only [superclassErrors, Option.map_some, hinherits, List.map_append,
        Context.atSuperclass_relabel, room.enter_relabel g (parent.errors_relabel g _)]

mutual

/-- The scope errors of a relabeled statement. -/
theorem Stmt.errors_relabel :
    ∀ (s : Stmt) (c : Context) (room : Room),
      (s.relabel g).errors c room = (s.errors c room).map (ScopeError.relabel g)
  | .block body, c, room => room.enter_relabel g (Stmt.errorsAll_relabel body c.inBlock)
  | .funDecl declaration, c, room => by
      simp only [Stmt.relabel, Stmt.errors, FunctionDecl.name_relabel, Context.define_relabel,
        Context.declarationErrors_relabel, List.map_append,
        room.enter_relabel g (declaration.errors_relabel .function _)]
  | .classDecl name parent methods, c, room => by
      simp only [Stmt.relabel, Stmt.errors, Context.define_relabel, Option.isSome_map,
        Context.declarationErrors_relabel, superclassErrors_relabel, List.map_append,
        room.enter_relabel g (FunctionDecl.errorsOfMethods_relabel methods _)]
  | .varDecl name initializer, c, room => by
      simp only [Stmt.relabel, Stmt.errors, Context.declare_relabel,
        Context.declarationErrors_relabel, List.map_append,
        room.enter_relabel g (optionErrors_relabel g _ initializer)]
  | .constDecl name none, c, room => by
      simp only [Stmt.relabel, Option.map_none, Stmt.errors, Context.declarationErrors_relabel,
        List.map_append]
      rfl
  | .constDecl name (some value), c, room => by
      simp only [Stmt.relabel, Option.map_some, Stmt.errors, Context.declare_relabel,
        Context.declarationErrors_relabel, List.map_append,
        room.enter_relabel g (value.errors_relabel g _)]
  | .exprStmt expression, c, room => room.enter_relabel g (expression.errors_relabel g c)
  | .ifStmt condition thenBranch none, c, room => room.enter_relabel g fun r => by
      simp only [condition.errors_relabel g c r, thenBranch.errors_relabel c r, List.map_append]
  | .ifStmt condition thenBranch (some elseBranch), c, room => room.enter_relabel g fun r => by
      simp only [condition.errors_relabel g c r, thenBranch.errors_relabel c r,
        Stmt.contextAfter_relabel, elseBranch.errors_relabel _ r, List.map_append]
  | .printStmt expression, c, room => room.enter_relabel g (expression.errors_relabel g c)
  | .returnStmt keyword value, c, room => by
      simp only [Stmt.relabel, Stmt.errors, Context.returnErrors, Option.isSome_map,
        errorIf_relabel, List.map_append, room.enter_relabel g (optionErrors_relabel g c value)]
  | .whileStmt condition body, c, room => room.enter_relabel g fun r => by
      simp only [condition.errors_relabel g c r, body.errors_relabel c r, List.map_append]

theorem Stmt.errorsAll_relabel :
    ∀ (ss : List Stmt) (c : Context) (room : Room),
      Stmt.errorsAll (Stmt.relabelAll g ss) c room =
        (Stmt.errorsAll ss c room).map (ScopeError.relabel g)
  | [], _, _ => rfl
  | s :: ss, c, room => by
      simp only [Stmt.relabelAll, Stmt.errorsAll, s.errors_relabel c room,
        Stmt.contextAfter_relabel, Stmt.errorsAll_relabel ss _ room, List.map_append]

theorem FunctionDecl.errors_relabel :
    ∀ (f : FunctionDecl) (routine : Routine) (c : Context) (room : Room),
      (f.relabel g).errors routine c room =
        (f.errors routine c room).map (ScopeError.relabel g)
  | ⟨name, parameters, body⟩, routine, c, room => by
      simp only [FunctionDecl.relabel, FunctionDecl.errors, Context.parameterErrors_relabel,
        Context.inBody_relabel, List.map_append,
        room.enter_relabel g (Stmt.errorsAll_relabel body _)]

theorem FunctionDecl.errorsOfMethods_relabel :
    ∀ (fs : List FunctionDecl) (c : Context) (room : Room),
      FunctionDecl.errorsOfMethods (FunctionDecl.relabelAll g fs) c room =
        (FunctionDecl.errorsOfMethods fs c room).map (ScopeError.relabel g)
  | [], _, _ => rfl
  | f :: fs, c, room => by
      simp only [FunctionDecl.relabelAll, FunctionDecl.errorsOfMethods,
        FunctionDecl.methodRoutine_relabel, f.errors_relabel _ c room,
        FunctionDecl.errorsOfMethods_relabel fs c room, List.map_append]

end

/-- The scope errors of a relabeled program. -/
theorem errorsWithin_relabel (room : Room) (program : List Stmt) :
    errorsWithin room (program.map (Stmt.relabel g)) =
      (errorsWithin room program).map (ScopeError.relabel g) := by
  rw [← Stmt.relabelAll_eq_map, errorsWithin, Stmt.errorsAll_relabel, errorsWithin]
  generalize Stmt.errorsAll program .top room = errors
  induction errors with
  | nil => rfl
  | cons e es ih =>
      simp only [List.map_cons, upToNesting, ih]
      have hfault : (e.relabel g).fault = e.fault := rfl
      rw [hfault]
      split <;> rfl

end Scopes

section Resolution

variable (f : Int → Int)

mutual

theorem Expr.resolve_relabel (c : Context) :
    ∀ e : Expr, (e.relabel (.lines f)).resolve c = (e.resolve c).relabel (.lines f)
  | .literal _ => rfl
  | .grouping inner => by simp only [Expr.relabel, Expr.resolve, inner.resolve_relabel c]
  | .unary operator operand => by
      simp only [Expr.relabel, Expr.resolve, operand.resolve_relabel c]
  | .binary left operator right => by
      simp only [Expr.relabel, Expr.resolve, left.resolve_relabel c, right.resolve_relabel c]
  | .logical left operator right => by
      simp only [Expr.relabel, Expr.resolve, left.resolve_relabel c, right.resolve_relabel c]
  | .read target => rfl
  | .readConstant target => rfl
  | .assign target value => by
      simp only [Expr.relabel, Expr.resolve, value.resolve_relabel c]
      rfl
  | .call callee closing arguments => by
      simp only [Expr.relabel, Expr.resolve, callee.resolve_relabel c,
        Expr.resolveAll_relabel c arguments]
  | .get object name => by simp only [Expr.relabel, Expr.resolve, object.resolve_relabel c]
  | .set object name value => by
      simp only [Expr.relabel, Expr.resolve, object.resolve_relabel c, value.resolve_relabel c]
  | .this keyword link => rfl
  | .super keyword method link => rfl

theorem Expr.resolveAll_relabel (c : Context) :
    ∀ es : List Expr, Expr.resolveAll c (Expr.relabelAll (.lines f) es) =
      Expr.relabelAll (.lines f) (Expr.resolveAll c es)
  | [] => rfl
  | e :: es => by
      simp only [Expr.relabelAll, Expr.resolveAll, e.resolve_relabel c,
        Expr.resolveAll_relabel c es]

end

theorem Expr.map_resolve_relabel (c : Context) (e : Option Expr) :
    (e.map (Expr.relabel (.lines f))).map (Expr.resolve c) =
      (e.map (Expr.resolve c)).map (Expr.relabel (.lines f)) := by
  rw [Option.map_map, Option.map_map]
  exact congrArg (e.map ·) (funext (Expr.resolve_relabel f c))

mutual

theorem Stmt.resolve_relabel :
    ∀ (s : Stmt) (c : Context),
      (s.relabel (.lines f)).resolve c = (s.resolve c).relabel (.lines f)
  | .block body, c => by simp only [Stmt.relabel, Stmt.resolve, Stmt.resolveAll_relabel body]
  | .funDecl declaration, c => by
      simp only [Stmt.relabel, Stmt.resolve, FunctionDecl.name_relabel, Context.define_relabel,
        declaration.resolve_relabel]
  | .classDecl name parent methods, c => by
      simp only [Stmt.relabel, Stmt.resolve, Context.atSuperclass_relabel, Context.define_relabel,
        Expr.map_resolve_relabel, Option.isSome_map, FunctionDecl.resolveMethods_relabel methods]
  | .varDecl name initializer, c => by
      simp only [Stmt.relabel, Stmt.resolve, Context.declare_relabel, Expr.map_resolve_relabel]
  | .constDecl name initializer, c => by
      simp only [Stmt.relabel, Stmt.resolve, Context.declare_relabel, Expr.map_resolve_relabel]
  | .exprStmt expression, c => by simp only [Stmt.relabel, Stmt.resolve, Expr.resolve_relabel]
  | .ifStmt condition thenBranch none, c => by
      simp only [Stmt.relabel, Stmt.resolve, Expr.resolve_relabel, thenBranch.resolve_relabel]
  | .ifStmt condition thenBranch (some elseBranch), c => by
      simp only [Stmt.relabel, Stmt.resolve, Expr.resolve_relabel, thenBranch.resolve_relabel,
        Stmt.contextAfter_relabel, elseBranch.resolve_relabel]
  | .printStmt expression, c => by simp only [Stmt.relabel, Stmt.resolve, Expr.resolve_relabel]
  | .returnStmt keyword value, c => by
      simp only [Stmt.relabel, Stmt.resolve, Expr.map_resolve_relabel]
  | .whileStmt condition body, c => by
      simp only [Stmt.relabel, Stmt.resolve, Expr.resolve_relabel, body.resolve_relabel]

theorem Stmt.resolveAll_relabel :
    ∀ (ss : List Stmt) (c : Context), Stmt.resolveAll (Stmt.relabelAll (.lines f) ss) c =
      Stmt.relabelAll (.lines f) (Stmt.resolveAll ss c)
  | [], _ => rfl
  | s :: ss, c => by
      simp only [Stmt.relabelAll, Stmt.resolveAll, s.resolve_relabel, Stmt.contextAfter_relabel,
        Stmt.resolveAll_relabel ss]

theorem FunctionDecl.resolve_relabel :
    ∀ (d : FunctionDecl) (routine : Routine) (c : Context),
      (d.relabel (.lines f)).resolve routine c = (d.resolve routine c).relabel (.lines f)
  | ⟨name, parameters, body⟩, routine, c => by
      simp only [FunctionDecl.relabel, FunctionDecl.resolve, Context.inBody_relabel,
        Stmt.resolveAll_relabel body]

theorem FunctionDecl.resolveMethods_relabel :
    ∀ (ds : List FunctionDecl) (c : Context),
      FunctionDecl.resolveMethods (FunctionDecl.relabelAll (.lines f) ds) c =
        FunctionDecl.relabelAll (.lines f) (FunctionDecl.resolveMethods ds c)
  | [], _ => rfl
  | d :: ds, c => by
      simp only [FunctionDecl.relabelAll, FunctionDecl.resolveMethods,
        FunctionDecl.methodRoutine_relabel, d.resolve_relabel,
        FunctionDecl.resolveMethods_relabel ds]

end

/-- Resolution commutes with a change of the lines. -/
theorem resolveProgram_relabel (program : List Stmt) :
    resolveProgram (program.map (Stmt.relabel (.lines f))) =
      (resolveProgram program).map (Stmt.relabel (.lines f)) := by
  simp only [resolveProgram, ← Stmt.relabelAll_eq_map, Stmt.resolveAll_relabel]

end Resolution

section Sequences

theorem Context.declareIn_of_scopes_eq_nil
    {c : Context}
    (hscopes : c.scopes = [])
    (name : String)
    (standing : Standing) :
    { c with scopes := declareIn name standing c.scopes } = c := by
  obtain ⟨_, routine, owner⟩ := c
  cases hscopes
  rfl

/-- At the top level there is no scope that a declaration could enter. -/
theorem Stmt.contextAfter_of_scopes_eq_nil :
    ∀ (s : Stmt) {c : Context}, c.scopes = [] → s.contextAfter c = c
  | .funDecl _, _, h => Context.declareIn_of_scopes_eq_nil h _ _
  | .classDecl _ _ _, _, h => Context.declareIn_of_scopes_eq_nil h _ _
  | .varDecl _ _, _, h => Context.declareIn_of_scopes_eq_nil h _ _
  | .constDecl _ _, _, h => Context.declareIn_of_scopes_eq_nil h _ _
  | .ifStmt _ thenBranch none, _, h => thenBranch.contextAfter_of_scopes_eq_nil h
  | .ifStmt _ thenBranch (some elseBranch), _, h => by
      rw [contextAfter, thenBranch.contextAfter_of_scopes_eq_nil h,
        elseBranch.contextAfter_of_scopes_eq_nil h]
  | .whileStmt _ body, _, h => body.contextAfter_of_scopes_eq_nil h
  | .block _, _, _ => rfl
  | .exprStmt _, _, _ => rfl
  | .printStmt _, _, _ => rfl
  | .returnStmt _ _, _, _ => rfl

theorem Stmt.contextAfter_top (s : Stmt) : s.contextAfter .top = .top :=
  s.contextAfter_of_scopes_eq_nil rfl

theorem Stmt.errorsAll_append_top (ss ts : List Stmt) (room : Room) :
    Stmt.errorsAll (ss ++ ts) .top room =
      Stmt.errorsAll ss .top room ++ Stmt.errorsAll ts .top room := by
  induction ss with
  | nil => rfl
  | cons s ss ih =>
      simp only [List.cons_append, Stmt.errorsAll, Stmt.contextAfter_top, ih,
        List.append_assoc]

/-- Statements after others are checked as if they stood alone. -/
theorem errorsWithin_append (ss ts : List Stmt) (room : Room) :
    errorsWithin room (ss ++ ts) = [] ↔ errorsWithin room ss = [] ∧ errorsWithin room ts = [] := by
  simp only [errorsWithin, upToNesting_eq_nil, Stmt.errorsAll_append_top,
    List.append_eq_nil_iff]

/-- Statements after others are resolved as if they stood alone. -/
theorem resolveProgram_append (ss ts : List Stmt) :
    resolveProgram (ss ++ ts) = resolveProgram ss ++ resolveProgram ts := by
  unfold resolveProgram
  induction ss with
  | nil => rfl
  | cons s ss ih =>
      simp only [List.cons_append, Stmt.resolveAll, Stmt.contextAfter_top, ih]

end Sequences

end Lox
