import Lox.Proofs.Scope.Wording

/-!
# Programs that leave the instance alone

In a text neither a declaration nor an assignment can have the word for the instance where it has a
name.  Resolution changes no names, so this is also true of the program that runs.  A slot for the
instance is then never written again once its frame has been opened.

**Main definition.**
* `Node.SparesThis`: a node neither declares nor assigns the word for the instance.

**Result.**
* `sparesThis_resolveProgram`: all nodes of a resolved program do so if the program is worded.
-/

namespace Lox

def Expr.SparesThis : Expr → Prop
  | .assign target _ => target.name.lexeme ≠ "this"
  | _ => True

def Stmt.SparesThis : Stmt → Prop
  | .funDecl f => f.name.lexeme ≠ "this"
  | .classDecl name _ _ => name.lexeme ≠ "this"
  | .varDecl name _ => name.lexeme ≠ "this"
  | .constDecl name _ => name.lexeme ≠ "this"
  | _ => True

/-- A node neither declares nor assigns the word for the instance. -/
def Node.SparesThis : Node → Prop
  | .expression e => e.SparesThis
  | .statement s => s.SparesThis
  | .statements _ => True
  | .function _ _ => True

mutual

theorem Expr.sparesThis_resolve :
    ∀ (e : Expr) (c : Context), (Node.expression e).Every Node.Worded →
      (Node.expression (e.resolve c)).Every Node.SparesThis
  | .literal _, _, _ => .intro trivial (by simp [Node.children, parts, resolve])
  | .grouping inner, c, h => by
      have ih := inner.sparesThis_resolve c (h.child (by simp [Node.children, parts]))
      exact .intro trivial (by simpa [Node.children, parts, resolve] using ih)
  | .unary _ operand, c, h => by
      have ih := operand.sparesThis_resolve c (h.child (by simp [Node.children, parts]))
      exact .intro trivial (by simpa [Node.children, parts, resolve] using ih)
  | .binary left _ right, c, h => by
      have ihLeft := left.sparesThis_resolve c (h.child (by simp [Node.children, parts]))
      have ihRight := right.sparesThis_resolve c (h.child (by simp [Node.children, parts]))
      exact .intro trivial (by simpa [Node.children, parts, resolve] using ⟨ihLeft, ihRight⟩)
  | .logical left _ right, c, h => by
      have ihLeft := left.sparesThis_resolve c (h.child (by simp [Node.children, parts]))
      have ihRight := right.sparesThis_resolve c (h.child (by simp [Node.children, parts]))
      exact .intro trivial (by simpa [Node.children, parts, resolve] using ⟨ihLeft, ihRight⟩)
  | .read _, _, _ => .intro trivial (by simp [Node.children, parts, resolve])
  | .readConstant _, _, _ => .intro trivial (by simp [Node.children, parts, resolve])
  | .assign target value, c, h => by
      have ih := value.sparesThis_resolve c (h.child (by simp [Node.children, parts]))
      have hname : target.name.IsName := h.here
      exact .intro hname.1 (by simpa [Node.children, parts, resolve] using ih)
  | .call callee _ arguments, c, h => by
      have ih := callee.sparesThis_resolve c (h.child (by simp [Node.children, parts]))
      have ihs := Expr.sparesThis_resolveAll arguments c fun e he =>
        h.child (by simp [Node.children, parts, he])
      exact .intro trivial (by simpa [Node.children, parts, resolve] using ⟨ih, ihs⟩)
  | .get object _, c, h => by
      have ih := object.sparesThis_resolve c (h.child (by simp [Node.children, parts]))
      exact .intro trivial (by simpa [Node.children, parts, resolve] using ih)
  | .set object _ value, c, h => by
      have ihObject := object.sparesThis_resolve c (h.child (by simp [Node.children, parts]))
      have ihValue := value.sparesThis_resolve c (h.child (by simp [Node.children, parts]))
      exact .intro trivial (by simpa [Node.children, parts, resolve] using ⟨ihObject, ihValue⟩)
  | .this _ _, _, _ => .intro trivial (by simp [Node.children, parts, resolve])
  | .super _ _ _, _, _ => .intro trivial (by simp [Node.children, parts, resolve])

theorem Expr.sparesThis_resolveAll :
    ∀ (es : List Expr) (c : Context), (∀ e ∈ es, (Node.expression e).Every Node.Worded) →
      ∀ e ∈ Expr.resolveAll c es, (Node.expression e).Every Node.SparesThis
  | [], _, _ => nofun
  | e :: es, c, h => by
      obtain ⟨he, hes⟩ := List.forall_mem_cons.mp h
      exact List.forall_mem_cons.mpr
        ⟨e.sparesThis_resolve c he, Expr.sparesThis_resolveAll es c hes⟩

end

/-- The node of an expression that may be absent. -/
theorem Expr.sparesThis_map_resolve
    {e : Option Expr}
    {c : Context}
    (h : ∀ node ∈ e.toList.map Node.expression, node.Every Node.Worded) :
    ∀ node ∈ (e.map (Expr.resolve c)).toList.map Node.expression, node.Every Node.SparesThis := by
  cases e with
  | none => exact nofun
  | some e =>
      have ih := e.sparesThis_resolve c (h (.expression e) (by simp))
      simpa using ih

mutual

theorem Stmt.sparesThis_resolve :
    ∀ (s : Stmt) (c : Context), (Node.statement s).Every Node.Worded →
      (Node.statement (s.resolve c)).Every Node.SparesThis
  | .block body, c, h => by
      have ih := Stmt.sparesThis_resolveAll body c.inBlock
        (h.child (by simp [Node.children, Stmt.children]))
      exact .intro trivial (by simpa [Node.children, Stmt.children, Stmt.resolve] using ih)
  | .funDecl f, c, h => by
      have ih := f.sparesThis_resolve .function .function (c.define f.name)
        (h.child (by simp [Node.children, Stmt.children]))
      have hname : f.name.IsName := h.here
      refine .intro ?_ (by simpa [Node.children, Stmt.children, Stmt.resolve] using ih)
      obtain ⟨name, parameters, body⟩ := f
      exact hname.1
  | .classDecl name parent methods, c, h => by
      have hname : name.IsName := h.here
      have hmethods := FunctionDecl.sparesThis_resolveMethods methods
        ((c.define name).inClass parent.isSome) fun f hf =>
          h.child (List.mem_append_right _ (List.mem_map_of_mem hf))
      refine .intro hname.1 (List.forall_mem_append.mpr ⟨?_, List.forall_mem_map.mpr hmethods⟩)
      exact Expr.sparesThis_map_resolve fun _ hn => h.child (List.mem_append_left _ hn)
  | .varDecl name initializer, c, h => by
      have hname : name.IsName := h.here
      exact .intro hname.1 (Expr.sparesThis_map_resolve fun _ hn => h.child hn)
  | .constDecl name initializer, c, h => by
      have hname : name.IsName := h.here
      exact .intro hname.1 (Expr.sparesThis_map_resolve fun _ hn => h.child hn)
  | .exprStmt e, c, h => by
      have ih := e.sparesThis_resolve c (h.child (by simp [Node.children, Stmt.children]))
      exact .intro trivial (by simpa [Node.children, Stmt.children, Stmt.resolve] using ih)
  | .ifStmt condition thenBranch none, c, h => by
      have ih := condition.sparesThis_resolve c (h.child (by simp [Node.children, Stmt.children]))
      have ihThen := thenBranch.sparesThis_resolve c
        (h.child (by simp [Node.children, Stmt.children]))
      refine .intro trivial ?_
      simpa [Node.children, Stmt.children, Stmt.resolve] using ⟨ih, ihThen⟩
  | .ifStmt condition thenBranch (some elseBranch), c, h => by
      have ih := condition.sparesThis_resolve c (h.child (by simp [Node.children, Stmt.children]))
      have ihThen := thenBranch.sparesThis_resolve c
        (h.child (by simp [Node.children, Stmt.children]))
      have ihElse := elseBranch.sparesThis_resolve (thenBranch.contextAfter c)
        (h.child (by simp [Node.children, Stmt.children]))
      refine .intro trivial ?_
      simpa [Node.children, Stmt.children, Stmt.resolve] using ⟨ih, ihThen, ihElse⟩
  | .printStmt e, c, h => by
      have ih := e.sparesThis_resolve c (h.child (by simp [Node.children, Stmt.children]))
      exact .intro trivial (by simpa [Node.children, Stmt.children, Stmt.resolve] using ih)
  | .returnStmt _ _, _, h => .intro trivial (Expr.sparesThis_map_resolve fun _ hn => h.child hn)
  | .whileStmt condition body, c, h => by
      have ih := condition.sparesThis_resolve c (h.child (by simp [Node.children, Stmt.children]))
      have ihBody := body.sparesThis_resolve c (h.child (by simp [Node.children, Stmt.children]))
      refine .intro trivial ?_
      simpa [Node.children, Stmt.children, Stmt.resolve] using ⟨ih, ihBody⟩

theorem Stmt.sparesThis_resolveAll :
    ∀ (ss : List Stmt) (c : Context), (Node.statements ss).Every Node.Worded →
      (Node.statements (Stmt.resolveAll ss c)).Every Node.SparesThis
  | [], _, _ => .intro trivial (by simp [Node.children, Stmt.resolveAll])
  | s :: ss, c, h => by
      have ih := s.sparesThis_resolve c (h.child (by simp [Node.children]))
      have ihs := Stmt.sparesThis_resolveAll ss (s.contextAfter c)
        (h.child (by simp [Node.children]))
      exact .intro trivial (by simpa [Node.children, Stmt.resolveAll] using ⟨ih, ihs⟩)

theorem FunctionDecl.sparesThis_resolve :
    ∀ (f : FunctionDecl) (routine routine' : Routine) (c : Context),
      (Node.function routine f).Every Node.Worded →
        (Node.function routine' (f.resolve routine c)).Every Node.SparesThis
  | ⟨_, parameters, body⟩, routine, _, c, h => by
      have ih := Stmt.sparesThis_resolveAll body (c.inBody routine parameters)
        (h.child (by simp [Node.children]))
      exact .intro trivial (by simpa [Node.children, FunctionDecl.resolve] using ih)

theorem FunctionDecl.sparesThis_resolveMethods :
    ∀ (fs : List FunctionDecl) (c : Context),
      (∀ f ∈ fs, (Node.function f.methodRoutine f).Every Node.Worded) →
        ∀ f ∈ FunctionDecl.resolveMethods fs c,
          (Node.function f.methodRoutine f).Every Node.SparesThis
  | [], _, _ => nofun
  | f :: fs, c, h => by
      obtain ⟨hf, hfs⟩ := List.forall_mem_cons.mp h
      exact List.forall_mem_cons.mpr
        ⟨f.sparesThis_resolve f.methodRoutine _ c hf,
          FunctionDecl.sparesThis_resolveMethods fs c hfs⟩

end

/-- A program that is worded leaves the instance alone when its links are resolved. -/
theorem sparesThis_resolveProgram
    {program : List Stmt}
    (h : (Node.statements program).Every Node.Worded) :
    (Node.statements (resolveProgram program)).Every Node.SparesThis :=
  Stmt.sparesThis_resolveAll program .top h

end Lox
