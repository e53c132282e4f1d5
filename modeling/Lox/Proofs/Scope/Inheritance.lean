import Lox.Proofs.Scope.Accepted

/-!
# Places among the methods of a class

The word for the superclass is only accepted among the methods of a class that has one.  Between
such a place and the innermost class around it there are functions and blocks and nothing else, the
outermost of them being a method of the class.  None of their scopes declares the instance or the
superclass, so that the word leads past all of them to the scopes of the class.

**Main definition.**
* `Among`: a place lies among the methods of a class.

**Results.**
* `Reaches.among`: the word for the superclass stands among the methods of a class that has one.
* `Among.findScope?_super`: the scope of the superclass, next to that of the instance.
-/

namespace Lox

/-- What opens the frames of code. -/
def Opening.IsCode : Opening → Prop
  | .block _ => True
  | .call _ => True
  | _ => False

/--
A place lies among the methods of a class with a superclass and of no class inside of that one: what
has been opened between the two is code, and the outermost of it is a method.
-/
structure Among
    (program : List Stmt)
    (p q : Site)
    (name : Token)
    (methods : List FunctionDecl)
    (inner : List Opening) : Prop where
  declared : ∃ parent, Reaches program q (.statement (.classDecl name (some parent) methods))
  openings : p.openings = inner ++ .receiver :: q.classOpenings name true methods
  code : ∀ o ∈ inner, o.IsCode
  method : ∀ o ∈ inner.getLast?, ∃ f ∈ methods,
    o = .call (f.resolve f.methodRoutine ((q.context.define name).inClass true))
  scopes : ∃ innerScopes,
    p.context.scopes = innerScopes ++ ((q.context.define name).inClass true).scopes
      ∧ innerScopes.length = inner.length
      ∧ ∀ scope ∈ innerScopes, scope.standing? "super" = none

namespace Among

variable
  {program : List Stmt} {p q : Site} {name : Token} {methods : List FunctionDecl}
  {inner : List Opening}

/-- The superclass is found in the scope right outside of that of the instance. -/
theorem findScope?_super (h : Among program p q name methods inner) :
    findScope? "super" p.context.scopes = some (inner.length + 1, .variable) := by
  obtain ⟨innerScopes, hscopes, hlength, hfree⟩ := h.scopes
  rw [hscopes, ← hlength]
  clear hscopes hlength
  induction innerScopes with
  | nil => rfl
  | cons scope rest ih =>
      have hrest := ih fun s hs => hfree s (List.mem_cons_of_mem scope hs)
      simp [findScope?, hfree scope List.mem_cons_self, hrest]

theorem getElem?_receiver (h : Among program p q name methods inner) :
    p.openings[inner.length]? = some .receiver := by
  simp [h.openings]

theorem getElem?_superclass (h : Among program p q name methods inner) :
    p.openings[inner.length + 1]? = some (.superclass name
      (FunctionDecl.resolveMethods methods ((q.context.define name).inClass true))) := by
  rw [h.openings, List.getElem?_append_right (Nat.le_succ _)]
  simp [Site.classOpenings]

/-- Another context with the same scopes. -/
theorem moved
    (h : Among program p q name methods inner)
    {c : Context}
    (hc : c.scopes = p.context.scopes) :
    Among program (p.moved c) q name methods inner where
  declared := h.declared
  openings := h.openings
  code := h.code
  method := h.method
  scopes := by
    obtain ⟨innerScopes, hscopes, hrest⟩ := h.scopes
    exact ⟨innerScopes, hc.trans hscopes, hrest⟩

/-- After the declaration of a name in code. -/
theorem declaring
    (h : Among program p q name methods inner)
    (hinner : inner ≠ [])
    {n : Token}
    (hn : n.IsName)
    {standing : Standing}
    {c : Context}
    (hc : c.scopes = declareIn n.lexeme standing p.context.scopes) :
    Among program (p.moved c) q name methods inner where
  declared := h.declared
  openings := h.openings
  code := h.code
  method := h.method
  scopes := by
    obtain ⟨innerScopes, hscopes, hlength, hfree⟩ := h.scopes
    cases innerScopes with
    | nil => exact absurd (List.length_eq_zero_iff.mp hlength.symm) hinner
    | cons scope rest =>
        refine ⟨(⟨n.lexeme, standing⟩ :: scope) :: rest, ?_, hlength, ?_⟩
        · rw [Site.moved_context, hc, hscopes]
          rfl
        · intro s hs
          rcases List.mem_cons.mp hs with rfl | hs
          · have hskip : (n.lexeme == "super") = false := by simpa using hn.2
            simpa [Scope.standing?, List.find?_cons, hskip] using hfree scope List.mem_cons_self
          · exact hfree s (List.mem_cons_of_mem scope hs)

/-- Inside of one more piece of code. -/
theorem inside
    (h : Among program p q name methods inner)
    {o : Opening}
    (ho : o.IsCode)
    (hmethod : inner = [] → ∃ f ∈ methods,
      o = .call (f.resolve f.methodRoutine ((q.context.define name).inClass true)))
    {scope : Scope}
    (hscope : scope.standing? "super" = none)
    {c : Context}
    (hc : c.scopes = scope :: p.context.scopes) :
    Among program ⟨c, o :: p.openings⟩ q name methods (o :: inner) where
  declared := h.declared
  openings := by simp [h.openings]
  code := List.forall_mem_cons.mpr ⟨ho, h.code⟩
  method := by
    cases inner with
    | nil => simpa using hmethod rfl
    | cons first rest => simpa using h.method
  scopes := by
    obtain ⟨innerScopes, hscopes, hlength, hfree⟩ := h.scopes
    exact ⟨scope :: innerScopes, by rw [hc, hscopes, List.cons_append], by simp [hlength],
      List.forall_mem_cons.mpr ⟨hscope, hfree⟩⟩

end Among

section Contexts

@[simp] theorem Context.owner_defineAll
    (names : List Token)
    (c : Context) :
    (c.defineAll names).owner = c.owner := by
  induction names generalizing c with
  | nil => rfl
  | cons name names ih => exact ih (c.define name)

@[simp] theorem Stmt.owner_contextAfter :
    ∀ (s : Stmt) (c : Context), (s.contextAfter c).owner = c.owner
  | .funDecl _, _ => rfl
  | .classDecl _ _ _, _ => rfl
  | .varDecl _ _, _ => rfl
  | .constDecl _ _, _ => rfl
  | .ifStmt _ thenBranch none, c => thenBranch.owner_contextAfter c
  | .ifStmt _ thenBranch (some elseBranch), c => by
      rw [contextAfter, elseBranch.owner_contextAfter, thenBranch.owner_contextAfter]
  | .whileStmt _ body, c => body.owner_contextAfter c
  | .block _, _ => rfl
  | .exprStmt _, _ => rfl
  | .printStmt _, _ => rfl
  | .returnStmt _ _, _ => rfl

/--
A statement declares at most one name, and that one is neither of the instance nor of the
superclass.
-/
theorem Stmt.scopes_contextAfter
    {s : Stmt}
    (hparsed : s.AsParsed)
    (hworded : s.Worded)
    (c : Context) :
    (s.contextAfter c).scopes = c.scopes ∨
      ∃ (name : Token) (standing : Standing),
        name.IsName ∧ (s.contextAfter c).scopes = declareIn name.lexeme standing c.scopes := by
  cases s with
  | funDecl f => exact .inr ⟨f.name, .variable, hworded, rfl⟩
  | classDecl name parent methods => exact .inr ⟨name, .variable, hworded, rfl⟩
  | varDecl name initializer => exact .inr ⟨name, .variable, hworded, rfl⟩
  | constDecl name initializer => exact .inr ⟨name, .constant, hworded, rfl⟩
  | _ =>
      refine .inl ?_
      rw [Stmt.contextAfter_of_isDeclaration_eq_false rfl hparsed]

/-- The scope of a function holds its parameters, and the scopes around it stay. -/
theorem Context.scopes_inBody_of_isName
    (c : Context)
    (routine : Routine)
    {parameters : List Token}
    (h : ∀ name ∈ parameters, name.IsName) :
    ∃ scope : Scope, (c.inBody routine parameters).scopes = scope :: c.scopes
      ∧ scope.standing? "super" = none := by
  have hdefine : ∀ (names : List Token) (c : Context) (scope : Scope) (outer : List Scope),
      (∀ name ∈ names, name.IsName) → c.scopes = scope :: outer → scope.standing? "super" = none →
      ∃ scope' : Scope, (c.defineAll names).scopes = scope' :: outer
        ∧ scope'.standing? "super" = none := by
    intro names
    induction names with
    | nil => exact fun c scope outer _ hscopes hfree => ⟨scope, hscopes, hfree⟩
    | cons name names ih =>
        intro c scope outer hnames hscopes hfree
        obtain ⟨hname, hnames⟩ := List.forall_mem_cons.mp hnames
        refine ih (c.define name) (⟨name.lexeme, .variable⟩ :: scope) outer hnames ?_ ?_
        · simp [Context.define, hscopes, declareIn]
        · have hskip : (name.lexeme == "super") = false := by simpa using hname.2
          simpa [Scope.standing?, List.find?_cons, hskip] using hfree
  exact hdefine parameters (c.atParameters routine) [] c.scopes h rfl rfl

end Contexts

/-- A place lies in the code of a method of a class with a superclass. -/
def InMethod
    (program : List Stmt)
    (p : Site) : Prop :=
  ∃ q name methods inner, Among program p q name methods inner ∧ inner ≠ []

namespace InMethod

variable {program : List Stmt} {p : Site}

theorem moved
    (h : InMethod program p)
    {c : Context}
    (hc : c.scopes = p.context.scopes) :
    InMethod program (p.moved c) := by
  obtain ⟨q, name, methods, inner, hamong, hinner⟩ := h
  exact ⟨q, name, methods, inner, hamong.moved hc, hinner⟩

theorem declaring
    (h : InMethod program p)
    {n : Token}
    (hn : n.IsName)
    {standing : Standing}
    {c : Context}
    (hc : c.scopes = declareIn n.lexeme standing p.context.scopes) :
    InMethod program (p.moved c) := by
  obtain ⟨q, name, methods, inner, hamong, hinner⟩ := h
  exact ⟨q, name, methods, inner, hamong.declaring hinner hn hc, hinner⟩

/-- Behind a statement. -/
theorem after
    (h : InMethod program p)
    {s : Stmt}
    (hparsed : s.AsParsed)
    (hworded : s.Worded) :
    InMethod program (p.moved (s.contextAfter p.context)) := by
  rcases Stmt.scopes_contextAfter hparsed hworded p.context with hc | ⟨n, standing, hn, hc⟩
  · exact h.moved hc
  · exact h.declaring hn hc

end InMethod

/--
A node lies in the code of a method of a class with a superclass, is such a method, or is the name
of a superclass.
-/
def Node.Among
    (program : List Stmt)
    (p : Site) : Node → Prop
  | .expression e => (∃ r, e = .read r) ∨ InMethod program p
  | .function routine f => ∃ q name methods inner,
      Lox.Among program p q name methods inner
        ∧ (inner = [] → f ∈ methods ∧ routine = f.methodRoutine
          ∧ p.context = (q.context.define name).inClass true)
  | _ => InMethod program p

/-- Where the innermost class has a superclass, code lies among the methods of that class. -/
theorem Reaches.among
    {program : List Stmt}
    (hprogram : Accepted program)
    {p : Site}
    {node : Node}
    (h : Reaches program p node)
    (howner : p.context.owner = .derived) :
    node.Among program p := by
  induction h with
  | program => cases howner
  | first _ ih => exact ih howner
  | rest hss ih =>
      rw [Site.moved_context, Stmt.owner_contextAfter] at howner
      exact (ih howner).after (hss.first.accepted hprogram).2
        (hss.first.every hprogram.worded).here
  | @block p body _ ih =>
      obtain ⟨q, name, methods, inner, hamong, hinner⟩ := ih howner
      exact ⟨q, name, methods, _, hamong.inside (c := p.context.inBlock) (o := .block _) trivial
        (fun h => absurd h hinner) rfl rfl, List.cons_ne_nil _ _⟩
  | @function p f hs ih =>
      have hname : f.name.IsName := (hs.every hprogram.worded).here
      obtain ⟨q, name, methods, inner, hamong, hinner⟩ :=
        (ih howner).declaring (c := p.context.define f.name) hname rfl
      exact ⟨q, name, methods, inner, hamong, fun h => absurd h hinner⟩
  | @body p routine f hf ih =>
      have howner' : p.context.owner = .derived := by
        simpa [Site.inBody, Context.inBody, Context.atParameters] using howner
      obtain ⟨q, name, methods, inner, hamong, hmethod⟩ := ih howner'
      obtain ⟨scope, hscopes, hfree⟩ := Context.scopes_inBody_of_isName p.context routine
        (hf.every hprogram.worded).here
      refine ⟨q, name, methods, _, hamong.inside (o := .call (f.resolve routine p.context)) trivial
        (fun hnil => ?_) hfree hscopes, List.cons_ne_nil _ _⟩
      obtain ⟨hmem, rfl, hcontext⟩ := hmethod hnil
      exact ⟨f, hmem, by rw [hcontext]⟩
  | superclass hs _ =>
      obtain ⟨name, rfl⟩ := (hs.accepted hprogram).2.1 _ rfl
      exact .inl ⟨_, rfl⟩
  | @method p name parent methods f hs hf ih =>
      cases parent with
      | none => cases howner
      | some parent =>
          refine ⟨p, name, methods, [],
            ⟨⟨parent, hs⟩, rfl, by simp, by simp, [], rfl, rfl, by simp⟩,
            fun _ => ⟨hf, rfl, rfl⟩⟩
  | initializer hs hinit ih =>
      obtain ⟨⟨_, hclean⟩, hparsed⟩ := hs.accepted hprogram
      obtain ⟨_, _, hname⟩ := Stmt.initialized_accepted hinit hclean hparsed
      exact .inr ((ih howner).declaring hname rfl)
  | own _ _ ih => exact .inr (ih howner)
  | thenBranch _ ih => exact ih howner
  | elseBranch hs ih =>
      rw [Site.moved_context, Stmt.owner_contextAfter] at howner
      exact (ih howner).after (hs.thenBranch.accepted hprogram).2
        (hs.thenBranch.every hprogram.worded).here
  | loopBody _ ih => exact ih howner
  | part _ hpart ih =>
      refine .inr ((ih howner).resolve_left ?_)
      rintro ⟨r, rfl⟩
      simp [Expr.parts] at hpart

/-- What has opened the innermost scope around a node that is no method is code. -/
theorem Reaches.isCode_opening
    {program : List Stmt}
    {p : Site}
    {node : Node}
    (h : Reaches program p node)
    (hnode : ∀ routine f, node ≠ .function routine f) :
    ∀ o ∈ p.openings.head?, o.IsCode := by
  induction h with
  | program => simp [Site.top]
  | block _ _ => simp [Site.inBlock, Opening.IsCode]
  | body _ _ => simp [Site.inBody, Opening.IsCode]
  | function _ _ => exact absurd rfl (hnode _ _)
  | method _ _ _ => exact absurd rfl (hnode _ _)
  | first _ ih => exact ih (by simp)
  | rest _ ih => exact ih (by simp)
  | superclass _ ih => exact ih (by simp)
  | initializer _ _ ih => exact ih (by simp)
  | own _ _ ih => exact ih (by simp)
  | thenBranch _ ih => exact ih (by simp)
  | elseBranch _ ih => exact ih (by simp)
  | loopBody _ ih => exact ih (by simp)
  | part _ _ ih => exact ih (by simp)

/-- The word for the superclass stands in a method of a class that has one. -/
theorem Reaches.inMethod_super
    {program : List Stmt}
    (hprogram : Accepted program)
    {p : Site}
    {keyword method : Token}
    {link : Link}
    (h : Reaches program p (.expression (.super keyword method link))) :
    InMethod program p := by
  obtain ⟨⟨_, hclean⟩, _⟩ := h.accepted hprogram
  have howner : p.context.owner = .derived := by
    simp only [Expr.errors, Context.superErrors, List.append_eq_nil_iff, errorIf_eq_nil] at hclean
    cases howner : p.context.owner <;> simp_all
  exact (h.among hprogram howner).resolve_left (by simp)

end Lox
