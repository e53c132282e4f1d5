import Lox.Proofs.Scope.Accepted

/-!
# Code with one scope more around it

Two places in a program may have the same scopes around them, except that among those of the second
there is one more that declares nothing.  Then a name that is found there is found in the same
scope, and only the links that lead beyond the additional scope are longer by one.  The *gap* says
how many scopes lie inside of the additional one; functions, blocks and classes in the code lie
around more of them.

The word for the superclass is special: the scope of the instance is taken to be the one inside of
the scope it leads to, and so no scope may be added between the two.

**Main definitions.**
* `Gap.shift`: where a link leads with one scope more.
* `Expr.Widened`, `Stmt.Widened`: code, and the code for a place with one scope more.

**Results.**
* `Expr.widened_resolve`, `Stmt.widened_resolve`: a tree is resolved to such code at two such
  places.
* `Stmt.widened_refl`: without an additional scope code stays as it is.
-/

namespace Lox

/-- How many scopes lie inside of the additional one; `none` if there is no additional one. -/
abbrev Gap := Option Nat

namespace Gap

/-- Seen from inside of one more scope. -/
def inner (gap : Gap) : Gap := gap.map (· + 1)

/-- The distance to a scope when the additional scope is counted. -/
def shift : Gap → Nat → Nat
  | none, distance => distance
  | some inside, distance => if distance < inside then distance else distance + 1

@[simp] theorem shift_none (distance : Nat) : shift none distance = distance := rfl

@[simp] theorem shift_zero (distance : Nat) : shift (some 0) distance = distance + 1 := rfl

@[simp] theorem inner_none : inner none = none := rfl

@[simp] theorem inner_some (inside : Nat) : inner (some inside) = some (inside + 1) := rfl

theorem none_ne (distance : Nat) : (none : Gap) ≠ some distance :=
  (Option.some_ne_none distance).symm

theorem inner_ne_zero (gap : Gap) : gap.inner ≠ some 0 := by
  cases gap <;> simp

/-- Unless the additional scope is the innermost one, the scope at hand is the same. -/
theorem shift_zero_of_ne {gap : Gap} (h : gap ≠ some 0) : gap.shift 0 = 0 := by
  cases gap with
  | none => rfl
  | some inside =>
      have hpos : 0 < inside := Nat.pos_of_ne_zero fun heq => h (congrArg some heq)
      simp [shift, hpos]

theorem shift_inner_succ (gap : Gap) (distance : Nat) :
    gap.inner.shift (distance + 1) = gap.shift distance + 1 := by
  cases gap with
  | none => rfl
  | some inside =>
      simp only [inner_some, shift, Nat.add_lt_add_iff_right]
      split <;> rfl

/--
One step inward or outward is the same with the additional scope, unless it leads past that one.
-/
theorem shift_sub_one {gap : Gap} {distance : Nat} (h : gap ≠ some distance) :
    gap.shift distance - 1 = gap.shift (distance - 1) := by
  cases gap with
  | none => rfl
  | some inside =>
      have hne : inside ≠ distance := fun heq => h (congrArg some heq)
      simp only [shift]
      split <;> split <;> omega

end Gap

/-- The link for a place with one scope more. -/
def Link.widened (gap : Gap) (link : Link) : Link :=
  ⟨link.depth.map gap.shift, link.constantDepth.map gap.shift⟩

/-- The reference for a place with one scope more. -/
def Reference.widened (gap : Gap) (target : Reference) : Reference :=
  ⟨target.name, target.link.widened gap⟩

/-- An expression, and the one in its place where there is one scope more. -/
inductive Expr.Widened (gap : Gap) : Expr → Expr → Prop
  | literal (value : Literal) : Expr.Widened gap (.literal value) (.literal value)
  | grouping {inner inner' : Expr} (hinner : inner.Widened gap inner') :
      Expr.Widened gap (.grouping inner) (.grouping inner')
  | unary (operator : Token) {operand operand' : Expr} (hoperand : operand.Widened gap operand') :
      Expr.Widened gap (.unary operator operand) (.unary operator operand')
  | binary
      (operator : Token)
      {left left' right right' : Expr}
      (hleft : left.Widened gap left')
      (hright : right.Widened gap right') :
      Expr.Widened gap (.binary left operator right) (.binary left' operator right')
  | logical
      (operator : Token)
      {left left' right right' : Expr}
      (hleft : left.Widened gap left')
      (hright : right.Widened gap right') :
      Expr.Widened gap (.logical left operator right) (.logical left' operator right')
  | read (target : Reference) : Expr.Widened gap (.read target) (.read (target.widened gap))
  | readConstant (target : Reference) :
      Expr.Widened gap (.readConstant target) (.readConstant (target.widened gap))
  | assign (target : Reference) {value value' : Expr} (hvalue : value.Widened gap value') :
      Expr.Widened gap (.assign target value) (.assign (target.widened gap) value')
  | call
      (closing : Token)
      {callee callee' : Expr}
      {arguments arguments' : List Expr}
      (hcallee : callee.Widened gap callee')
      (harguments : List.Forall₂ (Expr.Widened gap) arguments arguments') :
      Expr.Widened gap (.call callee closing arguments) (.call callee' closing arguments')
  | get (name : Token) {object object' : Expr} (hobject : object.Widened gap object') :
      Expr.Widened gap (.get object name) (.get object' name)
  | set
      (name : Token)
      {object object' value value' : Expr}
      (hobject : object.Widened gap object')
      (hvalue : value.Widened gap value') :
      Expr.Widened gap (.set object name value) (.set object' name value')
  | this (keyword : Token) (link : Link) :
      Expr.Widened gap (.this keyword link) (.this keyword (link.widened gap))
  | super
      (keyword method : Token)
      {link : Link}
      (hlink : ∀ distance ∈ link.depth, gap ≠ some distance) :
      Expr.Widened gap (.super keyword method link) (.super keyword method (link.widened gap))

mutual

/--
A statement, and the one in its place where there is one scope more; that one declares nothing.
-/
inductive Stmt.Widened : Gap → Stmt → Stmt → Prop
  | block {gap : Gap} {body body' : List Stmt} (hbody : Stmt.WidenedAll gap.inner body body') :
      Stmt.Widened gap (.block body) (.block body')
  | funDecl
      {gap : Gap}
      {f f' : FunctionDecl}
      (hgap : gap ≠ some 0)
      (hf : FunctionDecl.Widened gap f f') :
      Stmt.Widened gap (.funDecl f) (.funDecl f')
  | classDecl
      {gap : Gap}
      (name : Token)
      {methods methods' : List FunctionDecl}
      (hgap : gap ≠ some 0)
      (hmethods : FunctionDecl.WidenedAll gap.inner methods methods') :
      Stmt.Widened gap (.classDecl name none methods) (.classDecl name none methods')
  | subclassDecl
      {gap : Gap}
      (name : Token)
      {parent parent' : Expr}
      {methods methods' : List FunctionDecl}
      (hgap : gap ≠ some 0)
      (hparent : parent.Widened gap parent')
      (hmethods : FunctionDecl.WidenedAll gap.inner.inner methods methods') :
      Stmt.Widened gap (.classDecl name (some parent) methods)
        (.classDecl name (some parent') methods')
  | varDecl
      {gap : Gap}
      (name : Token)
      {initializer initializer' : Option Expr}
      (hgap : gap ≠ some 0)
      (hinitializer : Option.Rel (Expr.Widened gap) initializer initializer') :
      Stmt.Widened gap (.varDecl name initializer) (.varDecl name initializer')
  | constDecl
      {gap : Gap}
      (name : Token)
      {initializer initializer' : Option Expr}
      (hgap : gap ≠ some 0)
      (hinitializer : Option.Rel (Expr.Widened gap) initializer initializer') :
      Stmt.Widened gap (.constDecl name initializer) (.constDecl name initializer')
  | exprStmt {gap : Gap} {e e' : Expr} (he : e.Widened gap e') :
      Stmt.Widened gap (.exprStmt e) (.exprStmt e')
  | ifStmt
      {gap : Gap}
      {condition condition' : Expr}
      {thenBranch thenBranch' : Stmt}
      (hcondition : condition.Widened gap condition')
      (hthen : Stmt.Widened gap thenBranch thenBranch') :
      Stmt.Widened gap (.ifStmt condition thenBranch none) (.ifStmt condition' thenBranch' none)
  | ifElse
      {gap : Gap}
      {condition condition' : Expr}
      {thenBranch thenBranch' elseBranch elseBranch' : Stmt}
      (hcondition : condition.Widened gap condition')
      (hthen : Stmt.Widened gap thenBranch thenBranch')
      (helse : Stmt.Widened gap elseBranch elseBranch') :
      Stmt.Widened gap (.ifStmt condition thenBranch (some elseBranch))
        (.ifStmt condition' thenBranch' (some elseBranch'))
  | printStmt {gap : Gap} {e e' : Expr} (he : e.Widened gap e') :
      Stmt.Widened gap (.printStmt e) (.printStmt e')
  | returnStmt
      {gap : Gap}
      (keyword : Token)
      {value value' : Option Expr}
      (hvalue : Option.Rel (Expr.Widened gap) value value') :
      Stmt.Widened gap (.returnStmt keyword value) (.returnStmt keyword value')
  | whileStmt
      {gap : Gap}
      {condition condition' : Expr}
      {body body' : Stmt}
      (hcondition : condition.Widened gap condition')
      (hbody : Stmt.Widened gap body body') :
      Stmt.Widened gap (.whileStmt condition body) (.whileStmt condition' body')

inductive Stmt.WidenedAll : Gap → List Stmt → List Stmt → Prop
  | nil {gap : Gap} : Stmt.WidenedAll gap [] []
  | cons
      {gap : Gap}
      {s s' : Stmt}
      {ss ss' : List Stmt}
      (hfirst : Stmt.Widened gap s s')
      (hrest : Stmt.WidenedAll gap ss ss') :
      Stmt.WidenedAll gap (s :: ss) (s' :: ss')

/-- A function, and the one in its place; the scope of its parameters lies inside. -/
inductive FunctionDecl.Widened : Gap → FunctionDecl → FunctionDecl → Prop
  | mk
      {gap : Gap}
      (name : Token)
      (parameters : List Token)
      {body body' : List Stmt}
      (hbody : Stmt.WidenedAll gap.inner body body') :
      FunctionDecl.Widened gap ⟨name, parameters, body⟩ ⟨name, parameters, body'⟩

inductive FunctionDecl.WidenedAll : Gap → List FunctionDecl → List FunctionDecl → Prop
  | nil {gap : Gap} : FunctionDecl.WidenedAll gap [] []
  | cons
      {gap : Gap}
      {f f' : FunctionDecl}
      {fs fs' : List FunctionDecl}
      (hfirst : FunctionDecl.Widened gap f f')
      (hrest : FunctionDecl.WidenedAll gap fs fs') :
      FunctionDecl.WidenedAll gap (f :: fs) (f' :: fs')

end

section Unchanged

@[simp] theorem Link.widened_none (link : Link) : link.widened none = link := by
  obtain ⟨depth, constantDepth⟩ := link
  cases depth <;> cases constantDepth <;> rfl

@[simp] theorem Reference.widened_none (target : Reference) : target.widened none = target := by
  simp [widened]

mutual

/-- Without an additional scope an expression stays as it is. -/
theorem Expr.widened_refl : ∀ e : Expr, e.Widened none e
  | .literal value => .literal value
  | .grouping inner => .grouping inner.widened_refl
  | .unary operator operand => .unary operator operand.widened_refl
  | .binary left operator right => .binary operator left.widened_refl right.widened_refl
  | .logical left operator right => .logical operator left.widened_refl right.widened_refl
  | .read target => by
      have h : Expr.Widened none (.read target) _ := .read target
      rwa [Reference.widened_none] at h
  | .readConstant target => by
      have h : Expr.Widened none (.readConstant target) _ := .readConstant target
      rwa [Reference.widened_none] at h
  | .assign target value => by simpa using Expr.Widened.assign target value.widened_refl
  | .call callee closing arguments =>
      .call closing callee.widened_refl (Expr.forall₂_widened_refl arguments)
  | .get object name => .get name object.widened_refl
  | .set object name value => .set name object.widened_refl value.widened_refl
  | .this keyword link => by
      have h : Expr.Widened none (.this keyword link) _ := .this keyword link
      rwa [Link.widened_none] at h
  | .super keyword method link => by
      have hlink : ∀ distance ∈ link.depth, (none : Gap) ≠ some distance :=
        fun distance _ => Gap.none_ne distance
      have h : Expr.Widened none (.super keyword method link) _ := .super keyword method hlink
      rwa [Link.widened_none] at h

theorem Expr.forall₂_widened_refl : ∀ es : List Expr, List.Forall₂ (Expr.Widened none) es es
  | [] => .nil
  | e :: es => .cons e.widened_refl (Expr.forall₂_widened_refl es)

end

theorem Expr.optionRel_widened_refl (e : Option Expr) : Option.Rel (Expr.Widened none) e e := by
  cases e with
  | none => exact .none
  | some e => exact .some e.widened_refl

mutual

/-- Without an additional scope a statement stays as it is. -/
theorem Stmt.widened_refl : ∀ s : Stmt, Stmt.Widened none s s
  | .block body => .block (Stmt.widenedAll_refl body)
  | .funDecl f => .funDecl (Gap.none_ne 0) f.widened_refl
  | .classDecl name none methods =>
      .classDecl name (Gap.none_ne 0) (FunctionDecl.widenedAll_refl methods)
  | .classDecl name (some parent) methods =>
      .subclassDecl name (Gap.none_ne 0) parent.widened_refl (FunctionDecl.widenedAll_refl methods)
  | .varDecl name initializer =>
      .varDecl name (Gap.none_ne 0) (Expr.optionRel_widened_refl initializer)
  | .constDecl name initializer =>
      .constDecl name (Gap.none_ne 0) (Expr.optionRel_widened_refl initializer)
  | .exprStmt e => .exprStmt e.widened_refl
  | .ifStmt condition thenBranch none => .ifStmt condition.widened_refl thenBranch.widened_refl
  | .ifStmt condition thenBranch (some elseBranch) =>
      .ifElse condition.widened_refl thenBranch.widened_refl elseBranch.widened_refl
  | .printStmt e => .printStmt e.widened_refl
  | .returnStmt keyword value => .returnStmt keyword (Expr.optionRel_widened_refl value)
  | .whileStmt condition body => .whileStmt condition.widened_refl body.widened_refl

theorem Stmt.widenedAll_refl : ∀ ss : List Stmt, Stmt.WidenedAll none ss ss
  | [] => .nil
  | s :: ss => .cons s.widened_refl (Stmt.widenedAll_refl ss)

theorem FunctionDecl.widened_refl : ∀ f : FunctionDecl, FunctionDecl.Widened none f f
  | ⟨name, parameters, body⟩ => .mk name parameters (Stmt.widenedAll_refl body)

theorem FunctionDecl.widenedAll_refl : ∀ fs : List FunctionDecl, FunctionDecl.WidenedAll none fs fs
  | [] => .nil
  | f :: fs => .cons f.widened_refl (FunctionDecl.widenedAll_refl fs)

end

end Unchanged

section Contexts

/-- The same scopes, the second time with one among them that declares nothing. -/
inductive ScopesWidened : Gap → List Scope → List Scope → Prop
  | same (scopes : List Scope) : ScopesWidened none scopes scopes
  | added
      {scopes : List Scope}
      (hsuper : ∀ scope ∈ scopes.head?, scope.standing? "super" = none) :
      ScopesWidened (some 0) scopes ([] :: scopes)
  | inside
      {gap : Gap}
      (scope : Scope)
      {scopes scopes' : List Scope}
      (hscopes : ScopesWidened gap scopes scopes') :
      ScopesWidened gap.inner (scope :: scopes) (scope :: scopes')

/-- A name is found in the same scope. -/
theorem ScopesWidened.findScope?
    {gap : Gap}
    {scopes scopes' : List Scope}
    (h : ScopesWidened gap scopes scopes')
    (name : String) :
    findScope? name scopes' =
      (findScope? name scopes).map fun found => (gap.shift found.1, found.2) := by
  induction h with
  | same scopes => simp
  | added _ => rfl
  | @inside gap scope scopes scopes' _ ih =>
      simp only [Lox.findScope?]
      cases scope.standing? name with
      | some standing => simp [Gap.shift_zero_of_ne gap.inner_ne_zero]
      | none => simp [ih, Function.comp_def, Gap.shift_inner_succ]

/-- The scope of a superclass is not the one right outside of the additional scope. -/
theorem ScopesWidened.ne_of_findScope?_super
    {gap : Gap}
    {scopes scopes' : List Scope}
    (h : ScopesWidened gap scopes scopes')
    {distance : Nat}
    {standing : Standing}
    (hfound : Lox.findScope? "super" scopes = some (distance, standing)) :
    gap ≠ some distance := by
  induction h generalizing distance with
  | same scopes => exact Gap.none_ne distance
  | @added scopes hsuper =>
      cases scopes with
      | nil => cases hfound
      | cons scope outer =>
          rw [Lox.findScope?, hsuper scope rfl] at hfound
          obtain ⟨_, _, ⟨⟩⟩ := Option.map_eq_some_iff.mp hfound
          simp
  | @inside gap scope scopes scopes' _ ih =>
      rw [Lox.findScope?] at hfound
      split at hfound
      · cases hfound
        exact gap.inner_ne_zero
      · obtain ⟨⟨nearer, _⟩, hnearer, ⟨⟩⟩ := Option.map_eq_some_iff.mp hfound
        cases gap with
        | none => exact Gap.none_ne _
        | some inside => simpa using ih hnearer

theorem ScopesWidened.declareIn
    {gap : Gap}
    {scopes scopes' : List Scope}
    (h : ScopesWidened gap scopes scopes')
    (hgap : gap ≠ some 0)
    (name : String)
    (standing : Standing) :
    ScopesWidened gap (declareIn name standing scopes) (declareIn name standing scopes') := by
  cases h with
  | same scopes => exact .same _
  | added _ => exact absurd rfl hgap
  | inside scope hscopes => exact .inside _ hscopes

/-- Contexts that differ in the additional scope. -/
structure Context.Widened (gap : Gap) (c c' : Context) : Prop where
  scopes : ScopesWidened gap c.scopes c'.scopes
  routine : c'.routine = c.routine
  owner : c'.owner = c.owner

namespace Context.Widened

variable
  {gap : Gap}
  {c c' : Context}

theorem declare (h : c.Widened gap c') (hgap : gap ≠ some 0) (name : Token) :
    (c.declare name).Widened gap (c'.declare name) :=
  ⟨h.scopes.declareIn hgap name.lexeme .pending, h.routine, h.owner⟩

theorem define (h : c.Widened gap c') (hgap : gap ≠ some 0) (name : Token) :
    (c.define name).Widened gap (c'.define name) :=
  ⟨h.scopes.declareIn hgap name.lexeme .variable, h.routine, h.owner⟩

theorem defineConstant (h : c.Widened gap c') (hgap : gap ≠ some 0) (name : Token) :
    (c.defineConstant name).Widened gap (c'.defineConstant name) :=
  ⟨h.scopes.declareIn hgap name.lexeme .constant, h.routine, h.owner⟩

theorem defineAll (h : c.Widened gap c') (hgap : gap ≠ some 0) (names : List Token) :
    (c.defineAll names).Widened gap (c'.defineAll names) := by
  induction names generalizing c c' with
  | nil => exact h
  | cons name names ih => exact ih (h.define hgap name)

theorem inBlock (h : c.Widened gap c') : c.inBlock.Widened gap.inner c'.inBlock :=
  ⟨.inside [] h.scopes, h.routine, h.owner⟩

theorem inBody (h : c.Widened gap c') (routine : Routine) (parameters : List Token) :
    (c.inBody routine parameters).Widened gap.inner (c'.inBody routine parameters) := by
  have hopened : (c.atParameters routine).Widened gap.inner (c'.atParameters routine) :=
    ⟨.inside [] h.scopes, rfl, h.owner⟩
  exact hopened.defineAll gap.inner_ne_zero parameters

theorem atSuperclass (h : c.Widened gap c') (hgap : gap ≠ some 0) (name : Token) :
    (c.atSuperclass name).Widened gap (c'.atSuperclass name) :=
  ⟨(h.define hgap name).scopes, h.routine, rfl⟩

theorem inBaseClass (h : c.Widened gap c') :
    (c.inClass false).Widened gap.inner (c'.inClass false) :=
  ⟨.inside _ h.scopes, h.routine, rfl⟩

theorem inDerivedClass (h : c.Widened gap c') :
    (c.inClass true).Widened gap.inner.inner (c'.inClass true) :=
  ⟨.inside _ (.inside _ h.scopes), h.routine, rfl⟩

theorem link (h : c.Widened gap c') (name : String) :
    c'.link name .unresolved = (c.link name .unresolved).widened gap := by
  simp only [Context.link, h.scopes.findScope? name]
  cases findScope? name c.scopes <;> rfl

theorem assignmentLink (h : c.Widened gap c') (name : String) :
    c'.assignmentLink name .unresolved = (c.assignmentLink name .unresolved).widened gap := by
  simp only [Context.assignmentLink, h.scopes.findScope? name]
  cases findScope? name c.scopes with
  | none => rfl
  | some found =>
      obtain ⟨distance, standing⟩ := found
      cases standing <;> rfl

theorem thisLink (h : c.Widened gap c') :
    c'.thisLink .unresolved = (c.thisLink .unresolved).widened gap := by
  simp only [Context.thisLink, h.owner]
  cases c.owner with
  | none => rfl
  | base => exact h.link "this"
  | derived => exact h.link "this"

/-- The link of the superclass never leads to the scope right outside of the additional one. -/
theorem ne_depth_superLink (h : c.Widened gap c') :
    ∀ distance ∈ (c.link "super" .unresolved).depth, gap ≠ some distance := by
  intro distance hdistance
  simp only [Context.link] at hdistance
  cases hfound : findScope? "super" c.scopes with
  | none => simp [hfound, Link.unresolved] at hdistance
  | some found =>
      obtain ⟨d, standing⟩ := found
      obtain rfl : d = distance := by simpa [hfound] using hdistance
      exact h.scopes.ne_of_findScope?_super hfound

/-- Behind a statement. -/
theorem contextAfter
    (h : c.Widened gap c')
    (hgap : gap ≠ some 0)
    {s : Stmt}
    (hs : s.AsParsed) :
    (s.contextAfter c).Widened gap (s.contextAfter c') := by
  cases s with
  | funDecl f => exact h.define hgap f.name
  | classDecl name parent methods => exact h.define hgap name
  | varDecl name initializer => exact h.define hgap name
  | constDecl name initializer => exact h.defineConstant hgap name
  | _ =>
      rw [Stmt.contextAfter_of_isDeclaration_eq_false rfl hs,
        Stmt.contextAfter_of_isDeclaration_eq_false rfl hs]
      exact h

end Context.Widened

end Contexts

section Resolution

variable
  {gap : Gap}
  {c c' : Context}

mutual

/-- An expression is resolved to the same with longer links. -/
theorem Expr.widened_resolve (hc : c.Widened gap c') :
    ∀ e : Expr, e.AsParsed → (e.resolve c).Widened gap (e.resolve c')
  | .literal value, _ => .literal value
  | .grouping inner, h => .grouping (inner.widened_resolve hc h)
  | .unary operator operand, h => .unary operator (operand.widened_resolve hc h)
  | .binary left operator right, h =>
      .binary operator (left.widened_resolve hc fun r hr => h r (List.mem_append_left _ hr))
        (right.widened_resolve hc fun r hr => h r (List.mem_append_right _ hr))
  | .logical left operator right, h =>
      .logical operator (left.widened_resolve hc fun r hr => h r (List.mem_append_left _ hr))
        (right.widened_resolve hc fun r hr => h r (List.mem_append_right _ hr))
  | .read ⟨name, link⟩, h => by
      obtain rfl : link = .unresolved := (h _ List.mem_cons_self).1
      simp only [resolve, Reference.resolve, hc.link]
      exact .read ⟨name, c.link name.lexeme .unresolved⟩
  | .readConstant ⟨name, link⟩, h => absurd rfl (h _ List.mem_cons_self).2.1
  | .assign ⟨name, link⟩ value, h => by
      obtain rfl : link = .unresolved := (h _ (List.mem_append_right _ List.mem_cons_self)).1
      simp only [resolve, Reference.resolveAssigned, hc.assignmentLink]
      exact .assign ⟨name, c.assignmentLink name.lexeme .unresolved⟩
        (value.widened_resolve hc fun r hr => h r (List.mem_append_left _ hr))
  | .call callee closing arguments, h =>
      .call closing (callee.widened_resolve hc fun r hr => h r (List.mem_append_left _ hr))
        (Expr.widened_resolveAll hc arguments fun r hr => h r (List.mem_append_right _ hr))
  | .get object name, h => .get name (object.widened_resolve hc h)
  | .set object name value, h =>
      .set name (object.widened_resolve hc fun r hr => h r (List.mem_append_left _ hr))
        (value.widened_resolve hc fun r hr => h r (List.mem_append_right _ hr))
  | .this keyword link, h => by
      obtain rfl : link = .unresolved := (h _ List.mem_cons_self).1
      simp only [resolve, hc.thisLink]
      exact .this keyword (c.thisLink .unresolved)
  | .super keyword method link, h => by
      obtain rfl : link = .unresolved := (h _ List.mem_cons_self).1
      simp only [resolve, hc.link]
      exact .super keyword method hc.ne_depth_superLink

theorem Expr.widened_resolveAll (hc : c.Widened gap c') :
    ∀ es : List Expr, (∀ r ∈ Expr.referencesAll .written es, r.AsParsed) →
      List.Forall₂ (Expr.Widened gap) (Expr.resolveAll c es) (Expr.resolveAll c' es)
  | [], _ => .nil
  | e :: es, h =>
      .cons (e.widened_resolve hc fun r hr => h r (List.mem_append_left _ hr))
        (Expr.widened_resolveAll hc es fun r hr => h r (List.mem_append_right _ hr))

end

theorem Expr.optionRel_widened_resolve
    (hc : c.Widened gap c')
    {e : Option Expr}
    (he : optionAsParsed e) :
    Option.Rel (Expr.Widened gap) (e.map (Expr.resolve c)) (e.map (Expr.resolve c')) := by
  cases e with
  | none => exact .none
  | some e => exact .some (e.widened_resolve hc (he e rfl))

end Resolution

/-- A superclass is a name that is read. -/
theorem asParsed_of_parentAsParsed {parent : Expr} (h : parentAsParsed (some parent)) :
    parent.AsParsed := by
  obtain ⟨name, rfl⟩ := h parent rfl
  simp [Expr.AsParsed, Expr.references, LinkRecord.AsParsed]

mutual

/-- A statement is resolved to the same with longer links. -/
theorem Stmt.widened_resolve {gap : Gap} {c c' : Context} (hc : c.Widened gap c') :
    ∀ s : Stmt, s.AsParsed → (gap = some 0 → s.isDeclaration = false) →
      Stmt.Widened gap (s.resolve c) (s.resolve c')
  | .block body, h, _ => .block (Stmt.widened_resolveAll hc.inBlock gap.inner_ne_zero body h)
  | .funDecl f, h, hgap =>
      have hopen : gap ≠ some 0 := fun heq => nomatch hgap heq
      .funDecl hopen (f.widened_resolve (hc.define hopen f.name) .function h)
  | .classDecl name none methods, h, hgap =>
      have hopen : gap ≠ some 0 := fun heq => nomatch hgap heq
      .classDecl name hopen
        (FunctionDecl.widened_resolveMethods (hc.define hopen name).inBaseClass methods h.2)
  | .classDecl name (some parent) methods, h, hgap =>
      have hopen : gap ≠ some 0 := fun heq => nomatch hgap heq
      .subclassDecl name hopen
        (parent.widened_resolve (hc.atSuperclass hopen name) (asParsed_of_parentAsParsed h.1))
        (FunctionDecl.widened_resolveMethods (hc.define hopen name).inDerivedClass methods h.2)
  | .varDecl name initializer, h, hgap =>
      have hopen : gap ≠ some 0 := fun heq => nomatch hgap heq
      .varDecl name hopen (Expr.optionRel_widened_resolve (hc.declare hopen name) h.2)
  | .constDecl name initializer, h, hgap =>
      have hopen : gap ≠ some 0 := fun heq => nomatch hgap heq
      .constDecl name hopen (Expr.optionRel_widened_resolve (hc.declare hopen name) h.2)
  | .exprStmt e, h, _ => .exprStmt (e.widened_resolve hc h)
  | .ifStmt condition thenBranch none, h, _ =>
      .ifStmt (condition.widened_resolve hc h.1)
        (thenBranch.widened_resolve hc h.2.2 fun _ => h.2.1)
  | .ifStmt condition thenBranch (some elseBranch), h, _ => by
      simp only [Stmt.resolve, Stmt.contextAfter_of_isDeclaration_eq_false h.2.1.1 h.2.1.2]
      exact .ifElse (condition.widened_resolve hc h.1)
        (thenBranch.widened_resolve hc h.2.1.2 fun _ => h.2.1.1)
        (elseBranch.widened_resolve hc h.2.2.2 fun _ => h.2.2.1)
  | .printStmt e, h, _ => .printStmt (e.widened_resolve hc h)
  | .returnStmt keyword value, h, _ => .returnStmt keyword (Expr.optionRel_widened_resolve hc h)
  | .whileStmt condition body, h, _ =>
      .whileStmt (condition.widened_resolve hc h.1) (body.widened_resolve hc h.2.2 fun _ => h.2.1)

theorem Stmt.widened_resolveAll
    {gap : Gap} {c c' : Context} (hc : c.Widened gap c') (hgap : gap ≠ some 0) :
    ∀ ss : List Stmt, Stmt.AsParsedAll ss →
      Stmt.WidenedAll gap (Stmt.resolveAll ss c) (Stmt.resolveAll ss c')
  | [], _ => .nil
  | s :: ss, h =>
      .cons (s.widened_resolve hc h.1 fun heq => absurd heq hgap)
        (Stmt.widened_resolveAll (hc.contextAfter hgap h.1) hgap ss h.2)

theorem FunctionDecl.widened_resolve
    {gap : Gap} {c c' : Context} (hc : c.Widened gap c') (routine : Routine) :
    ∀ f : FunctionDecl, f.AsParsed →
      FunctionDecl.Widened gap (f.resolve routine c) (f.resolve routine c')
  | ⟨name, parameters, body⟩, h =>
      .mk name parameters
        (Stmt.widened_resolveAll (hc.inBody routine parameters) gap.inner_ne_zero body h)

theorem FunctionDecl.widened_resolveMethods {gap : Gap} {c c' : Context} (hc : c.Widened gap c') :
    ∀ fs : List FunctionDecl, FunctionDecl.AsParsedAll fs →
      FunctionDecl.WidenedAll gap (FunctionDecl.resolveMethods fs c)
        (FunctionDecl.resolveMethods fs c')
  | [], _ => .nil
  | f :: fs, h =>
      .cons (f.widened_resolve hc f.methodRoutine h.1)
        (FunctionDecl.widened_resolveMethods hc fs h.2)

end

end Lox
