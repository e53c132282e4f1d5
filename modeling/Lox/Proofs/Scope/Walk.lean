import Lox.Scope.Walk
import Mathlib

/-!
# A walk through a program leaves nothing behind

Scopes are opened and closed by hand, but every statement closes what it opens.  So behind a
statement the same scopes are open as before, and only the innermost of them may have more names;
the function and the class around the place are the same as well.

The open scopes say the same as the context of the place.  An expression changes no scope, so the
value that initializes a name is read in the context in which the name is declared but not yet
defined.

**Main definitions.**
* `Walk.SamePlace`: the same scopes are open, and those around the innermost one have not changed.
* `Walk.At`: the open scopes say the same as a context.

**Results.**
* `Expr.walk_restores`, `Stmt.walk_samePlace`: what expressions and statements leave behind.
* `Walk.At.distance?_eq`: a name is as far away as in the context.
-/

namespace Lox

/-- The same scopes are open, and only the innermost of them may have changed. -/
structure Walk.SamePlace (w w' : Walk) : Prop where
  depth : w'.scopes.length = w.scopes.length
  outer : w'.scopes.tail = w.scopes.tail
  routine : w'.routine = w.routine
  owner : w'.owner = w.owner

/-- No scope has changed, and the place is the same. -/
structure Walk.Restores (w w' : Walk) : Prop where
  scopes : w'.scopes = w.scopes
  routine : w'.routine = w.routine
  owner : w'.owner = w.owner

namespace Walk

variable {w w' w'' : Walk}

/-- A place is the same as itself. -/
theorem SamePlace.refl (w : Walk) : w.SamePlace w := ⟨rfl, rfl, rfl, rfl⟩

/-- What leaves the place the same does so one after the other. -/
theorem SamePlace.trans (h : w.SamePlace w') (h' : w'.SamePlace w'') : w.SamePlace w'' :=
  ⟨h'.depth.trans h.depth, h'.outer.trans h.outer, h'.routine.trans h.routine,
    h'.owner.trans h.owner⟩

/-- Whatever the class around a place is taken for, it is the same at both places. -/
theorem SamePlace.setOwner (h : w.SamePlace w') (owner : Owner) :
    (w.setOwner owner).SamePlace (w'.setOwner owner) :=
  ⟨h.depth, h.outer, h.routine, rfl⟩

/-- What does nothing restores all scopes. -/
theorem Restores.refl (w : Walk) : w.Restores w := ⟨rfl, rfl, rfl⟩

/-- What restores all scopes does so one after the other. -/
theorem Restores.trans (h : w.Restores w') (h' : w'.Restores w'') : w.Restores w'' :=
  ⟨h'.scopes.trans h.scopes, h'.routine.trans h.routine, h'.owner.trans h.owner⟩

/-- Where no scope has changed, the place is the same. -/
theorem Restores.samePlace (h : w.Restores w') : w.SamePlace w' :=
  ⟨by rw [h.scopes], by rw [h.scopes], h.routine, h.owner⟩

/-- A scope that has been opened is closed again. -/
theorem SamePlace.leave
    {scope : OpenScope}
    (h : (w.enter scope).SamePlace w') :
    w.Restores w'.leave :=
  ⟨h.outer, h.routine, h.owner⟩

/-- Errors change no scope. -/
theorem restores_report (w : Walk) (errors : List ScopeError) : w.Restores (w.report errors) :=
  ⟨rfl, rfl, rfl⟩

/-- A link that is recorded changes no scope. -/
theorem restores_resolveLocal (w : Walk) (name : String) (placeholder : Link) :
    w.Restores (w.resolveLocal name placeholder) := by
  unfold resolveLocal
  split
  · exact ⟨rfl, rfl, rfl⟩
  · exact .refl w

/-- The link of an assignment changes no scope. -/
theorem restores_resolveAssigned (w : Walk) (name : String) (placeholder : Link) :
    w.Restores (w.resolveAssigned name placeholder) := by
  have hlocal := w.restores_resolveLocal name placeholder
  unfold resolveAssigned
  dsimp only
  split
  · split
    · exact ⟨hlocal.scopes, hlocal.routine, hlocal.owner⟩
    · exact hlocal
  · exact hlocal

/-- To read a name changes no scope. -/
theorem restores_read (w : Walk) (target : Reference) : w.Restores (w.read target) :=
  (w.restores_report _).trans (restores_resolveLocal _ _ _)

/-- A reference to the instance changes no scope. -/
theorem restores_this (w : Walk) (keyword : Token) (placeholder : Link) :
    w.Restores (w.this keyword placeholder) := by
  unfold this
  split
  · exact w.restores_report _
  · exact w.restores_resolveLocal _ _

/-- A reference to the superclass changes no scope. -/
theorem restores_super (w : Walk) (keyword : Token) (placeholder : Link) :
    w.Restores (w.super keyword placeholder) :=
  (w.restores_report _).trans (restores_resolveLocal _ _ _)

/-- A change of the innermost scope leaves the place the same. -/
theorem samePlace_onInnermost (w : Walk) (change : OpenScope → OpenScope) :
    w.SamePlace (w.onInnermost change) := by
  unfold onInnermost
  split
  · exact .refl w
  · next hscopes => exact ⟨by simp [hscopes], by simp [hscopes], rfl, rfl⟩

/-- A declaration changes the innermost scope only. -/
theorem samePlace_declare (w : Walk) (name : Token) : w.SamePlace (w.declare name) :=
  (w.restores_report _).samePlace.trans (samePlace_onInnermost _ _)

/-- A definition changes the innermost scope only. -/
theorem samePlace_define (w : Walk) (name : Token) : w.SamePlace (w.define name) :=
  w.samePlace_onInnermost _

/-- To mark a constant changes the innermost scope only. -/
theorem samePlace_markConstant (w : Walk) (name : Token) : w.SamePlace (w.markConstant name) :=
  w.samePlace_onInnermost _

/-- Parameters change the innermost scope only. -/
theorem samePlace_declareAll (names : List Token) :
    ∀ w : Walk, w.SamePlace (w.declareAll names) := by
  induction names with
  | nil => exact .refl
  | cons name names ih =>
      exact fun w => ((w.samePlace_declare name).trans (samePlace_define _ name)).trans (ih _)

/-- The name of a class changes the innermost scope only. -/
theorem samePlace_nameClass (w : Walk) (name : Token) :
    (w.setOwner .base).SamePlace (w.nameClass name) :=
  (samePlace_declare _ name).trans (samePlace_define _ name)

end Walk

mutual

/-- An expression leaves all scopes as they are. -/
theorem Expr.walk_restores : ∀ (e : Expr) (w : Walk), w.Restores (e.walk w)
  | .literal _, w => .refl w
  | .grouping inner, w => inner.walk_restores w
  | .unary _ operand, w => operand.walk_restores w
  | .binary left _ right, w => (left.walk_restores w).trans (right.walk_restores _)
  | .logical left _ right, w => (left.walk_restores w).trans (right.walk_restores _)
  | .read target, w => w.restores_read target
  | .readConstant target, w => w.restores_read target
  | .assign _ value, w => (value.walk_restores w).trans (Walk.restores_resolveAssigned _ _ _)
  | .call callee _ arguments, w =>
      (callee.walk_restores w).trans (Expr.walkAll_restores arguments _)
  | .get object _, w => object.walk_restores w
  | .set object _ value, w => (value.walk_restores w).trans (object.walk_restores _)
  | .this keyword link, w => w.restores_this keyword link
  | .super keyword _ link, w => w.restores_super keyword link

theorem Expr.walkAll_restores : ∀ (es : List Expr) (w : Walk), w.Restores (Expr.walkAll es w)
  | [], w => .refl w
  | e :: es, w => (e.walk_restores w).trans (Expr.walkAll_restores es _)

end

/-- An expression that may be absent changes no scope. -/
theorem optionWalk_restores (e : Option Expr) (w : Walk) : w.Restores (optionWalk e w) := by
  cases e with
  | none => exact .refl w
  | some e => exact e.walk_restores w

namespace Walk

/-- A return changes no scope. -/
theorem restores_return (w : Walk) (keyword : Token) (value : Option Expr) :
    w.Restores (w.return keyword value) := by
  unfold Walk.return
  dsimp only
  cases value with
  | none => exact w.restores_report _
  | some e =>
      exact ((w.restores_report _).trans (restores_report _ _)).trans (e.walk_restores _)

/--
What has been opened for a class is closed again; then the class around it is the one from before
the declaration.
-/
theorem restores_class
    {w w' : Walk}
    {name : Token}
    {parent : Option Expr}
    (h : (((w.nameClass name).enterSuperclass name parent).enter (.binding "this")).Restores w') :
    ((w.nameClass name).setOwner w.owner).Restores
      ((w'.leave.leaveSuperclass parent).setOwner w.owner) := by
  have hthis := h.samePlace.leave
  cases parent with
  | none => exact ⟨hthis.scopes, hthis.routine, rfl⟩
  | some e =>
      have he := e.walk_restores
        (((w.nameClass name).report (inheritanceErrors name e)).setOwner .derived)
      have hsuper := hthis.samePlace.leave
      exact ⟨hsuper.scopes.trans he.scopes, hsuper.routine.trans he.routine, rfl⟩

end Walk

mutual

/-- A statement closes the scopes that it opens. -/
theorem Stmt.walk_samePlace : ∀ (s : Stmt) (w : Walk), w.SamePlace (s.walk w)
  | .block body, w => (Stmt.walkAll_samePlace body (w.enter .empty)).leave.samePlace
  | .funDecl f, w =>
      ((w.samePlace_declare f.name).trans (Walk.samePlace_define _ f.name)).trans
        (f.walk_restores .function _).samePlace
  | .classDecl name _ methods, w =>
      ((w.samePlace_nameClass name).setOwner w.owner).trans
        (Walk.restores_class (FunctionDecl.walkMethods_restores methods _)).samePlace
  | .varDecl name initializer, w =>
      ((w.samePlace_declare name).trans (optionWalk_restores initializer _).samePlace).trans
        (Walk.samePlace_define _ name)
  | .constDecl name none, w =>
      (((w.samePlace_declare name).trans (Walk.restores_report _ _).samePlace).trans
        (Walk.samePlace_define _ name)).trans (Walk.samePlace_markConstant _ name)
  | .constDecl name (some value), w =>
      (((w.samePlace_declare name).trans (value.walk_restores _).samePlace).trans
        (Walk.samePlace_define _ name)).trans (Walk.samePlace_markConstant _ name)
  | .exprStmt e, w => (e.walk_restores w).samePlace
  | .ifStmt condition thenBranch none, w =>
      (condition.walk_restores w).samePlace.trans (thenBranch.walk_samePlace _)
  | .ifStmt condition thenBranch (some elseBranch), w =>
      ((condition.walk_restores w).samePlace.trans (thenBranch.walk_samePlace _)).trans
        (elseBranch.walk_samePlace _)
  | .printStmt e, w => (e.walk_restores w).samePlace
  | .returnStmt keyword value, w => (w.restores_return keyword value).samePlace
  | .whileStmt condition body, w =>
      (condition.walk_restores w).samePlace.trans (body.walk_samePlace _)

theorem Stmt.walkAll_samePlace :
    ∀ (ss : List Stmt) (w : Walk), w.SamePlace (Stmt.walkAll ss w)
  | [], w => .refl w
  | s :: ss, w => (s.walk_samePlace w).trans (Stmt.walkAll_samePlace ss _)

theorem FunctionDecl.walk_restores :
    ∀ (f : FunctionDecl) (routine : Routine) (w : Walk), w.Restores (f.walk routine w)
  | ⟨_, parameters, body⟩, routine, w => by
      have hinside := (Walk.samePlace_declareAll parameters
        ((w.setRoutine routine).enter .empty)).trans (Stmt.walkAll_samePlace body _)
      exact ⟨hinside.leave.scopes, rfl, hinside.leave.owner⟩

theorem FunctionDecl.walkMethods_restores :
    ∀ (fs : List FunctionDecl) (w : Walk), w.Restores (FunctionDecl.walkMethods fs w)
  | [], w => .refl w
  | f :: fs, w => (f.walk_restores _ w).trans (FunctionDecl.walkMethods_restores fs _)

end

section Entries

variable {κ β : Type} [BEq κ] [LawfulBEq κ]

/-- In a table, a key is looked up to what was entered last. -/
theorem lookup_putEntry (key key' : κ) (value : β) (table : List (κ × β)) :
    (putEntry key value table).lookup key' =
      if key' == key then some value else table.lookup key' := by
  induction table with
  | nil => cases h : key' == key <;> simp [putEntry, List.lookup, h]
  | cons entry rest ih =>
      obtain ⟨k, v⟩ := entry
      rw [putEntry]
      cases hkey : k == key with
      | true =>
          obtain rfl := eq_of_beq hkey
          cases h : key' == k <;> simp [List.lookup, h]
      | false =>
          cases h : key' == k with
          | true =>
              obtain rfl := eq_of_beq h
              simp [List.lookup, hkey]
          | false => simpa [List.lookup, h] using ih

end Entries

/-- A scope knows the names that a context knows there, and takes the same of them for constants. -/
def OpenScope.Holds (o : OpenScope) (scope : Scope) : Prop :=
  ∀ name,
    o.names.lookup name = (scope.standing? name).map (· != .pending)
      ∧ o.constants.contains name = (scope.standing? name == some .constant)

namespace OpenScope.Holds

variable
  {o : OpenScope}
  {scope : Scope}
  {name : String}

/-- The last declaration of a name in a scope counts. -/
theorem standing?_cons (standing : Standing) (other : String) :
    Scope.standing? (⟨name, standing⟩ :: scope) other =
      if other = name then some standing else scope.standing? other := by
  by_cases h : other = name
  · simp [Scope.standing?, h]
  · have hne : (name == other) = false := by simpa using Ne.symm h
    simp [Scope.standing?, hne, h]

/-- A declared name is pending in both. -/
theorem declare (h : o.Holds scope) : (o.declare name).Holds (⟨name, .pending⟩ :: scope) := by
  intro other
  obtain ⟨hnames, hconstants⟩ := h other
  rw [standing?_cons]
  by_cases hother : other = name
  · simp [OpenScope.declare, lookup_putEntry, hother]
  · simp [OpenScope.declare, lookup_putEntry, hother, hnames, ← hconstants]

/-- A pending name becomes a variable in both. -/
theorem define (h : o.Holds (⟨name, .pending⟩ :: scope)) :
    (o.define name).Holds (⟨name, .variable⟩ :: scope) := by
  intro other
  obtain ⟨hnames, hconstants⟩ := h other
  rw [standing?_cons] at hnames hconstants ⊢
  by_cases hother : other = name
  · rw [if_pos hother] at hconstants
    exact ⟨by simp [OpenScope.define, lookup_putEntry, hother],
      by rw [if_pos hother]; exact hconstants⟩
  · rw [if_neg hother] at hnames hconstants
    simp [OpenScope.define, lookup_putEntry, hother, hnames, ← hconstants]

/-- A variable becomes a constant in both. -/
theorem markConstant (h : o.Holds (⟨name, .variable⟩ :: scope)) :
    (o.markConstant name).Holds (⟨name, .constant⟩ :: scope) := by
  intro other
  obtain ⟨hnames, hconstants⟩ := h other
  rw [standing?_cons] at hnames hconstants ⊢
  by_cases hother : other = name
  · rw [if_pos hother] at hnames
    rw [if_pos hother]
    exact ⟨hnames, by simp [OpenScope.markConstant, hother]⟩
  · rw [if_neg hother] at hnames hconstants
    simp [OpenScope.markConstant, hother, hnames, ← hconstants]

/-- An open scope without names holds none. -/
theorem empty : OpenScope.empty.Holds [] :=
  fun _ => ⟨rfl, rfl⟩

/-- An open scope with one name, as it is opened for instances and superclasses. -/
theorem binding (name : String) : (OpenScope.binding name).Holds [⟨name, .variable⟩] := by
  intro other
  rw [standing?_cons]
  by_cases hother : other = name
  · simp [OpenScope.binding, hother]
  · have hne : (other == name) = false := by simpa using hother
    simp [OpenScope.binding, List.lookup, hne, hother, Scope.standing?]

/-- A name that is declared in one of the two is declared in the other. -/
theorem declares (h : o.Holds scope) (name : String) :
    o.declares name = (scope.standing? name).isSome := by
  rw [OpenScope.declares, (h name).1, Option.isSome_map]

/-- A name that is pending in one of the two is pending in the other. -/
theorem isPending (h : o.Holds scope) (name : String) :
    o.isPending name = (scope.standing? name == some .pending) := by
  rw [OpenScope.isPending, (h name).1]
  cases scope.standing? name with
  | none => rfl
  | some standing => cases standing <;> rfl

end OpenScope.Holds

/--
The open scopes say the same as a context, and the function and the class around are the same.
-/
structure Walk.At (w : Walk) (c : Context) : Prop where
  scopes : List.Forall₂ OpenScope.Holds w.scopes c.scopes
  routine : w.routine = c.routine
  owner : w.owner = c.owner

namespace Walk.At

variable
  {w w' : Walk}
  {c : Context}

/-- A walk starts at the top level. -/
theorem start (tables : Tables) : (Walk.start tables).At .top := ⟨.nil, rfl, rfl⟩

/-- What changes no scope stays at a place. -/
theorem restores (h : w.At c) (hw : w.Restores w') : w'.At c :=
  ⟨hw.scopes ▸ h.scopes, hw.routine.trans h.routine, hw.owner.trans h.owner⟩

theorem report (h : w.At c) (errors : List ScopeError) : (w.report errors).At c :=
  h.restores (w.restores_report errors)

theorem setOwner (h : w.At c) (owner : Owner) :
    (w.setOwner owner).At { c with owner := owner } :=
  ⟨h.scopes, h.routine, rfl⟩

theorem enter
    {o : OpenScope}
    {scope : Scope}
    (h : w.At c)
    (ho : o.Holds scope) :
    (w.enter o).At { c with scopes := scope :: c.scopes } :=
  ⟨.cons ho h.scopes, h.routine, h.owner⟩

/-- The innermost scope changes as that of the context does. -/
theorem onInnermost
    {change : OpenScope → OpenScope}
    {name : String}
    {standing : Standing}
    (h : w.At c)
    (hchange : ∀ o scope, o.Holds scope → (change o).Holds (⟨name, standing⟩ :: scope)) :
    (w.onInnermost change).At { c with scopes := declareIn name standing c.scopes } := by
  obtain ⟨opened, _, _, _, _⟩ := w
  obtain ⟨scopes, _, _⟩ := c
  obtain ⟨hscopes, hroutine, howner⟩ := h
  cases hscopes with
  | nil => exact ⟨.nil, hroutine, howner⟩
  | cons ho houter => exact ⟨.cons (hchange _ _ ho) houter, hroutine, howner⟩

/-- The innermost scope changes again in what it says about the name declared last. -/
theorem onDeclared
    {change : OpenScope → OpenScope}
    {name : String}
    {standing standing' : Standing}
    (h : w.At { c with scopes := declareIn name standing c.scopes })
    (hchange : ∀ o scope, o.Holds (⟨name, standing⟩ :: scope) →
      (change o).Holds (⟨name, standing'⟩ :: scope)) :
    (w.onInnermost change).At { c with scopes := declareIn name standing' c.scopes } := by
  obtain ⟨opened, _, _, _, _⟩ := w
  obtain ⟨scopes, _, _⟩ := c
  obtain ⟨hscopes, hroutine, howner⟩ := h
  cases scopes with
  | nil =>
      cases hscopes
      exact ⟨.nil, hroutine, howner⟩
  | cons scope outer =>
      cases hscopes with
      | cons ho houter => exact ⟨.cons (hchange _ _ ho) houter, hroutine, howner⟩

theorem declare (h : w.At c) (name : Token) : (w.declare name).At (c.declare name) :=
  (h.report _).onInnermost fun _ _ ho => ho.declare

theorem define {name : Token} (h : w.At (c.declare name)) : (w.define name).At (c.define name) :=
  onDeclared h fun _ _ ho => ho.define

theorem markConstant {name : Token} (h : w.At (c.define name)) :
    (w.markConstant name).At (c.defineConstant name) :=
  onDeclared h fun _ _ ho => ho.markConstant

theorem declareAll (names : List Token) :
    ∀ {w : Walk} {c : Context}, w.At c → (w.declareAll names).At (c.defineAll names) := by
  induction names with
  | nil => exact fun h => h
  | cons name names ih => exact fun h => ih (h.declare name).define

/-- The innermost scope declares a name if that of the context does. -/
theorem innermost_declares (h : w.At c) (name : Token) :
    w.innermostIs (·.declares name.lexeme) = (c.innermost? name).isSome := by
  obtain ⟨opened, _, _, _, _⟩ := w
  obtain ⟨scopes, _, _⟩ := c
  cases h.scopes with
  | nil => rfl
  | cons ho _ => exact ho.declares _

/-- A name is pending in the innermost scope if it is in that of the context. -/
theorem innermost_isPending (h : w.At c) (name : Token) :
    w.innermostIs (·.isPending name.lexeme) = (c.innermost? name == some .pending) := by
  obtain ⟨opened, _, _, _, _⟩ := w
  obtain ⟨scopes, _, _⟩ := c
  cases h.scopes with
  | nil => rfl
  | cons ho _ => exact ho.isPending _

/-- A name is as far away as in the context, and a constant if it is one there. -/
theorem distance?_eq (h : w.At c) (name : String) :
    w.distance? name = (findScope? name c.scopes).map Prod.fst
      ∧ ∀ depth standing, findScope? name c.scopes = some (depth, standing) →
        (w.scopes[depth]?).any (·.constants.contains name) = (standing == .constant) := by
  obtain ⟨opened, _, _, _, _⟩ := w
  obtain ⟨scopes, _, _⟩ := c
  have hscopes := h.scopes
  clear h
  dsimp only [Walk.distance?] at hscopes ⊢
  induction hscopes with
  | nil => exact ⟨rfl, nofun⟩
  | @cons o scope _ outer ho _ ih =>
      have hdeclares := ho.declares name
      have hconstant := (ho name).2
      rw [findScope?, List.findIdx?_cons]
      cases hstanding : scope.standing? name with
      | some standing =>
          rw [hstanding] at hdeclares hconstant
          simp only [hdeclares, Option.isSome_some, ↓reduceIte, Option.map_some, true_and]
          rintro _ _ ⟨⟩
          simpa using hconstant
      | none =>
          rw [hstanding] at hdeclares
          simp only [hdeclares, Option.isSome_none, Bool.false_eq_true, ↓reduceIte, ih.1,
            Option.map_map]
          refine ⟨rfl, fun depth standing hfound => ?_⟩
          obtain ⟨⟨outerDepth, _⟩, houter, hsame⟩ := Option.map_eq_some_iff.mp hfound
          cases hsame
          exact ih.2 _ _ houter

end Walk.At

end Lox
