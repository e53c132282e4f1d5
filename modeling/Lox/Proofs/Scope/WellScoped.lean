import Lox.Proofs.Scope.Inheritance
import Lox.Proofs.Scope.Locals

/-!
# Well-scoped programs

The check of scopes keeps track of the names that each scope declares, of the function and of the
class around the code that it looks at.  What it accepts can be said without any of that, by rules
on the spots of a program: its nodes, each together with all that the node lies inside of.

Nothing is assumed about the program: the rules are those of every tree.  A superclass is a name, so
there is no spot in it.

**Main definitions.**
* `Spot`, `Contains`: the spots of a program.
* `WellScoped`: the rules.

**Result.**
* `scopeErrors_eq_nil_iff`: a program has no scope errors if and only if it is well scoped.
-/

namespace Lox

/-- What a piece of a program can lie inside of. -/
inductive Encloser
  | block
  | function
  | method (name : String)
  /-- A class, which may have a superclass. -/
  | classBody (isDerived : Bool)
  deriving DecidableEq, Repr

namespace Encloser

def isRoutine : Encloser → Bool
  | .function => true
  | .method _ => true
  | _ => false

/-- Whether a class has a superclass. -/
def isDerived? : Encloser → Option Bool
  | .classBody isDerived => some isDerived
  | _ => none

end Encloser

/-- The innermost function or method of all that a node lies inside of. -/
def innermostRoutine? (around : List Encloser) : Option Encloser :=
  around.find? Encloser.isRoutine

/-- Whether the innermost class of all that a node lies inside of has a superclass. -/
def innermostClass? (around : List Encloser) : Option Bool :=
  around.findSome? Encloser.isDerived?

/-- A node and all that it lies inside of, the innermost first; at the top level that is nothing. -/
structure Spot where
  around : List Encloser
  node : Node

/-- What the body of a function or method lies inside of. -/
def FunctionDecl.encloser (f : FunctionDecl) : Routine → Encloser
  | .function => .function
  | _ => .method f.name.lexeme

/-- The spots right below a statement. -/
def Stmt.spotsBelow (around : List Encloser) : Stmt → List Spot
  | .block body => [⟨.block :: around, .statements body⟩]
  | .funDecl f => [⟨around, .function .function f⟩]
  | .classDecl _ parent methods =>
      methods.map fun f => ⟨.classBody parent.isSome :: around, .function f.methodRoutine f⟩
  | .varDecl _ value => value.toList.map fun e => ⟨around, .expression e⟩
  | .constDecl _ value => value.toList.map fun e => ⟨around, .expression e⟩
  | .exprStmt e => [⟨around, .expression e⟩]
  | .ifStmt condition thenBranch elseBranch =>
      ⟨around, .expression condition⟩ :: ⟨around, .statement thenBranch⟩
        :: elseBranch.toList.map fun s => ⟨around, .statement s⟩
  | .printStmt e => [⟨around, .expression e⟩]
  | .returnStmt _ value => value.toList.map fun e => ⟨around, .expression e⟩
  | .whileStmt condition body => [⟨around, .expression condition⟩, ⟨around, .statement body⟩]

namespace Spot

/-- The spots right below a spot. -/
def below : Spot → List Spot
  | ⟨around, .expression e⟩ => e.parts.map fun part => ⟨around, .expression part⟩
  | ⟨around, .statement s⟩ => s.spotsBelow around
  | ⟨around, .statements ss⟩ => ss.map fun s => ⟨around, .statement s⟩
  | ⟨around, .function routine f⟩ => [⟨f.encloser routine :: around, .statements f.body⟩]

/-- A spot is the other or lies below it. -/
def Holds : Spot → Spot → Prop :=
  Relation.ReflTransGen fun p q => q ∈ p.below

end Spot

/-- A program contains a node that lies inside of the given. -/
def Contains (program : List Stmt) (around : List Encloser) (node : Node) : Prop :=
  Spot.Holds ⟨[], .statements program⟩ ⟨around, node⟩

/-- The name that an expression reads. -/
def Expr.reads? : Expr → Option Token
  | .read target => some target.name
  | .readConstant target => some target.name
  | _ => none

/-- The value of a declaration does not read the name that is declared. -/
def OwnNameUnread (name : Token) (value : Expr) : Prop :=
  ∀ e t, value.Within e → e.reads? = some t → t.lexeme ≠ name.lexeme

/-- The rules that programs have to follow. -/
structure WellScoped (program : List Stmt) : Prop where
  /-- No block declares a name twice. -/
  blockNames : ∀ around body, Contains program around (.statement (.block body)) →
    (body.flatMap Stmt.declares).Nodup
  /-- No function or method declares a name twice among its parameters and in its body. -/
  routineNames : ∀ around routine f, Contains program around (.function routine f) →
    (f.parameters.map Token.lexeme ++ f.body.flatMap Stmt.declares).Nodup
  returnsInside : ∀ around keyword value,
    Contains program around (.statement (.returnStmt keyword value)) → ∃ e ∈ around, e.isRoutine
  initializerReturns : ∀ around keyword value,
    Contains program around (.statement (.returnStmt keyword (some value))) →
    innermostRoutine? around ≠ some (.method initializerName)
  thisInside : ∀ around keyword link,
    Contains program around (.expression (.this keyword link)) → ∃ d, .classBody d ∈ around
  superInside : ∀ around keyword method link,
    Contains program around (.expression (.super keyword method link)) →
    innermostClass? around = some true
  /-- No class names itself as its superclass. -/
  otherSuperclass : ∀ around name parent methods inherited,
    Contains program around (.statement (.classDecl name (some parent) methods)) →
    parent.name? = some inherited → inherited.lexeme ≠ name.lexeme
  constantValues : ∀ around name value,
    Contains program around (.statement (.constDecl name value)) → value.isSome
  /-- Except at the top level, no declared name is read in the value of its own declaration. -/
  ownNames : ∀ around s name value, around ≠ [] → Contains program around (.statement s) →
    s.initialized = some (name, value) → OwnNameUnread name value

/-- The rules that concern the node of a spot. -/
def Spot.Proper : Spot → Prop
  | ⟨_, .statement (.block body)⟩ => (body.flatMap Stmt.declares).Nodup
  | ⟨_, .statement (.classDecl name parent _)⟩ =>
      ∀ e ∈ parent, ∀ inherited ∈ e.name?, inherited.lexeme ≠ name.lexeme
  | ⟨around, .statement (.varDecl name value)⟩ =>
      around ≠ [] → ∀ e ∈ value, OwnNameUnread name e
  | ⟨around, .statement (.constDecl name value)⟩ =>
      value.isSome ∧ (around ≠ [] → ∀ e ∈ value, OwnNameUnread name e)
  | ⟨around, .statement (.returnStmt _ value)⟩ =>
      (∃ e ∈ around, e.isRoutine)
        ∧ (value.isSome → innermostRoutine? around ≠ some (.method initializerName))
  | ⟨_, .function _ f⟩ => (f.parameters.map Token.lexeme ++ f.body.flatMap Stmt.declares).Nodup
  | ⟨around, .expression (.this _ _)⟩ => ∃ d, .classBody d ∈ around
  | ⟨around, .expression (.super _ _ _)⟩ => innermostClass? around = some true
  | _ => True

/-- All spots at and below a spot follow the rules. -/
def Spot.AllProper (p : Spot) : Prop :=
  ∀ q, p.Holds q → q.Proper

/-- A spot and all that is below it: itself first, then each spot below. -/
theorem Spot.allProper_iff {p : Spot} :
    p.AllProper ↔ p.Proper ∧ ∀ q ∈ p.below, q.AllProper := by
  constructor
  · exact fun h => ⟨h p .refl, fun q hq r hr => h r (hr.head hq)⟩
  · rintro ⟨hproper, hbelow⟩ q hq
    rcases Relation.ReflTransGen.cases_head hq with rfl | ⟨r, hr, hrq⟩
    · exact hproper
    · exact hbelow r hr q hrq

/-- Well-scoped programs are those of which every spot is proper. -/
theorem wellScoped_iff {program : List Stmt} :
    WellScoped program ↔ Spot.AllProper ⟨[], .statements program⟩ := by
  constructor
  · rintro h ⟨around, node⟩ hq
    unfold Spot.Proper
    split
    · next heq => cases heq; exact h.blockNames _ _ hq
    · next heq =>
        cases heq
        rintro e rfl inherited hinherited
        exact h.otherSuperclass _ _ _ _ _ hq hinherited
    · next heq =>
        cases heq
        rintro hne e rfl
        exact h.ownNames _ _ _ _ hne hq rfl
    · next heq =>
        cases heq
        refine ⟨h.constantValues _ _ _ hq, ?_⟩
        rintro hne e rfl
        exact h.ownNames _ _ _ _ hne hq rfl
    · next value heq =>
        cases heq
        refine ⟨h.returnsInside _ _ _ hq, fun hvalue => ?_⟩
        obtain ⟨e, rfl⟩ := Option.isSome_iff_exists.mp hvalue
        exact h.initializerReturns _ _ _ hq
    · next heq => cases heq; exact h.routineNames _ _ _ hq
    · next heq => cases heq; exact h.thisInside _ _ _ hq
    · next heq => cases heq; exact h.superInside _ _ _ _ hq
    · trivial
  · intro h
    refine ⟨fun _ _ hq => h _ hq, fun _ _ _ hq => h _ hq, fun _ _ _ hq => (h _ hq).1,
      fun _ _ _ hq => (h _ hq).2 rfl, fun _ _ _ hq => h _ hq, fun _ _ _ _ hq => h _ hq,
      fun _ _ _ _ _ hq hinherited => h _ hq _ rfl _ hinherited, fun _ _ _ hq => (h _ hq).1, ?_⟩
    intro around s name value hne hq hs
    cases s with
    | varDecl _ initializer =>
        cases initializer <;> cases hs
        exact h _ hq hne _ rfl
    | constDecl _ initializer =>
        cases initializer <;> cases hs
        exact (h _ hq).2 hne _ rfl
    | _ => cases hs

section Expressions

/-- The errors of an expression that are not those of its parts. -/
def Expr.ownErrors (c : Context) : Expr → List ScopeError
  | .read target => c.readErrors target.name
  | .readConstant target => c.readErrors target.name
  | .this keyword _ => c.thisErrors keyword
  | .super keyword _ _ => c.superErrors keyword
  | _ => []

/-- The errors of an expression are its own and those of its parts. -/
theorem Expr.errors_eq_nil_iff_parts
    {e : Expr}
    {c : Context} :
    e.errors c none = [] ↔ e.ownErrors c = [] ∧ ∀ part ∈ e.parts, part.errors c none = [] := by
  cases e <;>
    simp [errors, ownErrors, parts, Room.enter, Expr.errorsAll_eq_nil, and_comm]

theorem Expr.sizeOf_lt_of_mem_parts
    {e part : Expr}
    (h : part ∈ e.parts) :
    sizeOf part < sizeOf e := by
  cases e with
  | call callee closing arguments =>
      rcases List.mem_cons.mp h with rfl | h
      · simp
        omega
      · have := List.sizeOf_lt_of_mem h
        simp
        omega
  | literal | read | readConstant | this | super => simp [parts] at h
  | _ =>
      simp only [parts, List.mem_cons, List.not_mem_nil, or_false] at h
      rcases h with rfl | rfl <;> simp +arith

/-- What lies within an expression is the whole or lies within one of its parts. -/
theorem Expr.within_iff
    {whole e : Expr} :
    whole.Within e ↔ e = whole ∨ ∃ part ∈ whole.parts, part.Within e := by
  constructor
  · intro h
    induction h with
    | whole => exact .inl rfl
    | part h hpart ih =>
        rcases ih with rfl | ⟨part, hmem, h'⟩
        · exact .inr ⟨_, hpart, .whole⟩
        · exact .inr ⟨part, hmem, h'.part hpart⟩
  · rintro (rfl | ⟨part, hmem, h⟩)
    · exact .whole
    · induction h with
      | whole => exact .part .whole hmem
      | part _ hpart ih => exact ih.part hpart

/-- The errors of an expression are those of all that lies within it. -/
theorem Expr.errors_eq_nil_iff
    {c : Context}
    (e : Expr) :
    e.errors c none = [] ↔ ∀ part, e.Within part → part.ownErrors c = [] := by
  have hparts : ∀ part ∈ e.parts,
      (part.errors c none = [] ↔ ∀ p, part.Within p → p.ownErrors c = []) :=
    fun part _ => part.errors_eq_nil_iff
  rw [errors_eq_nil_iff_parts]
  constructor
  · rintro ⟨hown, h⟩ part hpart
    rcases within_iff.mp hpart with rfl | ⟨p, hp, hpart⟩
    · exact hown
    · exact (hparts p hp).mp (h p hp) part hpart
  · exact fun h => ⟨h e .whole, fun part hpart =>
      (hparts part hpart).mpr fun p hp => h p (within_iff.mpr (.inr ⟨part, hpart, hp⟩))⟩
termination_by sizeOf e
decreasing_by exact sizeOf_lt_of_mem_parts ‹_›

/-- The spots at and below an expression are the expressions within it. -/
theorem Spot.allProper_expression_iff
    {around : List Encloser}
    {e : Expr} :
    AllProper ⟨around, .expression e⟩ ↔
      ∀ part, e.Within part → Proper ⟨around, .expression part⟩ := by
  constructor
  · intro h part hpart
    suffices Spot.Holds ⟨around, .expression e⟩ ⟨around, .expression part⟩ from h _ this
    induction hpart with
    | whole => exact .refl
    | part _ hpart ih => exact ih.tail (List.mem_map_of_mem hpart)
  · intro h q hq
    suffices ∃ part, e.Within part ∧ q = ⟨around, .expression part⟩ by
      obtain ⟨part, hpart, rfl⟩ := this
      exact h part hpart
    induction hq with
    | refl => exact ⟨e, .whole, rfl⟩
    | tail _ hbelow ih =>
        obtain ⟨part, hpart, rfl⟩ := ih
        obtain ⟨p, hp, rfl⟩ := List.mem_map.mp hbelow
        exact ⟨p, hpart.part hp, rfl⟩

end Expressions

section Surroundings

/-- The kind of the innermost function. -/
def routineAt (around : List Encloser) : Routine :=
  match innermostRoutine? around with
  | none => .none
  | some (.method name) => if name == initializerName then .initializer else .method
  | some _ => .function

/-- The kind of the innermost class. -/
def ownerAt (around : List Encloser) : Owner :=
  match innermostClass? around with
  | none => .none
  | some false => .base
  | some true => .derived

/-- A context is what the check knows inside of the given. -/
structure Agrees (around : List Encloser) (c : Context) : Prop where
  scopes : c.scopes = [] ↔ around = []
  routine : c.routine = routineAt around
  owner : c.owner = ownerAt around
  settled : Scope.AllSettled c.scopes

variable {around : List Encloser} {c : Context}

/-- There is no owner outside all classes. -/
theorem ownerAt_eq_none : ownerAt around = .none ↔ ¬ ∃ d, Encloser.classBody d ∈ around := by
  have hnone : ownerAt around = .none ↔ innermostClass? around = none := by
    unfold ownerAt
    split <;> simp_all
  rw [hnone, innermostClass?, List.findSome?_eq_none_iff]
  constructor
  · rintro h ⟨d, hd⟩
    exact nomatch h _ hd
  · intro h e he
    cases e with
    | classBody d => exact absurd ⟨d, he⟩ h
    | _ => rfl

/-- The owner is derived exactly where the innermost class has a superclass. -/
theorem ownerAt_eq_derived : ownerAt around = .derived ↔ innermostClass? around = some true := by
  unfold ownerAt
  split <;> simp_all

/-- There is no routine outside all functions. -/
theorem routineAt_eq_none : routineAt around = .none ↔ ¬ ∃ e ∈ around, e.isRoutine := by
  have hnone : routineAt around = .none ↔ innermostRoutine? around = none := by
    unfold routineAt
    split
    · simp_all
    · split <;> simp_all
    · simp_all
  rw [hnone, innermostRoutine?, List.find?_eq_none]
  simp

/-- The routine is an initializer exactly where the innermost one is a method with that name. -/
theorem routineAt_eq_initializer :
    routineAt around = .initializer ↔
      innermostRoutine? around = some (.method initializerName) := by
  unfold routineAt
  split <;> simp_all

@[simp] theorem Context.routine_defineAll
    (names : List Token)
    (c : Context) :
    (c.defineAll names).routine = c.routine := by
  induction names generalizing c with
  | nil => rfl
  | cons name names ih => exact ih (c.define name)

@[simp] theorem Stmt.routine_contextAfter (s : Stmt) (c : Context) :
    (s.contextAfter c).routine = c.routine := by
  fun_induction Stmt.contextAfter s c <;> simp_all [Context.define, Context.defineConstant]

namespace Agrees

/-- Nothing encloses the top level, and its context says so. -/
theorem top : Agrees [] .top :=
  ⟨by simp [Context.top], rfl, rfl, by simp [Scope.AllSettled, Context.top]⟩

theorem define (h : Agrees around c) (name : Token) : Agrees around (c.define name) where
  scopes := by
    rw [← h.scopes, ← List.length_eq_zero_iff, ← List.length_eq_zero_iff, Context.define,
      Context.length_declareIn]
  routine := h.routine
  owner := h.owner
  settled := Scope.allSettled_declareIn (by simp) h.settled

/-- A statement may declare names for those after it; what encloses them stays. -/
theorem contextAfter (h : Agrees around c) (s : Stmt) : Agrees around (s.contextAfter c) where
  scopes := by
    rw [← h.scopes, ← List.length_eq_zero_iff, ← List.length_eq_zero_iff,
      Stmt.length_contextAfter]
  routine := by rw [s.routine_contextAfter, h.routine]
  owner := by rw [s.owner_contextAfter, h.owner]
  settled := s.allSettled_contextAfter h.settled

theorem inBlock (h : Agrees around c) : Agrees (.block :: around) c.inBlock where
  scopes := by simp [Context.inBlock]
  routine := h.routine
  owner := h.owner
  settled := Scope.allSettled_cons (by simp) h.settled

theorem inClass (h : Agrees around c) (isDerived : Bool) :
    Agrees (.classBody isDerived :: around) (c.inClass isDerived) where
  scopes := by cases isDerived <;> simp [Context.inClass]
  routine := by cases isDerived <;> exact h.routine
  owner := by cases isDerived <;> rfl
  settled := Context.allSettled_inClass isDerived h.settled

/-- The body of a function is enclosed by that function. -/
theorem inBody
    (h : Agrees around c)
    {routine : Routine}
    {f : FunctionDecl}
    (hroutine : routine = .function ∨ routine = f.methodRoutine) :
    Agrees (f.encloser routine :: around) (c.inBody routine f.parameters) where
  scopes := by
    rw [← List.length_eq_zero_iff, Context.inBody, Context.length_defineAll]
    simp [Context.atParameters]
  routine := by
    rw [Context.inBody, Context.routine_defineAll]
    rcases hroutine with rfl | rfl
    · rfl
    · rw [FunctionDecl.methodRoutine, FunctionDecl.isInitializer]
      cases hname : f.name.lexeme == initializerName <;>
        simp_all [Context.atParameters, routineAt, innermostRoutine?, FunctionDecl.encloser,
          Encloser.isRoutine, List.find?_cons]
  owner := by
    rw [Context.inBody, Context.owner_defineAll]
    rcases hroutine with rfl | rfl
    · exact h.owner
    · rw [FunctionDecl.methodRoutine]
      split <;> exact h.owner
  settled := Context.allSettled_defineAll _ (Scope.allSettled_cons (by simp) h.settled)

end Agrees

end Surroundings

section Names

/-- The names can be declared, one after the other; at the top level all can. -/
def Context.Admits (c : Context) (names : List String) : Prop :=
  c.scopes ≠ [] → names.Nodup ∧ ∀ n ∈ names, ¬ c.Knows n

namespace Context

variable {c c' : Context}

/-- Names are admitted if those in front are, and then the others where those in front are known. -/
theorem admits_append_iff
    {names more : List String}
    (hscopes : c'.scopes = [] ↔ c.scopes = [])
    (hknows : c.scopes ≠ [] → ∀ n, c'.Knows n ↔ n ∈ names ∨ c.Knows n) :
    c.Admits (names ++ more) ↔ c.Admits names ∧ c'.Admits more := by
  by_cases hc : c.scopes = []
  · simp [Admits, hc, hscopes.mpr hc]
  · have hc' : c'.scopes ≠ [] := fun h => hc (hscopes.mp h)
    simp only [Admits, ne_eq, hc, hc', not_false_eq_true, true_imp_iff, List.nodup_append,
      hknows hc, List.mem_append]
    grind

/-- A declaration is accepted if the scope admits its name. -/
theorem declarationErrors_eq_nil_iff {name : Token} :
    c.declarationErrors name = [] ↔ c.Admits [name.lexeme] := by
  rw [declarationErrors_eq_nil, Admits]
  cases hscopes : c.scopes with
  | nil => simp [innermost?, hscopes]
  | cons scope outer => simp [innermost?, Knows, hscopes]

/-- Names are admitted together if they are admitted one after the other. -/
theorem admits_define_iff {name : Token} {names : List String} :
    c.Admits (name.lexeme :: names) ↔ c.Admits [name.lexeme] ∧ (c.define name).Admits names := by
  change c.Admits ([name.lexeme] ++ names) ↔ _
  refine admits_append_iff ?_ fun hc n => ?_
  · rw [← List.length_eq_zero_iff, ← List.length_eq_zero_iff, define, length_declareIn]
  · rw [define, knows_declareIn hc, List.mem_singleton, eq_comm]

/-- Parameters and the names of the body are admitted together if first the parameters are. -/
theorem admits_defineAll_iff {parameters : List Token} {names : List String} :
    c.Admits (parameters.map Token.lexeme ++ names) ↔
      parameterErrors parameters c = [] ∧ (c.defineAll parameters).Admits names := by
  induction parameters generalizing c with
  | nil => simp [parameterErrors, defineAll]
  | cons name parameters ih =>
      rw [List.map_cons, List.cons_append, admits_define_iff, ih, parameterErrors,
        List.append_eq_nil_iff, declarationErrors_eq_nil_iff, and_assoc]
      rfl

/-- A new scope admits all names, each once. -/
theorem admits_iff_nodup
    {scopes : List Scope}
    (hscopes : c.scopes = [] :: scopes)
    {names : List String} :
    c.Admits names ↔ names.Nodup := by
  simp [Admits, Knows, hscopes, Scope.standing?]

end Context

/-- What a statement declares is admitted first, then what the rest declares after it. -/
theorem Stmt.admits_append_iff
    {s : Stmt}
    {c : Context}
    {names : List String} :
    c.Admits (s.declares ++ names) ↔ c.Admits s.declares ∧ (s.contextAfter c).Admits names := by
  refine Context.admits_append_iff ?_ fun hc n => s.knows_contextAfter c hc
  rw [← List.length_eq_zero_iff, ← List.length_eq_zero_iff, s.length_contextAfter]

end Names

section Values

variable {around : List Encloser} {c : Context} {name : Token}

/-- Where all declarations are settled, no name is still in its own initializer. -/
theorem Scope.AllSettled.innermost?_ne_pending
    (h : Scope.AllSettled c.scopes) :
    c.innermost? name ≠ some .pending := by
  rw [Context.innermost?]
  cases hscopes : c.scopes with
  | nil => simp
  | cons scope outer =>
      intro hpending
      obtain ⟨declared, hdeclared, hstanding⟩ := Option.map_eq_some_iff.mp hpending
      exact h scope (by simp [hscopes]) declared (List.mem_of_find?_eq_some hdeclared) hstanding

/-- While the value of a name is read, that name is pending and no other. -/
theorem Agrees.innermost?_declare_eq_pending
    (h : Agrees around c)
    {t : Token} :
    (c.declare name).innermost? t = some .pending ↔ around ≠ [] ∧ t.lexeme = name.lexeme := by
  have hsettled : c.innermost? t ≠ some .pending := h.settled.innermost?_ne_pending
  rw [Context.innermost?] at hsettled
  rw [ne_eq, ← h.scopes, Context.innermost?, Context.declare]
  cases hscopes : c.scopes with
  | nil => simp [declareIn]
  | cons scope outer =>
      rw [hscopes] at hsettled
      simp only [declareIn, List.head?_cons, Option.bind_some, Scope.standing?, List.find?_cons]
      by_cases hname : name.lexeme = t.lexeme
      · simp [hname]
      · simpa [hname, Ne.symm hname, beq_eq_false_iff_ne.mpr hname, Scope.standing?]
          using hsettled

/--
An expression has no error of its own if it stands at a proper place and does not read a name in its
own initializer.
-/
theorem Expr.ownErrors_eq_nil_iff
    (howner : c.owner = ownerAt around)
    {e : Expr} :
    e.ownErrors c = [] ↔
      Spot.Proper ⟨around, .expression e⟩
        ∧ ∀ t, e.reads? = some t → c.innermost? t ≠ some .pending := by
  cases e with
  | read target | readConstant target =>
      simp [ownErrors, Context.readErrors, errorIf_eq_nil, Spot.Proper, reads?]
  | this keyword link =>
      rw [ownErrors, Context.thisErrors, errorIf_eq_nil, beq_eq_false_iff_ne, howner, ne_eq,
        ownerAt_eq_none, not_not]
      simp only [Spot.Proper, reads?, reduceCtorEq, false_imp_iff, implies_true, and_true]
  | super keyword method link =>
      simp only [ownErrors, Context.superErrors, errorIf_eq_nil, Spot.Proper, reads?, howner,
        ← ownerAt_eq_derived, List.append_eq_nil_iff]
      cases ownerAt around <;> simp
  | _ => simp [ownErrors, Spot.Proper, reads?]

theorem Expr.errors_eq_nil_iff_allProper
    (howner : c.owner = ownerAt around)
    {e : Expr} :
    e.errors c none = [] ↔
      Spot.AllProper ⟨around, .expression e⟩
        ∧ ∀ part t, e.Within part → part.reads? = some t → c.innermost? t ≠ some .pending := by
  simp only [e.errors_eq_nil_iff, ownErrors_eq_nil_iff howner, Spot.allProper_expression_iff]
  grind

/-- Where no name is pending, the rules of an expression are all that matters. -/
theorem Agrees.errors_eq_nil_iff
    (h : Agrees around c)
    {e : Expr} :
    e.errors c none = [] ↔ Spot.AllProper ⟨around, .expression e⟩ := by
  rw [Expr.errors_eq_nil_iff_allProper h.owner, and_iff_left]
  exact fun _ _ _ _ => h.settled.innermost?_ne_pending

theorem Agrees.errors_declare_eq_nil_iff
    (h : Agrees around c)
    {e : Expr} :
    e.errors (c.declare name) none = [] ↔
      Spot.AllProper ⟨around, .expression e⟩ ∧ (around ≠ [] → OwnNameUnread name e) := by
  rw [Expr.errors_eq_nil_iff_allProper (c := c.declare name) h.owner]
  simp only [ne_eq, h.innermost?_declare_eq_pending, OwnNameUnread]
  grind

/-- Nothing is wrong in the expression for a superclass. -/
theorem Agrees.errors_atSuperclass
    (h : Agrees around c)
    (e : Expr) :
    e.errors (c.atSuperclass name) none = [] := by
  rw [e.errors_eq_nil_iff]
  intro part _
  have hpending : ∀ t, (c.atSuperclass name).innermost? t ≠ some .pending :=
    fun t => Scope.AllSettled.innermost?_ne_pending
      (Scope.allSettled_declareIn (by simp) h.settled)
  cases part <;>
    simp_all [Expr.ownErrors, Context.readErrors, Context.thisErrors, Context.superErrors,
      errorIf_eq_nil, Context.atSuperclass]

/-- A superclass is accepted unless it has the name of the class itself. -/
theorem inheritanceErrors_eq_nil_iff {parent : Expr} :
    inheritanceErrors name parent = [] ↔
      ∀ inherited ∈ parent.name?, inherited.lexeme ≠ name.lexeme := by
  rw [inheritanceErrors]
  split <;> simp_all [errorIf_eq_nil]

end Values

section Programs

@[simp] theorem Room.enter_none (below : Room → List ScopeError) :
    Room.enter none below = below none := rfl

@[simp] theorem Context.admits_nil (c : Context) : c.Admits [] := by
  simp [Admits]

theorem Spot.allProper_statements_iff
    {around : List Encloser}
    {ss : List Stmt} :
    AllProper ⟨around, .statements ss⟩ ↔ ∀ s ∈ ss, AllProper ⟨around, .statement s⟩ := by
  rw [allProper_iff]
  simp [Proper, below]

theorem Spot.allProper_statement_iff
    {around : List Encloser}
    (s : Stmt) :
    AllProper ⟨around, .statement s⟩ ↔
      Proper ⟨around, .statement s⟩ ∧ ∀ q ∈ s.spotsBelow around, q.AllProper :=
  allProper_iff

/-- The errors of a value that may be absent, while its name is declared. -/
theorem Agrees.optionErrors_declare_eq_nil_iff
    {around : List Encloser}
    {c : Context}
    (h : Agrees around c)
    {name : Token}
    {value : Option Expr} :
    optionErrors (c.declare name) value none = [] ↔
      (∀ e ∈ value, Spot.AllProper ⟨around, .expression e⟩)
        ∧ (around ≠ [] → ∀ e ∈ value, OwnNameUnread name e) := by
  cases value with
  | none => simp [optionErrors]
  | some e => simpa [optionErrors] using h.errors_declare_eq_nil_iff

/--
A `return` is accepted inside routines, and with a value inside those that are no initializer.
-/
theorem Agrees.returnErrors_eq_nil_iff
    {around : List Encloser}
    {c : Context}
    (h : Agrees around c)
    {keyword : Token}
    {hasValue : Bool} :
    c.returnErrors keyword hasValue = [] ↔
      (∃ e ∈ around, e.isRoutine)
        ∧ (hasValue → innermostRoutine? around ≠ some (.method initializerName)) := by
  rw [Context.returnErrors, List.append_eq_nil_iff, errorIf_eq_nil, errorIf_eq_nil, h.routine,
    beq_eq_false_iff_ne, ne_eq, routineAt_eq_none, not_not, Bool.and_eq_false_imp]
  simp only [beq_eq_false_iff_ne, ne_eq, routineAt_eq_initializer]

mutual

/-- A statement has no errors if the rules hold in it and the scope admits what it declares. -/
theorem Stmt.errors_eq_nil_iff :
    ∀ (s : Stmt) {around : List Encloser} {c : Context}, Agrees around c →
      (s.errors c none = [] ↔ Spot.AllProper ⟨around, .statement s⟩ ∧ c.Admits s.declares)
  | .block body, around, c, h => by
      rw [Stmt.errors, Room.enter_none, Stmt.errorsAll_eq_nil_iff body h.inBlock,
        Context.admits_iff_nodup rfl, Spot.allProper_statement_iff]
      simp [Spot.Proper, Stmt.spotsBelow, Stmt.declares, Spot.allProper_statements_iff, and_comm]
  | .funDecl f, around, c, h => by
      rw [Stmt.errors, Room.enter_none, List.append_eq_nil_iff,
        f.errors_eq_nil_iff (h.define f.name) (.inl rfl), Context.declarationErrors_eq_nil_iff,
        Spot.allProper_statement_iff]
      simp [Spot.Proper, Stmt.spotsBelow, Stmt.declares, and_comm]
  | .classDecl name parent methods, around, c, h => by
      have hparent : superclassErrors c name parent none = [] ↔
          Spot.Proper ⟨around, .statement (.classDecl name parent methods)⟩ := by
        cases parent <;>
          simp [superclassErrors, Spot.Proper, h.errors_atSuperclass, inheritanceErrors_eq_nil_iff]
      rw [Stmt.errors, Room.enter_none, List.append_eq_nil_iff, List.append_eq_nil_iff, hparent,
        FunctionDecl.errorsOfMethods_eq_nil_iff methods ((h.define name).inClass parent.isSome),
        Context.declarationErrors_eq_nil_iff, Spot.allProper_statement_iff]
      simp only [Stmt.spotsBelow, Stmt.declares, List.forall_mem_map]
      tauto
  | .varDecl name value, around, c, h => by
      rw [Stmt.errors, Room.enter_none, List.append_eq_nil_iff, h.optionErrors_declare_eq_nil_iff,
        Context.declarationErrors_eq_nil_iff, Spot.allProper_statement_iff]
      simp only [Spot.Proper, Stmt.spotsBelow, Stmt.declares, List.forall_mem_map,
        Option.mem_toList]
      tauto
  | .constDecl name none, around, c, h => by
      rw [Spot.allProper_statement_iff]
      simp [Stmt.errors, Spot.Proper]
  | .constDecl name (some value), around, c, h => by
      rw [Stmt.errors, Room.enter_none, List.append_eq_nil_iff, h.errors_declare_eq_nil_iff,
        Context.declarationErrors_eq_nil_iff, Spot.allProper_statement_iff]
      simp only [Spot.Proper, Stmt.spotsBelow, Stmt.declares, List.forall_mem_map,
        Option.mem_toList, Option.mem_def, Option.some.injEq, forall_eq', Option.isSome_some]
      tauto
  | .exprStmt e, around, c, h => by
      rw [Stmt.errors, Room.enter_none, h.errors_eq_nil_iff, Spot.allProper_statement_iff]
      simp [Spot.Proper, Stmt.spotsBelow, Stmt.declares]
  | .ifStmt condition thenBranch none, around, c, h => by
      rw [Stmt.errors, Room.enter_none, List.append_eq_nil_iff, h.errors_eq_nil_iff,
        thenBranch.errors_eq_nil_iff h, Spot.allProper_statement_iff (.ifStmt _ _ _)]
      simp [Spot.Proper, Stmt.spotsBelow, Stmt.declares, and_assoc]
  | .ifStmt condition thenBranch (some elseBranch), around, c, h => by
      rw [Stmt.errors, Room.enter_none, List.append_eq_nil_iff, List.append_eq_nil_iff,
        h.errors_eq_nil_iff, thenBranch.errors_eq_nil_iff h,
        elseBranch.errors_eq_nil_iff (h.contextAfter thenBranch),
        Spot.allProper_statement_iff (.ifStmt _ _ _), Stmt.declares,
        Stmt.admits_append_iff]
      simp only [Spot.Proper, Stmt.spotsBelow, List.forall_mem_cons, Option.toList_some,
        List.map_cons, List.map_nil, List.not_mem_nil, false_imp_iff, implies_true, and_true,
        true_and]
      tauto
  | .printStmt e, around, c, h => by
      rw [Stmt.errors, Room.enter_none, h.errors_eq_nil_iff, Spot.allProper_statement_iff]
      simp [Spot.Proper, Stmt.spotsBelow, Stmt.declares]
  | .returnStmt keyword value, around, c, h => by
      have hvalue : optionErrors c value none = [] ↔
          ∀ e ∈ value, Spot.AllProper ⟨around, .expression e⟩ := by
        cases value <;> simp [optionErrors, h.errors_eq_nil_iff]
      rw [Stmt.errors, Room.enter_none, List.append_eq_nil_iff, h.returnErrors_eq_nil_iff, hvalue,
        Spot.allProper_statement_iff]
      simp [Spot.Proper, Stmt.spotsBelow, Stmt.declares]
  | .whileStmt condition body, around, c, h => by
      rw [Stmt.errors, Room.enter_none, List.append_eq_nil_iff, h.errors_eq_nil_iff,
        body.errors_eq_nil_iff h, Spot.allProper_statement_iff (.whileStmt _ _)]
      simp [Spot.Proper, Stmt.spotsBelow, Stmt.declares, and_assoc]

theorem Stmt.errorsAll_eq_nil_iff :
    ∀ (ss : List Stmt) {around : List Encloser} {c : Context}, Agrees around c →
      (Stmt.errorsAll ss c none = [] ↔
        (∀ s ∈ ss, Spot.AllProper ⟨around, .statement s⟩) ∧ c.Admits (ss.flatMap Stmt.declares))
  | [], _, _, _ => by simp [Stmt.errorsAll]
  | s :: ss, around, c, h => by
      rw [Stmt.errorsAll, List.append_eq_nil_iff, s.errors_eq_nil_iff h,
        Stmt.errorsAll_eq_nil_iff ss (h.contextAfter s), List.flatMap_cons, Stmt.admits_append_iff,
        List.forall_mem_cons]
      tauto

theorem FunctionDecl.errors_eq_nil_iff :
    ∀ (f : FunctionDecl) {routine : Routine} {around : List Encloser} {c : Context},
      Agrees around c → routine = .function ∨ routine = f.methodRoutine →
      (f.errors routine c none = [] ↔ Spot.AllProper ⟨around, .function routine f⟩)
  | ⟨name, parameters, body⟩, routine, around, c, h, hroutine => by
      rw [FunctionDecl.errors, Room.enter_none, List.append_eq_nil_iff,
        Stmt.errorsAll_eq_nil_iff body (h.inBody hroutine), and_left_comm, Context.inBody,
        ← Context.admits_defineAll_iff, Context.admits_iff_nodup rfl, Spot.allProper_iff]
      simp [Spot.Proper, Spot.below, Spot.allProper_statements_iff, and_comm]

theorem FunctionDecl.errorsOfMethods_eq_nil_iff :
    ∀ (fs : List FunctionDecl) {around : List Encloser} {c : Context}, Agrees around c →
      (FunctionDecl.errorsOfMethods fs c none = [] ↔
        ∀ f ∈ fs, Spot.AllProper ⟨around, .function f.methodRoutine f⟩)
  | [], _, _, _ => by simp [FunctionDecl.errorsOfMethods]
  | f :: fs, around, c, h => by
      rw [FunctionDecl.errorsOfMethods, List.append_eq_nil_iff,
        f.errors_eq_nil_iff h (.inr rfl), FunctionDecl.errorsOfMethods_eq_nil_iff fs h,
        List.forall_mem_cons]

end

/-- The check accepts exactly the well-scoped programs. -/
theorem scopeErrors_eq_nil_iff (program : List Stmt) :
    scopeErrors program = [] ↔ WellScoped program := by
  rw [wellScoped_iff, Spot.allProper_statements_iff, scopeErrors,
    Stmt.errorsAll_eq_nil_iff program .top, and_iff_left]
  simp [Context.Admits, Context.top]

end Programs

end Lox
