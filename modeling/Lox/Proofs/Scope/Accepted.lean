import Lox.Proofs.Scope.Wording

/-!
# Nodes of accepted programs

A program is accepted if it has the shape of parsed trees and no scope errors.  Both are inherited
by every node that resolution comes to, at the context in which it comes to the node.

**Results.**
* `Reaches.accepted`: the inheritance.
* `Reaches.settled`: a name stands as pending in the innermost scope only, and only while the value
  that initializes it is resolved.
-/

namespace Lox

/-- A node has no scope errors in a context, given enough room. -/
def Node.Clean (c : Context) : Node → Prop
  | .expression e => ∃ room, e.errors c room = []
  | .statement s => ∃ room, s.errors c room = []
  | .statements ss => ∃ room, Stmt.errorsAll ss c room = []
  | .function routine f => ∃ room, f.errors routine c room = []

/-- A node has the shape of parsed trees. -/
def Node.AsParsed : Node → Prop
  | .expression e => e.AsParsed
  | .statement s => s.AsParsed
  | .statements ss => Stmt.AsParsedAll ss
  | .function _ f => f.AsParsed

/-- A program has the shape and the words of parsed trees and no scope errors. -/
structure Accepted (program : List Stmt) : Prop where
  clean : (Node.statements program).Clean .top
  asParsed : Stmt.AsParsedAll program
  worded : (Node.statements program).Every Node.Worded

/-- A node that is entered without errors has none. -/
theorem Room.enter_eq_nil
    {room : Room}
    {below : Room → List ScopeError}
    (h : room.enter below = []) :
    ∃ room', below room' = [] := by
  match room with
  | none => exact ⟨none, h⟩
  | some 0 => cases h
  | some (n + 1) => exact ⟨some n, h⟩

/-- Errors are only cut off behind another error. -/
theorem upToNesting_eq_nil {errors : List ScopeError} :
    upToNesting errors = [] ↔ errors = [] := by
  cases errors with
  | nil => simp [upToNesting]
  | cons e es =>
      simp only [upToNesting]
      split <;> simp

theorem errorIf_eq_nil
    {condition : Bool}
    {fault : ScopeFault}
    {found : Token} :
    errorIf condition fault found = [] ↔ condition = false := by
  cases condition <;> simp [errorIf]

/-- The names in a list of scope errors that is empty are no longer declared. -/
theorem Context.declarationErrors_eq_nil
    {c : Context}
    {name : Token} :
    c.declarationErrors name = [] ↔ c.innermost? name = none := by
  rw [declarationErrors, errorIf_eq_nil]
  cases c.innermost? name <;> simp

theorem Expr.errorsAll_eq_nil
    {c : Context}
    {es : List Expr}
    {room : Room} :
    Expr.errorsAll c es room = [] ↔ ∀ e ∈ es, e.errors c room = [] := by
  induction es with
  | nil => simp [Expr.errorsAll]
  | cons e es ih => simp [Expr.errorsAll, ih]

theorem FunctionDecl.errorsOfMethods_eq_nil
    {fs : List FunctionDecl}
    {c : Context}
    {room : Room} :
    FunctionDecl.errorsOfMethods fs c room = [] ↔
      ∀ f ∈ fs, f.errors f.methodRoutine c room = [] := by
  induction fs with
  | nil => simp [FunctionDecl.errorsOfMethods]
  | cons f fs ih => simp [FunctionDecl.errorsOfMethods, ih]

/-- An expression without errors has parts without errors. -/
theorem Expr.clean_part
    {e part : Expr}
    {c : Context}
    {room : Room}
    (h : e.errors c room = [])
    (hpart : part ∈ e.parts) :
    ∃ room', part.errors c room' = [] := by
  cases e with
  | call callee closing arguments =>
      obtain ⟨room', h'⟩ := Room.enter_eq_nil h
      simp only [List.append_eq_nil_iff, Expr.errorsAll_eq_nil] at h'
      refine ⟨room', ?_⟩
      rcases List.mem_cons.mp hpart with rfl | hpart
      · exact h'.1
      · exact h'.2 part hpart
  | grouping inner =>
      obtain ⟨room', h'⟩ := Room.enter_eq_nil h
      exact ⟨room', by simp_all [Expr.parts]⟩
  | unary operator operand =>
      obtain ⟨room', h'⟩ := Room.enter_eq_nil h
      exact ⟨room', by simp_all [Expr.parts]⟩
  | binary left operator right =>
      obtain ⟨room', h'⟩ := Room.enter_eq_nil h
      refine ⟨room', ?_⟩
      simp only [Expr.parts, List.mem_cons, List.not_mem_nil, or_false] at hpart
      rcases hpart with rfl | rfl <;> simp_all
  | logical left operator right =>
      obtain ⟨room', h'⟩ := Room.enter_eq_nil h
      refine ⟨room', ?_⟩
      simp only [Expr.parts, List.mem_cons, List.not_mem_nil, or_false] at hpart
      rcases hpart with rfl | rfl <;> simp_all
  | assign target value =>
      obtain ⟨room', h'⟩ := Room.enter_eq_nil h
      exact ⟨room', by simp_all [Expr.parts]⟩
  | get object name =>
      obtain ⟨room', h'⟩ := Room.enter_eq_nil h
      exact ⟨room', by simp_all [Expr.parts]⟩
  | set object name value =>
      obtain ⟨room', h'⟩ := Room.enter_eq_nil h
      refine ⟨room', ?_⟩
      simp only [Expr.parts, List.mem_cons, List.not_mem_nil, or_false] at hpart
      rcases hpart with rfl | rfl <;> simp_all
  | _ => simp [Expr.parts] at hpart

/-- The parts of an expression with open links have open links. -/
theorem Expr.asParsed_part
    {e part : Expr}
    (h : e.AsParsed)
    (hpart : part ∈ e.parts) :
    part.AsParsed := by
  intro r hr
  apply h r
  cases e with
  | call callee closing arguments =>
      rcases List.mem_cons.mp hpart with rfl | hpart
      · exact List.mem_append.mpr (.inl hr)
      · exact List.mem_append.mpr (.inr (Expr.mem_referencesAll.mpr ⟨part, hpart, hr⟩))
  | literal _ => simp [Expr.parts] at hpart
  | read _ => simp [Expr.parts] at hpart
  | readConstant _ => simp [Expr.parts] at hpart
  | this _ _ => simp [Expr.parts] at hpart
  | super _ _ _ => simp [Expr.parts] at hpart
  | _ =>
      simp only [Expr.parts, List.mem_cons, List.not_mem_nil, or_false] at hpart
      simp only [Expr.references, List.mem_append]
      grind

/-- A statement without errors has parts without errors. -/
theorem Stmt.clean_part
    {s : Stmt}
    {e : Expr}
    {c : Context}
    {room : Room}
    (h : s.errors c room = [])
    (he : e ∈ s.parts) :
    ∃ room', e.errors c room' = [] := by
  cases s with
  | exprStmt expression =>
      obtain ⟨room', h'⟩ := Room.enter_eq_nil h
      exact ⟨room', by simp_all [Stmt.parts]⟩
  | printStmt expression =>
      obtain ⟨room', h'⟩ := Room.enter_eq_nil h
      exact ⟨room', by simp_all [Stmt.parts]⟩
  | returnStmt keyword value =>
      cases value with
      | none => simp [Stmt.parts] at he
      | some value =>
          simp only [Stmt.errors, List.append_eq_nil_iff] at h
          obtain ⟨room', h'⟩ := Room.enter_eq_nil h.2
          exact ⟨room', by simp_all [Stmt.parts, optionErrors]⟩
  | whileStmt condition body =>
      obtain ⟨room', h'⟩ := Room.enter_eq_nil h
      exact ⟨room', by simp_all [Stmt.parts]⟩
  | ifStmt condition thenBranch elseBranch =>
      cases elseBranch with
      | none =>
          obtain ⟨room', h'⟩ := Room.enter_eq_nil h
          exact ⟨room', by simp_all [Stmt.parts]⟩
      | some elseBranch =>
          obtain ⟨room', h'⟩ := Room.enter_eq_nil h
          exact ⟨room', by simp_all [Stmt.parts]⟩
  | _ => simp [Stmt.parts] at he

/-- A parsed statement has parts with open links. -/
theorem Stmt.asParsed_part
    {s : Stmt}
    {e : Expr}
    (h : s.AsParsed)
    (he : e ∈ s.parts) :
    e.AsParsed := by
  cases s with
  | returnStmt keyword value =>
      cases value with
      | none => simp [Stmt.parts] at he
      | some value => simp_all [Stmt.parts, Stmt.AsParsed, optionAsParsed]
  | ifStmt condition thenBranch elseBranch =>
      cases elseBranch <;> simp_all [Stmt.parts, Stmt.AsParsed]
  | _ => simp_all [Stmt.parts, Stmt.AsParsed]

/-- The statement that initializes a name is parsed and without errors, and so is the value. -/
theorem Stmt.initialized_accepted
    {s : Stmt}
    {name : Token}
    {e : Expr}
    {c : Context}
    {room : Room}
    (hs : s.initialized = some (name, e))
    (hclean : s.errors c room = [])
    (hparsed : s.AsParsed) :
    (∃ room', e.errors (c.declare name) room' = []) ∧ e.AsParsed ∧ name.IsName := by
  cases s with
  | varDecl n initializer =>
      cases initializer with
      | none => cases hs
      | some value =>
          cases hs
          simp only [Stmt.errors, List.append_eq_nil_iff] at hclean
          exact ⟨Room.enter_eq_nil hclean.2, hparsed.2 _ rfl, hparsed.1⟩
  | constDecl n initializer =>
      cases initializer with
      | none => cases hs
      | some value =>
          cases hs
          simp only [Stmt.errors, List.append_eq_nil_iff] at hclean
          exact ⟨Room.enter_eq_nil hclean.2, hparsed.2 _ rfl, hparsed.1⟩
  | _ => cases hs

/-- Below an accepted program every node has no errors and the shape of parsed trees. -/
theorem Reaches.accepted
    {program : List Stmt}
    (hprogram : Accepted program)
    {p : Site}
    {node : Node}
    (h : Reaches program p node) :
    node.Clean p.context ∧ node.AsParsed := by
  induction h with
  | program => exact ⟨hprogram.clean, hprogram.asParsed⟩
  | first _ ih =>
      obtain ⟨⟨room, hclean⟩, hparsed⟩ := ih
      simp only [Stmt.errorsAll, List.append_eq_nil_iff] at hclean
      exact ⟨⟨room, hclean.1⟩, hparsed.1⟩
  | rest _ ih =>
      obtain ⟨⟨room, hclean⟩, hparsed⟩ := ih
      simp only [Stmt.errorsAll, List.append_eq_nil_iff] at hclean
      exact ⟨⟨room, hclean.2⟩, hparsed.2⟩
  | block _ ih =>
      obtain ⟨⟨room, hclean⟩, hparsed⟩ := ih
      exact ⟨Room.enter_eq_nil hclean, hparsed⟩
  | function _ ih =>
      obtain ⟨⟨room, hclean⟩, hparsed⟩ := ih
      simp only [Stmt.errors, List.append_eq_nil_iff] at hclean
      exact ⟨Room.enter_eq_nil hclean.2, hparsed⟩
  | @body p routine f _ ih =>
      obtain ⟨⟨room, hclean⟩, hparsed⟩ := ih
      cases f with
      | mk name parameters body =>
          simp only [FunctionDecl.errors, List.append_eq_nil_iff] at hclean
          exact ⟨Room.enter_eq_nil hclean.2, hparsed⟩
  | superclass _ ih =>
      obtain ⟨⟨room, hclean⟩, hparsed⟩ := ih
      simp only [Stmt.errors, superclassErrors, List.append_eq_nil_iff] at hclean
      obtain ⟨name, rfl⟩ := hparsed.1 _ rfl
      refine ⟨Room.enter_eq_nil hclean.1.2.2, ?_⟩
      simp [Node.AsParsed, Expr.AsParsed, Expr.references, LinkRecord.AsParsed]
  | method _ hf ih =>
      obtain ⟨⟨room, hclean⟩, hparsed⟩ := ih
      simp only [Stmt.errors, List.append_eq_nil_iff] at hclean
      obtain ⟨room', hmethods⟩ := Room.enter_eq_nil hclean.2
      exact ⟨⟨room', FunctionDecl.errorsOfMethods_eq_nil.mp hmethods _ hf⟩,
        FunctionDecl.asParsedAll_iff.mp hparsed.2 _ hf⟩
  | initializer _ hs ih =>
      obtain ⟨⟨room, hclean⟩, hparsed⟩ := ih
      obtain ⟨hclean', hparsed', _⟩ := Stmt.initialized_accepted hs hclean hparsed
      exact ⟨hclean', hparsed'⟩
  | own _ he ih =>
      obtain ⟨⟨room, hclean⟩, hparsed⟩ := ih
      exact ⟨Stmt.clean_part hclean he, Stmt.asParsed_part hparsed he⟩
  | @thenBranch _ _ _ other _ ih =>
      obtain ⟨⟨room, hclean⟩, hparsed⟩ := ih
      cases other with
      | none =>
          obtain ⟨room', h'⟩ := Room.enter_eq_nil hclean
          exact ⟨⟨room', (List.append_eq_nil_iff.mp h').2⟩, hparsed.2.2⟩
      | some other =>
          obtain ⟨room', h'⟩ := Room.enter_eq_nil hclean
          simp only [List.append_eq_nil_iff] at h'
          exact ⟨⟨room', h'.1.2⟩, hparsed.2.1.2⟩
  | elseBranch _ ih =>
      obtain ⟨⟨room, hclean⟩, hparsed⟩ := ih
      obtain ⟨room', h'⟩ := Room.enter_eq_nil hclean
      exact ⟨⟨room', (List.append_eq_nil_iff.mp h').2⟩, hparsed.2.2.2⟩
  | loopBody _ ih =>
      obtain ⟨⟨room, hclean⟩, hparsed⟩ := ih
      obtain ⟨room', h'⟩ := Room.enter_eq_nil hclean
      exact ⟨⟨room', (List.append_eq_nil_iff.mp h').2⟩, hparsed.2.2⟩
  | part _ hpart ih =>
      obtain ⟨⟨room, hclean⟩, hparsed⟩ := ih
      exact ⟨Expr.clean_part hclean hpart, Expr.asParsed_part hparsed hpart⟩

/-- No scope holds a name as pending. -/
def Scope.AllSettled (scopes : List Scope) : Prop :=
  ∀ scope ∈ scopes, ∀ declared ∈ scope, declared.standing ≠ .pending

theorem Scope.allSettled_declareIn
    {name : String}
    {standing : Standing}
    {scopes : List Scope}
    (hstanding : standing ≠ .pending)
    (h : Scope.AllSettled scopes) :
    Scope.AllSettled (declareIn name standing scopes) := by
  cases scopes with
  | nil => exact h
  | cons scope outer =>
      intro s hs declared hdeclared
      rcases List.mem_cons.mp hs with rfl | hs
      · rcases List.mem_cons.mp hdeclared with rfl | hdeclared
        · exact hstanding
        · exact h scope List.mem_cons_self declared hdeclared
      · exact h s (List.mem_cons_of_mem scope hs) declared hdeclared

theorem Scope.allSettled_cons
    {scope : Scope}
    {scopes : List Scope}
    (hscope : ∀ declared ∈ scope, declared.standing ≠ .pending)
    (h : Scope.AllSettled scopes) :
    Scope.AllSettled (scope :: scopes) := by
  intro s hs
  rcases List.mem_cons.mp hs with rfl | hs
  · exact hscope
  · exact h s hs

theorem Context.allSettled_defineAll
    (names : List Token)
    {c : Context}
    (h : Scope.AllSettled c.scopes) :
    Scope.AllSettled (c.defineAll names).scopes := by
  induction names generalizing c with
  | nil => exact h
  | cons name names ih =>
      exact ih (c := c.define name) (Scope.allSettled_declareIn (by simp) h)

theorem Context.allSettled_inClass
    (isDerived : Bool)
    {c : Context}
    (h : Scope.AllSettled c.scopes) :
    Scope.AllSettled (c.inClass isDerived).scopes := by
  cases isDerived with
  | false => exact Scope.allSettled_cons (by simp) h
  | true => exact Scope.allSettled_cons (by simp) (Scope.allSettled_cons (by simp) h)

/-- Statements leave no name pending. -/
theorem Stmt.allSettled_contextAfter :
    ∀ (s : Stmt) {c : Context}, Scope.AllSettled c.scopes →
      Scope.AllSettled (s.contextAfter c).scopes
  | .funDecl _, _, h => Scope.allSettled_declareIn (by simp) h
  | .classDecl _ _ _, _, h => Scope.allSettled_declareIn (by simp) h
  | .varDecl _ _, _, h => Scope.allSettled_declareIn (by simp) h
  | .constDecl _ _, _, h => Scope.allSettled_declareIn (by simp) h
  | .ifStmt _ thenBranch none, _, h => thenBranch.allSettled_contextAfter h
  | .ifStmt _ thenBranch (some elseBranch), _, h =>
      elseBranch.allSettled_contextAfter (thenBranch.allSettled_contextAfter h)
  | .whileStmt _ body, _, h => body.allSettled_contextAfter h
  | .block _, _, h => h
  | .exprStmt _, _, h => h
  | .printStmt _, _, h => h
  | .returnStmt _ _, _, h => h

/-- The scopes around a node in which no name is pending. -/
def Node.settledScopes (c : Context) : Node → List Scope
  | .expression _ => c.scopes.tail
  | _ => c.scopes

/--
A name is pending only while the value that initializes it is resolved, and then in the innermost
scope.
-/
theorem Reaches.settled
    {program : List Stmt}
    {p : Site}
    {node : Node}
    (h : Reaches program p node) :
    Scope.AllSettled (node.settledScopes p.context) := by
  have htail : ∀ {scopes : List Scope}, Scope.AllSettled scopes → Scope.AllSettled scopes.tail :=
    fun h scope hscope => h scope (List.mem_of_mem_tail hscope)
  induction h with
  | program => exact fun scope hscope => absurd hscope List.not_mem_nil
  | first _ ih => exact ih
  | rest _ ih => exact Stmt.allSettled_contextAfter _ ih
  | block _ ih => exact Scope.allSettled_cons (by simp) ih
  | function _ ih => exact Scope.allSettled_declareIn (by simp) ih
  | body _ ih =>
      exact Context.allSettled_defineAll _ (Scope.allSettled_cons (by simp) ih)
  | superclass _ ih => exact htail (Scope.allSettled_declareIn (by simp) ih)
  | method _ _ ih =>
      exact Context.allSettled_inClass _ (Scope.allSettled_declareIn (by simp) ih)
  | @initializer p _ name _ _ _ ih =>
      intro scope hscope
      apply ih scope
      simp only [Node.settledScopes, Site.moved_context, Context.declare] at hscope
      cases hscopes : p.context.scopes with
      | nil => simp [hscopes, declareIn] at hscope
      | cons inner outer =>
          rw [hscopes] at hscope
          change scope ∈ p.context.scopes
          rw [hscopes]
          exact List.mem_cons_of_mem inner hscope
  | own _ _ ih => exact htail ih
  | thenBranch _ ih => exact ih
  | elseBranch _ ih => exact Stmt.allSettled_contextAfter _ ih
  | loopBody _ ih => exact ih
  | part _ _ ih => exact ih

/-- An expression is a part of another, however deep. -/
inductive Expr.Within (whole : Expr) : Expr → Prop
  | whole : Within whole whole
  | part {e part : Expr} : Within whole e → part ∈ e.parts → Within whole part

/-- An expression stands in the initializer of the declaration of a name. -/
def InOwnInitializer
    (program : List Stmt)
    (p : Site)
    (e : Expr)
    (name : String) : Prop :=
  ∃ q s declared initializer,
    Reaches program q (.statement s)
      ∧ s.initialized = some (declared, initializer)
      ∧ declared.lexeme = name
      ∧ p = q.moved (q.context.declare declared)
      ∧ initializer.Within e

/-- The scope in which a name is found declares it. -/
theorem findScope?_eq_some
    {name : String}
    {scopes : List Scope}
    {d : Nat}
    {standing : Standing}
    (h : findScope? name scopes = some (d, standing)) :
    ∃ scope, scopes[d]? = some scope ∧ scope.standing? name = some standing := by
  induction scopes generalizing d with
  | nil => cases h
  | cons scope outer ih =>
      simp only [findScope?] at h
      split at h
      · next found hfound =>
          cases h
          exact ⟨scope, rfl, hfound⟩
      · obtain ⟨⟨d', st⟩, hfound, heq⟩ := Option.map_eq_some_iff.mp h
        cases heq
        obtain ⟨scope', hscope', hstanding⟩ := ih hfound
        exact ⟨scope', by simpa using hscope', hstanding⟩

theorem Context.depth_link
    {c : Context}
    {name : String}
    {link : Link}
    (h : link = .unresolved) :
    (c.link name link).depth = (findScope? name c.scopes).map Prod.fst := by
  subst h
  unfold Context.link
  cases findScope? name c.scopes <;> rfl

theorem Context.depth_assignmentLink
    {c : Context}
    {name : String}
    {link : Link}
    (h : link = .unresolved) :
    (c.assignmentLink name link).depth = (findScope? name c.scopes).map Prod.fst := by
  subst h
  unfold Context.assignmentLink
  cases findScope? name c.scopes with
  | none => rfl
  | some found =>
      obtain ⟨d, standing⟩ := found
      cases standing <;> rfl

/-- A name is found among the scopes. -/
theorem lt_length_of_findScope?
    {name : String}
    {scopes : List Scope}
    {d : Nat}
    {standing : Standing}
    (h : findScope? name scopes = some (d, standing)) :
    d < scopes.length := by
  obtain ⟨scope, hscope, _⟩ := findScope?_eq_some h
  exact (List.getElem?_eq_some_iff.mp hscope).1

/-- The declaration of one name does not change where another is found. -/
theorem findScope?_declareIn_of_ne
    {declared name : String}
    (hne : declared ≠ name)
    (standing : Standing)
    (scopes : List Scope) :
    findScope? name (declareIn declared standing scopes) = findScope? name scopes := by
  cases scopes with
  | nil => rfl
  | cons scope outer =>
      have hskip : (declared == name) = false := by simpa using hne
      simp [declareIn, findScope?, Scope.standing?, hskip]

/-- In scopes without pending names no name is found as pending. -/
theorem Scope.AllSettled.ne_pending
    {scopes : List Scope}
    (h : Scope.AllSettled scopes)
    {name : String}
    {d : Nat} :
    findScope? name scopes ≠ some (d, .pending) := by
  intro hfound
  obtain ⟨scope, hscope, hstanding⟩ := findScope?_eq_some hfound
  obtain ⟨declared, hdeclared, hpending⟩ := Option.map_eq_some_iff.mp hstanding
  exact h scope (List.mem_of_getElem? hscope) declared
    (List.mem_of_find?_eq_some hdeclared) hpending

/-- A name that stands as pending where code stands is declared by the innermost scope. -/
theorem Scope.AllSettled.eq_zero_of_pending
    {scopes : List Scope}
    (hsettled : Scope.AllSettled scopes.tail)
    {name : String}
    {d : Nat}
    (h : findScope? name scopes = some (d, .pending)) :
    d = 0 := by
  cases scopes with
  | nil => cases h
  | cons scope outer =>
      simp only [findScope?] at h
      split at h
      · cases h
        rfl
      · obtain ⟨⟨d', st⟩, hfound, heq⟩ := Option.map_eq_some_iff.mp h
        cases heq
        exact absurd hfound hsettled.ne_pending

/-- A name is found as pending exactly in the initializer of its own declaration. -/
theorem Reaches.pending_iff
    {program : List Stmt}
    {p : Site}
    {e : Expr}
    (h : Reaches program p (.expression e))
    {name : String}
    {d : Nat}
    {standing : Standing}
    (hfound : findScope? name p.context.scopes = some (d, standing)) :
    standing = .pending ↔ InOwnInitializer program p e name := by
  constructor
  · rintro rfl
    generalize hnode : Node.expression e = node at h
    induction h generalizing e with
    | superclass hstatement =>
        refine absurd hfound (Scope.AllSettled.ne_pending ?_)
        exact Scope.allSettled_declareIn (by simp) hstatement.settled
    | own hstatement he => exact absurd hfound hstatement.settled.ne_pending
    | @initializer q s declared value hstatement hs =>
        cases hnode
        refine ⟨q, s, declared, _, hstatement, hs, ?_, rfl, .whole⟩
        by_cases hname : declared.lexeme = name
        · exact hname
        · simp only [Site.moved_context, Context.declare, findScope?_declareIn_of_ne hname]
            at hfound
          exact absurd hfound hstatement.settled.ne_pending
    | @part p whole part hwhole hpart ih =>
        cases hnode
        obtain ⟨q, s, declared, value, hstatement, hs, hname, hp, hwithin⟩ := ih hfound rfl
        exact ⟨q, s, declared, value, hstatement, hs, hname, hp, hwithin.part hpart⟩
    | _ => cases hnode
  · rintro ⟨q, s, declared, value, _, _, rfl, rfl, _⟩
    simp only [Site.moved_context, Context.declare] at hfound
    cases hscopes : q.context.scopes with
    | nil => simp [hscopes, declareIn, findScope?] at hfound
    | cons scope outer =>
        simp [hscopes, declareIn, findScope?, Scope.standing?] at hfound
        exact hfound.2.symm

/-- A branch or the body of a loop changes no context. -/
theorem Stmt.contextAfter_of_isDeclaration_eq_false :
    ∀ {s : Stmt}, s.isDeclaration = false → s.AsParsed → ∀ c : Context, s.contextAfter c = c
  | .ifStmt _ _ none, _, h, c => contextAfter_of_isDeclaration_eq_false h.2.1 h.2.2 c
  | .ifStmt _ thenBranch (some _), _, h, c => by
      simp only [contextAfter]
      rw [contextAfter_of_isDeclaration_eq_false h.2.1.1 h.2.1.2 c]
      exact contextAfter_of_isDeclaration_eq_false h.2.2.1 h.2.2.2 c
  | .whileStmt _ _, _, h, c => contextAfter_of_isDeclaration_eq_false h.2.1 h.2.2 c
  | .block _, _, _, _ => rfl
  | .exprStmt _, _, _, _ => rfl
  | .printStmt _, _, _, _ => rfl
  | .returnStmt _ _, _, _, _ => rfl

theorem Stmt.isDeclaration_resolve (s : Stmt) (c : Context) :
    (s.resolve c).isDeclaration = s.isDeclaration := by
  cases s with
  | ifStmt condition thenBranch elseBranch => cases elseBranch <;> rfl
  | _ => rfl

end Lox
