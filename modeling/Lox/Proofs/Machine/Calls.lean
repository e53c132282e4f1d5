import Lox.Proofs.Machine.Inheritance
import Lox.Proofs.Machine.Steps

/-!
# Calls in accepted programs

Functions and classes carry the code of the programs that made them.  What follows is about calling
them and about what their instances hold, for any way of executing statements that respects the
scopes around the statements.

**Main definitions.**
* `EvaluatesWell`, `ExecutesWell`, `RunsWell`: code of accepted programs is run as it should be.

**Results.**
* `keeps_call`: a value is called.
* `keeps_getProperty`, `keeps_getInherited`: methods are made for their instances.
-/

namespace Lox

open Code

variable {accepted : List Stmt → Prop}

variable (accepted)

/-- The evaluation of an expression of an accepted program results in a value that fits. -/
def EvaluatesWell (evaluate : FrameId → Expr → Recorded Value) : Prop :=
  ∀ ⦃program p e H m frame⦄, accepted program → Reaches program p (.expression e) →
    Sound accepted H m → Present H m.store frame p e →
    Keeps accepted (evaluate frame (e.resolve p.context)) H m nowhere fun v H' m' =>
      ValueFits accepted H' m'.store v

/-- After code that does not return, other code stands in the frame; what is returned fits. -/
def Completes
    (frame : FrameId)
    (p : Site)
    (completion : Completion)
    (H : History)
    (m : Machine) : Prop :=
  (completion = none → Stands H m.store frame p)
    ∧ ∀ v ∈ completion, ValueFits accepted H m.store v

/--
The execution of a statement of an accepted program leaves the code behind it where it stands.
-/
def ExecutesWell (execute : FrameId → Stmt → Recorded Completion) : Prop :=
  ∀ ⦃program p s H m frame⦄, accepted program → Reaches program p (.statement s) →
    Sound accepted H m → Stands H m.store frame p →
    Keeps accepted (execute frame (s.resolve p.context)) H m (· = frame)
      (Completes accepted frame (p.moved (s.contextAfter p.context)))

/-- The execution of statements of an accepted program in a frame opened for them. -/
def RunsWell (body : FrameId → List Stmt → Recorded Completion) : Prop :=
  ∀ ⦃program p ss H m frame⦄, accepted program → Reaches program p (.statements ss) →
    Sound accepted H m → Stands H m.store frame p →
    Keeps accepted (body frame (Stmt.resolveAll ss p.context)) H m (· = frame)
      fun completion H' m' => ∀ v ∈ completion, ValueFits accepted H' m'.store v

variable {accepted}

/-- Only code that reads a name is evaluated before the name of its class is bound. -/
theorem Present.stands
    {H : History}
    {store : Store}
    {f : FrameId}
    {p : Site}
    {e : Expr}
    (h : Present H store f p e)
    (he : ∀ r, e ≠ .read r) :
    Stands H store f p := by
  cases h with
  | here hstands => exact hstands
  | superclass _ _ => exact absurd rfl (he _)

section Bodies

variable
  {execute : FrameId → Stmt → Recorded Completion}
  (hexecute : ExecutesWell accepted execute)
include hexecute

/-- A list of statements is executed up to the first that returns. -/
theorem runsWell_untilReturn :
    RunsWell accepted fun frame => untilReturn (execute frame) := by
  intro program p ss H m frame haccepted hreaches hsound hstands
  induction ss generalizing p H m with
  | nil => exact .pure hsound (by simp)
  | cons s rest ih =>
      refine (hexecute haccepted hreaches.first hsound hstands).bind (fun _ _ h => h)
        (fun _ _ h => h) ?_
      intro completion H' m' hlater hcompletes
      cases completion with
      | none => exact ih hreaches.rest hlater.sound (hcompletes.1 rfl)
      | some v => exact .pure hlater.sound hcompletes.2

/-- All statements of a list are executed at the top level, where a return means nothing. -/
theorem keeps_each
    {program : List Stmt}
    (haccepted : accepted program)
    {ss : List Stmt}
    {p : Site}
    {H : History}
    {m : Machine}
    (hreaches : Reaches program p (.statements ss))
    (hscopes : p.context.scopes = [])
    (hsound : Sound accepted H m) :
    Keeps accepted (each (execute globalFrame) (Stmt.resolveAll ss p.context)) H m (· = globalFrame)
      fun _ _ _ => True := by
  induction ss generalizing p H m with
  | nil => exact .pure hsound trivial
  | cons s rest ih =>
      have hopenings : p.openings = [] := by
        simpa [hscopes] using hreaches.length_openings
      have hstands : Stands H m.store globalFrame p :=
        ⟨by rw [hscopes, hopenings]; exact .global, by simp [hscopes]⟩
      refine (hexecute haccepted hreaches.first hsound hstands).bind (fun _ _ h => h)
        (fun _ _ h => h) ?_
      intro completion H' m' hlater _
      refine ih hreaches.rest ?_ hlater.sound
      rw [Site.moved_context, ← List.length_eq_zero_iff, Stmt.length_contextAfter, hscopes]
      rfl

end Bodies

section Functions

variable {H : History} {m : Machine}

@[simp] theorem FunctionDecl.resolve_name
    (f : FunctionDecl)
    (routine : Routine)
    (c : Context) :
    (f.resolve routine c).name = f.name := by
  cases f
  rfl

@[simp] theorem FunctionDecl.resolve_parameters
    (f : FunctionDecl)
    (routine : Routine)
    (c : Context) :
    (f.resolve routine c).parameters = f.parameters := by
  cases f
  rfl

@[simp] theorem FunctionDecl.resolve_body
    (f : FunctionDecl)
    (routine : Routine)
    (c : Context) :
    (f.resolve routine c).body = Stmt.resolveAll f.body (c.inBody routine f.parameters) := by
  cases f
  rfl

theorem FunctionDecl.mem_resolveMethods
    {fs : List FunctionDecl}
    {c : Context}
    {g : FunctionDecl}
    (h : g ∈ FunctionDecl.resolveMethods fs c) :
    ∃ f ∈ fs, g = f.resolve f.methodRoutine c := by
  induction fs with
  | nil => cases h
  | cons f fs ih =>
      rcases List.mem_cons.mp h with rfl | h
      · exact ⟨f, List.mem_cons_self, rfl⟩
      · obtain ⟨f', hf', rfl⟩ := ih h
        exact ⟨f', List.mem_cons_of_mem f hf', rfl⟩

/-- A method that a class finds was declared by the class or by one that it inherits from. -/
theorem ClassObject.method?_eq_some
    {c : ClassObject}
    {name : String}
    {method : Method}
    (h : c.method? name = some method) :
    ∃ owner : ClassObject, owner.layers <:+ c.layers
      ∧ method.declaration ∈ owner.own.methods
      ∧ method.frame = owner.own.frame := by
  obtain ⟨layer, hlayer, hfound⟩ := List.exists_of_findSome?_eq_some h
  obtain ⟨declaration, hdeclaration, rfl⟩ := Option.map_eq_some_iff.mp hfound
  obtain ⟨nearer, farther, hlayers⟩ := List.append_of_mem hlayer
  exact ⟨⟨layer, farther⟩, ⟨nearer, hlayers.symm⟩,
    List.mem_reverse.mp (List.mem_of_find?_eq_some hdeclaration), rfl⟩

/-- The scopes around the methods of a class: that of the instance comes first. -/
theorem Context.scopes_inClass
    (c : Context)
    (isDerived : Bool) :
    (c.inClass isDerived).scopes =
      [⟨"this", .variable⟩] :: (c.inClass isDerived).scopes.tail := by
  cases isDerived <;> rfl

/--
A method of a class is made for an instance of the class or of one that inherits from it: the
function stands among the methods.
-/
theorem keeps_bindMethod
    (hsound : Sound accepted H m)
    {c d : ClassObject}
    (hd : ClassFits accepted H m.store d)
    (hcd : c.layers <:+ d.layers)
    {name : String}
    {method : Method}
    (hmethod : c.method? name = some method)
    (id : InstanceId) :
    Keeps accepted (bindMethod method id d) H m nowhere fun f H' m' =>
      ClosureFits accepted H' m'.store f ∧ f.declaration = method.declaration := by
  obtain ⟨owner, howner, hdeclaration, hframe⟩ := ClassObject.method?_eq_some hmethod
  have howner' := howner.trans hcd
  refine (Keeps.openFrame hsound .receiver method.frame [("this", .object id d)]
    (by simpa [ValueFits] using hd) fun _ => ⟨id, d, owner, rfl, hframe, howner'⟩).next ?_
  intro frame H₁ m₁ hlater hopened
  obtain ⟨program, p, className, parent, methods, haccepted, hreaches, _, hmethods, hfits, _⟩ :=
    hlater.classFits hd owner howner'
  refine (Keeps.aside hlater.sound (x := Run.newSerial) rfl rfl rfl).next ?_
  rintro _ H₂ m₂ hlater' ⟨rfl, -⟩
  rw [hmethods] at hdeclaration
  obtain ⟨declaration, hmem, hresolved⟩ := FunctionDecl.mem_resolveMethods hdeclaration
  refine .pure hlater'.sound ⟨⟨program, _, _, declaration, haccepted, hreaches.method hmem,
    hresolved, ?_⟩, rfl⟩
  have hscopes : (p.inClass className parent.isSome methods).context.scopes = _ :=
    Context.scopes_inClass _ _
  rw [hscopes]
  refine hlater'.fits (hopened.fits hsound.global _ (fun n => ?_) (hframe ▸ hfits))
  simp [Standing.flag?, eq_comm]

end Functions

section Calls

/-- The definition of variables adds them to the innermost scope. -/
theorem Context.scopes_defineAll
    (names : List Token)
    {c : Context}
    {scope : Scope}
    {outer : List Scope}
    (hscopes : c.scopes = scope :: outer) :
    ∃ scope', (c.defineAll names).scopes = scope' :: outer
      ∧ ∀ n, scope'.flag? n =
          if n ∈ names.map Token.lexeme then some false else scope.flag? n := by
  induction names generalizing c scope with
  | nil => exact ⟨scope, hscopes, fun n => by simp⟩
  | cons name names ih =>
      have hstep : (c.define name).scopes = (⟨name.lexeme, .variable⟩ :: scope) :: outer := by
        simp [Context.define, hscopes, declareIn]
      obtain ⟨scope', hscope', hflag⟩ := ih hstep
      refine ⟨scope', hscope', fun n => ?_⟩
      rw [hflag n, Scope.flag?_cons]
      by_cases hmem : n ∈ names.map Token.lexeme
      · simp [hmem]
      · by_cases hname : name.lexeme = n
        · simp [hname, Standing.flag?]
        · simp [hmem, hname, Ne.symm hname]

/-- The scope of a function holds its parameters as variables. -/
theorem Context.scopes_inBody
    (c : Context)
    (routine : Routine)
    (parameters : List Token) :
    ∃ scope, (c.inBody routine parameters).scopes = scope :: c.scopes
      ∧ ∀ n, scope.flag? n =
          if n ∈ parameters.map Token.lexeme then some false else none :=
  Context.scopes_defineAll parameters (rfl : (c.atParameters routine).scopes = [] :: c.scopes)

variable
  {body : FrameId → List Stmt → Recorded Completion}
  (hbody : RunsWell accepted body)
  {H : History}
  {m : Machine}
  (hsound : Sound accepted H m)
  {arguments : List Value}
  (harguments : ∀ v ∈ arguments, ValueFits accepted H m.store v)
include hbody hsound harguments

/-- The body of a function is executed in a new frame, at the site of the body. -/
theorem keeps_callFunction
    {f : Closure}
    (hf : ClosureFits accepted H m.store f)
    (harity : arguments.length = f.declaration.arity) :
    Keeps accepted (callFunction body f arguments) H m nowhere fun v H' m' =>
      ValueFits accepted H' m'.store v := by
  have hnames : ((f.declaration.parameters.map Token.lexeme).zip arguments).map Prod.fst =
      f.declaration.parameters.map Token.lexeme :=
    List.map_fst_zip (by simp [harity, FunctionDecl.arity])
  refine (Keeps.openFrame hsound (.call f.declaration) f.frame _
    (fun b hb => harguments b.2 (List.of_mem_zip hb).2) (fun h => by cases h)).inside ?_
  intro frame H₁ m₁ hlater hopened
  obtain ⟨program, p, routine, declaration, haccepted, hreaches, hdeclaration, hfits⟩ := hf
  obtain ⟨scope, hscopes, hscope⟩ := p.context.scopes_inBody routine declaration.parameters
  have hstands : Stands H₁ m₁.store frame (p.inBody routine declaration) :=
    hopened.stands hsound.global scope hscopes (by rw [Site.inBody, hdeclaration])
      (by rw [hnames]; simpa [hdeclaration] using hscope) (hlater.fits hfits)
  have hresolved : f.declaration.body =
      Stmt.resolveAll declaration.body (p.inBody routine declaration).context := by
    rw [hdeclaration, FunctionDecl.resolve_body, Site.inBody]
  have hrun := hbody haccepted hreaches.body hlater.sound hstands
  rw [← hresolved] at hrun
  refine (hrun.mono (fun g _ hg => Nat.le_of_eq (hopened.new.symm.trans hg.symm))
    fun _ _ _ _ h => h).followed ?_
  intro completion H₂ m₂ hlater' hcompletion
  split
  · exact .getAt hlater'.sound rfl _ _
  · refine .pure hlater'.sound ?_
    cases completion with
    | none => trivial
    | some v => exact hcompletion v rfl

/-- An instance is made of a class, and the initializer found in the class is called. -/
theorem keeps_instantiate
    {c : ClassObject}
    (hc : ClassFits accepted H m.store c)
    (harity : arguments.length = c.arity) :
    Keeps accepted (instantiate body c arguments) H m nowhere fun v H' m' =>
      ValueFits accepted H' m'.store v := by
  refine (Keeps.newInstance hsound c).next ?_
  rintro ⟨id, _⟩ H₁ m₁ hlater rfl
  dsimp only at hc harity ⊢
  split
  · exact .pure hlater.sound (hlater.classFits hc)
  · next method hmethod =>
      have hc₁ := hlater.classFits hc
      refine (keeps_bindMethod hlater.sound hc₁ (List.suffix_refl _) hmethod id).next ?_
      rintro initializer H₂ m₂ hlater' ⟨hinitializer, hdeclaration⟩
      have harity' : arguments.length = initializer.declaration.arity := by
        rw [harity, hdeclaration]
        simp [ClassObject.arity, hmethod]
      refine (keeps_callFunction hbody hlater'.sound
        (fun v hv => hlater'.value (hlater.value (harguments v hv))) hinitializer harity').next ?_
      intro _ H₃ m₃ hlater'' _
      exact .pure hlater''.sound (hlater''.classFits (hlater'.classFits hc₁))

theorem keeps_call
    {callee : Value}
    (hcallee : ValueFits accepted H m.store callee)
    (place : Token) :
    Keeps accepted (call body callee arguments place) H m nowhere fun v H' m' =>
      ValueFits accepted H' m'.store v := by
  unfold Code.call
  split
  · exact .fail hsound .notCallable trivial (by simp) _
  · next arity harity =>
      split
      · next hlength =>
          have hlength' := beq_iff_eq.mp hlength
          cases callee with
          | native f =>
              cases f
              refine (Keeps.aside hsound (x := Run.readClock) rfl rfl rfl).next ?_
              exact fun _ _ _ hlater _ => .pure hlater.sound trivial
          | function f =>
              cases harity
              exact keeps_callFunction hbody hsound harguments hcallee hlength'
          | classObject c =>
              cases harity
              exact keeps_instantiate hbody hsound harguments hcallee hlength'
          | _ => cases harity
      · next hlength =>
          refine .fail hsound (.wrongArgumentCount arity arguments.length) ?_ (by simp) _
          exact fun heq => hlength (by simp [heq])

end Calls

section Properties

variable {H : History} {m : Machine}

theorem looks_field?
    {m : Machine}
    (id : InstanceId)
    (name : String) :
    Looks (Run.field? id name) m (fun found => found = m.field? id name) Interrupt.Ordinary :=
  looks_bind (looks_get m) fun _ hm => looks_pure (by rw [hm]; rfl)

/-- A property of a value that fits is a field or a method that fits. -/
theorem keeps_getProperty
    (hsound : Sound accepted H m)
    {object : Value}
    (hobject : ValueFits accepted H m.store object)
    (name : Token) :
    Keeps accepted (getProperty object name) H m nowhere fun v H' m' =>
      ValueFits accepted H' m'.store v := by
  cases object with
  | object id c =>
      refine (Keeps.look hsound (looks_field? id name.lexeme)).next ?_
      intro found H₁ m₁ hlater hfound
      cases found with
      | some value => exact .pure hlater.sound (hlater.value (hsound.fields _ _ _ hfound.symm))
      | none =>
          dsimp only
          split
          · next method hmethod =>
              have hc := hlater.classFits hobject
              exact (keeps_bindMethod hlater.sound hc (List.suffix_refl _) hmethod id).map
                fun _ _ _ _ h => h.1
          · exact .fail hlater.sound (.undefinedProperty name.lexeme) trivial (by simp) _
  | _ => exact .fail hsound .propertyOfNonInstance trivial (by simp) _

/-- The value of a name at a distance at which it is bound. -/
theorem Run.getAt_eq_ok
    {m : Machine}
    {f g : FrameId}
    {d : Nat}
    {name : String}
    {slot : Slot}
    (hancestor : m.store.ancestor? f d = some g)
    (hslot : m.store.slot? g name = some slot)
    (place : Token) :
    Run.getAt f d name place m = .ok slot.value m := by
  change (Run.ofAccess place (m.store.findAt f d name) >>= fun found => pure found.2.value) m = _
  rw [Store.findAt, hancestor]
  dsimp only
  rw [hslot]
  rfl

/-- A method of the superclass is made for the instance of the code around. -/
theorem keeps_getInherited
    (hsound : Sound accepted H m)
    {frame : FrameId}
    {link : Link}
    {distance : Nat}
    (hlink : link.depth = some (distance + 1))
    {name : Token}
    {owner parent : ClassObject}
    {id : InstanceId}
    {c : ClassObject}
    (hframes : SuperFrames H m.store frame distance name owner parent id c)
    (hc : ClassFits accepted H m.store c)
    (keyword method : Token) :
    Keeps accepted (getInherited frame keyword method link) H m nowhere fun v H' m' =>
      ValueFits accepted H' m'.store v := by
  obtain ⟨g, hg, hthis⟩ := hframes.receiver
  simp only [getInherited, hlink]
  refine (Keeps.aside hsound (Run.getAt_eq_ok hframes.superclass hframes.inherits.bound keyword)
    rfl rfl).next ?_
  rintro _ H₁ m₁ hlater ⟨rfl, rfl⟩
  refine (Keeps.aside hlater.sound (Run.getAt_eq_ok hg hthis keyword) rfl rfl).next ?_
  rintro _ H₂ m₂ hlater' ⟨rfl, rfl⟩
  dsimp only
  split
  · next found hfound =>
      have hsuffix := (ClassObject.layers_suffix_of_superclass? hframes.inherits.superclass).trans
        hframes.descends
      exact (keeps_bindMethod hlater'.sound (hlater'.classFits (hlater.classFits hc)) hsuffix hfound
        id).map fun _ _ _ _ h => h.1
  · exact .fail hlater'.sound (.undefinedProperty method.lexeme) trivial (by simp) _

/-- A field is set after its value is evaluated. -/
theorem keeps_setProperty
    (hsound : Sound accepted H m)
    (object : Value)
    (name : Token)
    {value : Recorded Value}
    (hvalue : Keeps accepted value H m nowhere fun v H' m' => ValueFits accepted H' m'.store v) :
    Keeps accepted (setProperty object name value) H m nowhere fun v H' m' =>
      ValueFits accepted H' m'.store v := by
  cases object with
  | object id c =>
      refine hvalue.next ?_
      intro v H₁ m₁ hlater hv
      refine (Keeps.setField hlater.sound id name.lexeme hv).next ?_
      exact fun _ _ _ hlater' _ => .pure hlater'.sound (hlater'.value hv)
  | _ => exact .fail hsound .fieldOfNonInstance trivial (by simp) _

end Properties

end Lox
