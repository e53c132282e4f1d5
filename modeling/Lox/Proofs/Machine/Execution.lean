import Lox.Proofs.Machine.Calls

/-!
# Execution of accepted programs

Code of an accepted program that is executed where it stands leads from sound machines to sound
machines, evaluates every expression in frames that mirror the scopes around it, and binds names of
no frame but its own.  The programs are those of a whole session.

There is one lemma for each kind of node that does more than evaluate its parts, and then the two
statements about all nodes, by induction on the room.

**Results.**
* `runsWell`: the statements about all expressions and statements.
* `keeps_program`: a whole program at the top level.
-/

namespace Lox

open Code

variable {accepted : List Stmt → Prop}

@[simp] theorem Site.moved_self (p : Site) : p.moved p.context = p := rfl

section Links

/-- A link that resolution has given leads to a frame. -/
theorem Fits.leads
    {H : History}
    {store : Store}
    {f : FrameId}
    {scopes : List Scope}
    {os : List Opening}
    (h : Fits H store f scopes os)
    {p : Site}
    (hlength : scopes.length = p.context.scopes.length)
    {link : Link}
    {name : String}
    (hdepth : link.depth = (findScope? name p.context.scopes).map Prod.fst) :
    (link.leadsTo? store f).isSome := by
  unfold Link.leadsTo?
  rw [hdepth]
  cases hfound : findScope? name p.context.scopes with
  | none => rfl
  | some found => exact h.isSome_ancestor? (hlength ▸ lt_length_of_findScope? hfound)

theorem Stands.leads
    {H : History}
    {store : Store}
    {f : FrameId}
    {p : Site}
    (h : Stands H store f p)
    {link : Link}
    {name : String}
    (hdepth : link.depth = (findScope? name p.context.scopes).map Prod.fst) :
    (link.leadsTo? store f).isSome :=
  h.fits.leads rfl hdepth

/-- This also holds while a superclass is evaluated. -/
theorem Present.leads
    {H : History}
    {store : Store}
    {f : FrameId}
    {p : Site}
    {e : Expr}
    (h : Present H store f p e)
    {link : Link}
    {name : String}
    (hdepth : link.depth = (findScope? name p.context.scopes).map Prod.fst) :
    (link.leadsTo? store f).isSome := by
  cases h with
  | here hstands => exact hstands.leads hdepth
  | superclass hstands _ =>
      exact hstands.fits.leads (by simp [Context.atSuperclass, Context.define]) hdepth

end Links

section Assignments

/-- What an assignment knows about its target: it is a constant. -/
def Store.knowsConstant
    (store : Store)
    (target : Reference) : Bool :=
  target.link.constantDepth.isSome
    || !target.link.depth.isSome && store.isConstant globalFrame target.name.lexeme

theorem Run.isConstant_eq
    (m : Machine)
    (target : Reference) :
    Run.isConstant target m = .ok (m.store.knowsConstant target) m := by
  unfold Run.isConstant Store.knowsConstant
  cases target.link.constantDepth with
  | some d => rfl
  | none =>
      cases target.link.depth with
      | some d => rfl
      | none => rfl

/-- What is known about a target depends on the names of the global frame. -/
theorem Store.knowsConstant_congr
    {store store' : Store}
    (target : Reference)
    (h : store'.flag? globalFrame target.name.lexeme = store.flag? globalFrame target.name.lexeme) :
    store'.knowsConstant target = store.knowsConstant target := by
  have hflag : ∀ store : Store, store.isConstant globalFrame target.name.lexeme =
      (store.flag? globalFrame target.name.lexeme).any id := by
    intro store
    unfold Store.isConstant Store.flag?
    cases store.slot? globalFrame target.name.lexeme <;> rfl
  simp [Store.knowsConstant, hflag, h]

/-- A target that leads to a constant is known to be one. -/
theorem Stands.knowsConstant
    {H : History}
    {store : Store}
    {f : FrameId}
    {p : Site}
    (h : Stands H store f p)
    (hsettled : Scope.AllSettled p.context.scopes.tail)
    {target : Reference}
    (hunlinked : target.link = .unresolved)
    {g : FrameId}
    {slot : Slot}
    (hleads : (target.resolveAssigned p.context).link.leadsTo? store f = some g)
    (hslot : store.slot? g target.name.lexeme = some slot)
    (hconstant : slot.constant = true) :
    store.knowsConstant (target.resolveAssigned p.context) = true := by
  have hflag : store.flag? g target.name.lexeme = some true := by
    simp [Store.flag?, hslot, hconstant]
  simp only [Reference.resolveAssigned, Context.assignmentLink] at hleads ⊢
  cases hfound : findScope? target.name.lexeme p.context.scopes with
  | none =>
      simp only [hfound, hunlinked, Link.leadsTo?, Link.unresolved, Option.some.injEq] at hleads
      subst hleads
      simp [Store.knowsConstant, Store.isConstant, hunlinked, Link.unresolved, hslot, hconstant]
  | some found =>
      obtain ⟨d, standing⟩ := found
      obtain ⟨g', hancestor, hstanding⟩ := h.flag?_found hsettled hfound
      have hg : g' = g := by
        cases standing <;> simpa [hfound, Link.leadsTo?, hancestor] using hleads
      rw [← hg, hstanding] at hflag
      cases standing with
      | constant => rfl
      | «variable» => cases hflag
      | pending => cases hflag

variable {H : History} {m : Machine}

/-- An assignment gives a value to no constant. -/
theorem keeps_assign
    (hsound : Sound accepted H m)
    {frame : FrameId}
    {p : Site}
    (hstands : Stands H m.store frame p)
    (hsettled : Scope.AllSettled p.context.scopes.tail)
    {target : Reference}
    (hunlinked : target.link = .unresolved)
    (hname : target.name.IsName)
    {value : Recorded Value}
    (hvalue : ∀ {H' m'}, Sound accepted H' m' → Stands H' m'.store frame p →
      Keeps accepted value H' m' nowhere fun v H' m' => ValueFits accepted H' m'.store v) :
    Keeps accepted (assign frame (target.resolveAssigned p.context) value) H m nowhere
      fun v H' m' => ValueFits accepted H' m'.store v := by
  refine (Keeps.aside hsound (Run.isConstant_eq m _) rfl rfl).next ?_
  rintro _ H₁ m₁ hlater ⟨rfl, -⟩
  split
  · exact .fail hlater.sound .assignmentToConstant trivial (by simp) _
  · next hunknown =>
      have hstands₁ := hlater.stands hsound (fun h => h) hstands
      refine (hvalue hlater.sound hstands₁).next ?_
      intro v H₂ m₂ hlater' hv
      have hstands₂ := hlater'.stands hlater.sound (fun h => h) hstands₁
      have hglobal : m₂.store.flag? globalFrame target.name.lexeme =
          m.store.flag? globalFrame target.name.lexeme := by
        rw [hlater'.flag?_eq hlater.sound.global (fun h => h),
          hlater.flag?_eq hsound.global (fun h => h)]
      rw [← Store.knowsConstant_congr (target.resolveAssigned p.context) hglobal]
        at hunknown
      have hleads : ((target.resolveAssigned p.context).link.leadsTo? m₂.store frame).isSome :=
        hstands₂.leads (Context.depth_assignmentLink hunlinked)
      refine (Keeps.assignName hlater'.sound (fun g slot hleads hslot => ?_)
        hleads hname hv).next ?_
      · rw [← Bool.not_eq_true]
        exact fun h => hunknown (hstands₂.knowsConstant hsettled hunlinked hleads hslot h)
      · exact fun _ _ _ hlater'' _ => .pure hlater''.sound (hlater''.value hv)

end Assignments

section Declarations

/-- The frame in which the methods of a class are made, and what it knows of the superclass. -/
structure MethodsFit
    (p : Site)
    (name : Token)
    (isDerived : Bool)
    (methods : List FunctionDecl)
    (superclass : Option ClassObject)
    (m : Machine)
    (inner : FrameId)
    (H' : History)
    (m' : Machine) : Prop where
  fits : Fits H' m'.store inner (p.inClass name isDerived methods).context.scopes.tail
    (p.classOpenings name isDerived methods)
  serial : m'.serial = m.serial
  inherits : ∀ parent ∈ superclass,
    m'.store.slot? inner "super" = some ⟨"super", .classObject parent, false⟩
      ∧ m.store.nextId = inner
      ∧ ⟨m, .opens (.superclass name
          (FunctionDecl.resolveMethods methods ((p.context.define name).inClass isDerived)))⟩ ∈ H'

/-- The methods of a class are made in the frame of the class or in one that binds `super`. -/
theorem keeps_methodFrame
    {H : History}
    {m : Machine}
    (hsound : Sound accepted H m)
    {frame : FrameId}
    {p : Site}
    {name : Token}
    {methods : List FunctionDecl}
    {isDerived : Bool}
    {superclass : Option ClassObject}
    (hderived : superclass.isSome = isDerived)
    (hsuperclass : ∀ c ∈ superclass, ClassFits accepted H m.store c)
    (hdefined : Stands H m.store frame (p.moved (p.context.define name))) :
    Keeps accepted
      (methodFrame frame name
        (FunctionDecl.resolveMethods methods
          ((p.context.define name).inClass isDerived)) superclass)
      H m nowhere (MethodsFit p name isDerived methods superclass m) := by
  cases superclass with
  | none =>
      subst hderived
      exact .pure hsound ⟨hdefined.fits, rfl, by simp⟩
  | some parent =>
      subst hderived
      refine (Keeps.openFrame hsound (.superclass name _) frame [("super", .classObject parent)]
        (by simpa [ValueFits] using hsuperclass) (fun h => by cases h)).mono (fun _ _ h => h) ?_
      intro inner H' m' hlater hopened
      refine ⟨?_, hopened.serial, ?_⟩
      · refine hopened.fits hsound.global [⟨"super", .variable⟩] (fun n => ?_)
          (hlater.fits hdefined.fits)
        simp [Standing.flag?, eq_comm]
      · rintro _ ⟨⟩
        exact ⟨hopened.single _ _ rfl, hopened.new.symm, hopened.moment⟩

/-- The layers of a new class are its own and those of its superclass. -/
theorem ClassLayer.eq_or_suffix_of_extending
    {layer : ClassLayer}
    {superclass : Option ClassObject}
    {d : ClassObject}
    (h : d.layers <:+ (layer.extending superclass).layers) :
    d = layer.extending superclass ∨ ∃ parent ∈ superclass, d.layers <:+ parent.layers := by
  rcases List.suffix_cons_iff.mp h with heq | hsuffix
  · exact .inl (ClassObject.layers_injective heq)
  · cases superclass with
    | none =>
        have hnil := List.suffix_nil.mp hsuffix
        cases hnil
    | some parent => exact .inr ⟨parent, rfl, hsuffix⟩

@[simp] theorem ClassLayer.own_extending
    (layer : ClassLayer)
    (superclass : Option ClassObject) :
    (layer.extending superclass).own = layer := by
  cases superclass <;> rfl

variable
  {H : History}
  {m : Machine}
  (hsound : Sound accepted H m)
  {program : List Stmt}
  (haccepted : accepted program)
  {frame : FrameId}
  {p : Site}
  (hstands : Stands H m.store frame p)
include hsound hstands

/-- After a value is bound to a new name, the code behind the declaration stands in the frame. -/
theorem keeps_bindDeclared
    {name : Token}
    (hname : name.IsName)
    (hfree : p.context.innermost? name = none)
    (standing : Standing)
    {constant : Bool}
    (hstanding : standing.flag? = some constant)
    {c : Context}
    (hc : c.scopes = declareIn name.lexeme standing p.context.scopes)
    (value : Value)
    (hvalue : ∀ H' store', H <+: H' → Stands H' store' frame (p.moved c) →
      Grows [⟨m, .binds frame name.lexeme constant⟩] m.store store' →
        ValueFits accepted H' store' value) :
    Keeps accepted (bindDeclared frame name value constant) H m (· = frame)
      fun _ H' m' => Stands H' m'.store frame (p.moved c)
        ∧ m'.store.flag? frame name.lexeme = some constant := by
  refine (Keeps.bindDeclared hsound (hstands.fits.lt_nextId hsound.global)
    (fun hlocal => hstands.flag?_eq_none hlocal hfree) hname ?_).mono (fun _ _ h => h) ?_
  · intro H' store' hH hgrows hflag
    exact hvalue H' store' hH (hstands.define hH hgrows hflag hstanding hc) hgrows
  · rintro _ H' m' _ ⟨hH, hgrows, hflag⟩
    exact ⟨hstands.define hH hgrows hflag hstanding hc, by simp [hflag]⟩

include haccepted

/-- A function is made in the frame in which it is declared. -/
theorem keeps_declareFunction
    {f : FunctionDecl}
    (hreaches : Reaches program p (.statement (.funDecl f)))
    (hname : f.name.IsName)
    (hfree : p.context.innermost? f.name = none) :
    Keeps accepted (declareFunction frame (f.resolve .function (p.context.define f.name))) H m
      (· = frame) fun _ H' m' => Stands H' m'.store frame (p.moved (p.context.define f.name)) := by
  refine (Keeps.aside hsound (x := Run.newSerial) rfl rfl rfl).next ?_
  intro serial H₁ m₁ hlater _
  have hstands₁ := hlater.stands hsound (fun h => h) hstands
  refine (keeps_bindDeclared hlater.sound hstands₁ (by simpa using hname) (by simpa using hfree)
    .variable
    rfl (by simp [Context.define]) _ fun H' store' _ hstands' _ => ?_).mono (fun _ _ h => h)
    fun _ _ _ _ h => h.1
  exact ⟨program, _, .function, f, haccepted, hreaches.function, rfl, hstands'.fits⟩

/-- The evaluation of a name is a single moment. -/
def ReadsAtOnce (evaluate : FrameId → Expr → Recorded Value) : Prop :=
  ∀ frame r m v m', (evaluate frame (.read r) m).2 = .ok v m' →
    (evaluate frame (.read r) m).1 = [⟨m, .evaluates frame (.read r)⟩]

/--
The superclass of a class is a class that fits, and there is one if the declaration says so.
Another value is a fault.
-/
theorem keeps_superclassOf
    {evaluate : FrameId → Expr → Recorded Value}
    (hevaluate : EvaluatesWell accepted evaluate)
    (hreads : ReadsAtOnce evaluate)
    {name : Token}
    {parent : Option Expr}
    {methods : List FunctionDecl}
    (hreaches : Reaches program p (.statement (.classDecl name parent methods)))
    (hparsed : parentAsParsed parent)
    (hne : ∀ inherited, parent = some inherited → inheritanceErrors name inherited = []) :
    Keeps accepted
      (superclassOf (evaluate frame) name (parent.map (Expr.resolve (p.context.atSuperclass name))))
      H m nowhere fun superclass H' m' =>
        superclass.isSome = parent.isSome ∧
          ∀ c ∈ superclass, ClassFits accepted H' m'.store c := by
  cases parent with
  | none => exact .pure hsound ⟨rfl, by simp⟩
  | some parent =>
      obtain ⟨inherited, rfl⟩ := hparsed parent rfl
      have hlexeme : inherited.lexeme ≠ name.lexeme := by
        have herrors := hne _ rfl
        simpa [inheritanceErrors, Expr.name?, errorIf_eq_nil] using herrors
      refine (hevaluate haccepted hreaches.superclass hsound
        (.superclass hstands hlexeme)).exactly.next ?_
      rintro v H₁ m₁ hlater ⟨hv, rfl, hrun⟩
      have hends : EndsAtSuperclass accepted
          (H ++ (evaluate frame (Expr.resolve (p.context.atSuperclass name)
            (.read ⟨inherited, .unresolved⟩)) m).1) inherited := by
        have hone := hreads frame _ m v m₁ hrun
        exact ⟨H, _, program, p, name, methods, frame, congrArg (H ++ ·) hone, haccepted, hreaches,
          rfl⟩
      cases v with
      | classObject c => exact .pure hlater.sound ⟨rfl, by simpa [ValueFits] using hv⟩
      | _ => exact .stop hlater.sound (.superclass hends)

/-- A class is made at the site of its declaration. -/
theorem keeps_declareClass
    {name : Token}
    {parent : Option Expr}
    {methods : List FunctionDecl}
    (hreaches : Reaches program p (.statement (.classDecl name parent methods)))
    (hname : name.IsName)
    (hfree : p.context.innermost? name = none)
    {superclass : Option ClassObject}
    (hderived : superclass.isSome = parent.isSome)
    (hsuperclass : ∀ c ∈ superclass, ClassFits accepted H m.store c) :
    Keeps accepted
      (declareClass frame name superclass
        (FunctionDecl.resolveMethods methods ((p.context.define name).inClass parent.isSome)))
      H m (· = frame) fun _ H' m' =>
        Stands H' m'.store frame (p.moved (p.context.define name)) := by
  have hbound := keeps_bindDeclared hsound hstands hname hfree .variable rfl
    (c := p.context.define name) rfl .nil fun _ _ _ _ _ => trivial
  refine hbound.followed ?_
  rintro _ H₁ m₁ hlater₁ ⟨hdefined, hflag⟩
  refine (keeps_methodFrame hlater₁.sound hderived
    (fun c hc => hlater₁.classFits (hsuperclass c hc)) hdefined).next ?_
  intro inner H₂ m₂ hlater₂ hmethods
  refine (Keeps.aside hlater₂.sound (x := Run.newSerial) rfl rfl rfl).next ?_
  rintro serial H₃ m₃ hlater₃ ⟨rfl, rfl⟩
  have hdefined₃ := hlater₃.stands hlater₂.sound (fun h => h)
    (hlater₂.stands hlater₁.sound (fun h => h) hdefined)
  have hthere := hdefined.fits.lt_nextId hlater₁.sound.global
  have hflag₃ : m₂.store.flag? frame name.lexeme = some false := by
    rw [hlater₂.flag?_eq hthere (fun h => h), hflag]
  have hvalue : ClassFits accepted H₂ m₂.store
      (ClassLayer.extending ⟨m₂.serial, name.lexeme, FunctionDecl.resolveMethods methods
        ((p.context.define name).inClass parent.isSome), inner⟩ superclass) := by
    intro d hd
    rcases ClassLayer.eq_or_suffix_of_extending hd with rfl | ⟨c, hc, hd⟩
    · refine ⟨program, p, name, parent, methods, haccepted, hreaches, by simp,
        by simp [Site.inClass], by simpa using hmethods.fits, fun hparent => ?_⟩
      obtain ⟨c, rfl⟩ := Option.isSome_iff_exists.mp (hderived.trans hparent)
      obtain ⟨hslot, hid, hmoment⟩ := hmethods.inherits c rfl
      exact ⟨c, by simp, by simpa using hslot, _, hmoment, by simp, by simpa using hid,
        by simpa using hmethods.serial.symm⟩
    · exact hlater₂.classFits (hlater₁.classFits (hsuperclass c hc)) d hd
  refine (Keeps.reassign (.classObject _) hlater₃.sound hflag₃ hname
    (hlater₃.classFits hvalue)).mono (fun _ _ h => h) ?_
  intro _ H₄ m₄ hlater₄ _
  exact hlater₄.stands hlater₃.sound (fun h => h) hdefined₃

end Declarations

section Statements

variable
  {H : History}
  {m : Machine}
  (hsound : Sound accepted H m)
  {frame : FrameId}
  {p : Site}
  (hstands : Stands H m.store frame p)
include hsound hstands

/-- After code that declares no names, the code behind it stands in the same frame. -/
theorem keeps_completes
    {x : Recorded Completion}
    (h : Keeps accepted x H m nowhere fun completion H' m' =>
      ∀ v ∈ completion, ValueFits accepted H' m'.store v) :
    Keeps accepted x H m (· = frame) (Completes accepted frame p) :=
  h.mono (fun _ _ h => h.elim) fun _ _ _ hlater hvalues =>
    ⟨fun _ => hlater.stands hsound (fun h => h) hstands, hvalues⟩

/-- A loop repeats code that stands in the same frame every time. -/
theorem keeps_repeating
    {condition : Recorded Value}
    {body : Recorded Completion}
    (hcondition : ∀ {H' m'}, Sound accepted H' m' → Stands H' m'.store frame p →
      Keeps accepted condition H' m' nowhere fun v H' m' => ValueFits accepted H' m'.store v)
    (hbody : ∀ {H' m'}, Sound accepted H' m' → Stands H' m'.store frame p →
      Keeps accepted body H' m' (· = frame) (Completes accepted frame p))
    (rounds : Nat) :
    Keeps accepted (repeating condition body rounds) H m (· = frame)
      (Completes accepted frame p) := by
  induction rounds generalizing H m with
  | zero => exact .stop hsound (.ordinary .unfinished)
  | succ rounds ih =>
      refine (hcondition hsound hstands).next ?_
      intro v H₁ m₁ hlater _
      have hstands₁ := hlater.stands hsound (fun h => h) hstands
      split
      · refine (hbody hlater.sound hstands₁).bind (fun _ _ h => h) (fun _ _ h => h) ?_
        intro completion H₂ m₂ hlater' hcompletes
        cases completion with
        | none => exact ih hlater'.sound (hcompletes.1 rfl)
        | some v => exact .pure hlater'.sound hcompletes
      · exact .pure hlater.sound ⟨fun _ => hstands₁, by simp⟩

end Statements

section Nodes

variable
  (hall : ∀ program, accepted program → Accepted program)
  {evaluate : FrameId → Expr → Recorded Value}
  (hevaluate : EvaluatesWell accepted evaluate)
include hevaluate

/-- Expressions are evaluated one after the other. -/
theorem keeps_values
    {program : List Stmt}
    (haccepted : accepted program)
    {p : Site}
    {es : List Expr}
    (hreaches : ∀ e ∈ es, Reaches program p (.expression e))
    {H : History}
    {m : Machine}
    (hsound : Sound accepted H m)
    {frame : FrameId}
    (hstands : Stands H m.store frame p) :
    Keeps accepted (values (evaluate frame) (Expr.resolveAll p.context es)) H m nowhere
      fun vs H' m' => ∀ v ∈ vs, ValueFits accepted H' m'.store v := by
  induction es generalizing H m with
  | nil => exact .pure hsound (by simp)
  | cons e es ih =>
      refine (hevaluate haccepted (hreaches e List.mem_cons_self) hsound (.here hstands)).next ?_
      intro v H₁ m₁ hlater hv
      refine (ih (fun e' he' => hreaches e' (List.mem_cons_of_mem e he')) hlater.sound
        (hlater.stands hsound (fun h => h) hstands)).next ?_
      intro vs H₂ m₂ hlater' hvs
      refine .pure hlater'.sound fun v' hv' => ?_
      rcases List.mem_cons.mp hv' with rfl | hv'
      · exact hlater'.value hv
      · exact hvs v' hv'

/-- An expression that may be absent. -/
theorem keeps_orNil
    {program : List Stmt}
    (haccepted : accepted program)
    {p : Site}
    {e : Option Expr}
    (hreaches : ∀ e' ∈ e, Reaches program p (.expression e'))
    {H : History}
    {m : Machine}
    (hsound : Sound accepted H m)
    {frame : FrameId}
    (hstands : Stands H m.store frame p) :
    Keeps accepted (orNil (evaluate frame) (e.map (Expr.resolve p.context))) H m nowhere
      fun v H' m' => ValueFits accepted H' m'.store v := by
  cases e with
  | none => exact .pure hsound trivial
  | some e => exact hevaluate haccepted (hreaches e rfl) hsound (.here hstands)

/-- A new name is bound to the value that initializes it. -/
theorem keeps_initialize
    {program : List Stmt}
    (haccepted : accepted program)
    {H : History}
    {m : Machine}
    (hsound : Sound accepted H m)
    {frame : FrameId}
    {p : Site}
    (hstands : Stands H m.store frame p)
    {name : Token}
    (hname : name.IsName)
    (hfree : p.context.innermost? name = none)
    {e : Option Expr}
    (hreaches : ∀ e' ∈ e, Reaches program (p.moved (p.context.declare name)) (.expression e'))
    {standing : Standing}
    {constant : Bool}
    (hstanding : standing.flag? = some constant)
    {c : Context}
    (hc : c.scopes = declareIn name.lexeme standing p.context.scopes) :
    Keeps accepted
      (do
        let value ← orNil (evaluate frame) (e.map (Expr.resolve (p.context.declare name)))
        bindDeclared frame name value constant
        pure none)
      H m (· = frame) (Completes accepted frame (p.moved c)) := by
  refine (keeps_orNil hevaluate haccepted hreaches hsound (hstands.declare hfree)).next ?_
  intro v H₁ m₁ hlater hv
  have hstands₁ := hlater.stands hsound (fun h => h) hstands
  refine (keeps_bindDeclared hlater.sound hstands₁ hname hfree standing hstanding hc v
    fun H' store' hH _ hgrows => hv.grow hH hgrows).followed ?_
  exact fun _ _ _ hlater' hafter => .pure hlater'.sound ⟨fun _ => hafter.1, by simp⟩

omit hevaluate

/-- The value of a unary operator holds no functions or classes. -/
theorem valueFits_unary
    {operand v : Value}
    {operator : Token}
    (h : operand.unary operator = .ok v)
    {H : History}
    {store : Store} :
    ValueFits accepted H store v := by
  unfold Value.unary at h
  split at h
  · cases h
    trivial
  · split at h <;> cases h
    trivial
  · cases h

theorem valueFits_onNumbers
    {f : Float → Float → Value}
    {H : History}
    {store : Store}
    (hf : ∀ x y, ValueFits accepted H store (f x y))
    {left right v : Value}
    (h : onNumbers f left right = .ok v) :
    ValueFits accepted H store v := by
  unfold onNumbers at h
  split at h <;> cases h
  exact hf _ _

/-- The value of a binary operator holds no functions or classes. -/
theorem valueFits_binary
    {left right v : Value}
    {operator : Token}
    (h : left.binary operator right = .ok v)
    {H : History}
    {store : Store} :
    ValueFits accepted H store v := by
  unfold Value.binary at h
  split at h
  case h_3 =>
    unfold Value.add at h
    split at h <;> cases h <;> trivial
  case h_11 => cases h
  case h_1 | h_2 => cases h; trivial
  all_goals
    refine valueFits_onNumbers ?_ h
    exact fun _ _ => trivial

/-- The operators of parsed texts fail for their operands alone. -/
theorem ordinary_unary
    {operand : Value}
    {operator : Token}
    (hoperator : operator.kind ∈ unaryKinds)
    {fault : RuntimeFault}
    (h : operand.unary operator = .error fault)
    (line : Int) :
    Interrupt.Ordinary (.error ⟨fault, some line⟩) := by
  unfold Value.unary at h
  split at h
  · cases h
  · split at h <;> cases h
    exact .fault _ trivial (by simp)
  · next hbang hminus =>
      simp only [unaryKinds, List.mem_cons, List.not_mem_nil, or_false] at hoperator
      exact (hoperator.elim hbang hminus).elim

theorem ordinary_onNumbers
    {f : Float → Float → Value}
    {left right : Value}
    {fault : RuntimeFault}
    (h : onNumbers f left right = .error fault)
    (line : Int) :
    Interrupt.Ordinary (.error ⟨fault, some line⟩) := by
  unfold onNumbers at h
  split at h <;> cases h
  exact .fault _ trivial (by simp)

theorem ordinary_add
    {left right : Value}
    {fault : RuntimeFault}
    (h : left.add right = .error fault)
    (line : Int) :
    Interrupt.Ordinary (.error ⟨fault, some line⟩) := by
  unfold Value.add at h
  split at h <;> cases h
  exact .fault _ trivial (by simp)

theorem ordinary_binary
    {left right : Value}
    {operator : Token}
    (hoperator : operator.kind ∈ binaryKinds)
    {fault : RuntimeFault}
    (h : left.binary operator right = .error fault)
    (line : Int) :
    Interrupt.Ordinary (.error ⟨fault, some line⟩) := by
  unfold Value.binary at h
  split at h
  case h_1 | h_2 => cases h
  case h_3 => exact ordinary_add h line
  case h_11 =>
    simp only [binaryKinds, List.mem_cons, List.not_mem_nil, or_false] at hoperator
    simp_all
  all_goals exact ordinary_onNumbers h line

/-- The link of the instance leads to a frame. -/
theorem Present.leads_this
    {H : History}
    {store : Store}
    {f : FrameId}
    {p : Site}
    {e : Expr}
    (h : Present H store f p e)
    {link : Link}
    (hlink : link = .unresolved) :
    ((p.context.thisLink link).leadsTo? store f).isSome := by
  unfold Context.thisLink
  split
  · subst hlink
    rfl
  · exact h.leads (Context.depth_link hlink)

/-- The evaluation of a name takes no note of anything else. -/
theorem readsAtOnce (rounds room : Nat) : ReadsAtOnce (Code.evaluate rounds room) := by
  intro frame r m v m' h
  cases room with
  | zero => cases h
  | succ room => rfl

/-- An expression is evaluated well if its parts and the bodies that it calls are run well. -/
theorem evaluatesWell_succ
    (hall : ∀ program, accepted program → Accepted program)
    {rounds room : Nat}
    (hevaluate : EvaluatesWell accepted (Code.evaluate rounds room))
    (hexecute : ExecutesWell accepted (Code.execute rounds room)) :
    EvaluatesWell accepted (Code.evaluate rounds (room + 1)) := by
  intro program p e H m frame haccepted hreaches hsound hpresent
  simp only [Code.evaluate]
  refine Keeps.next (Q := fun _ _ _ => True)
    (.note hsound ⟨program, p, e, haccepted, hreaches, rfl, hpresent⟩ trivial) ?_
  intro _ H₁ m₁ hlater _
  have hsound₁ := hlater.sound
  have hpresent₁ := hlater.present hsound hpresent
  have hworded : e.Worded := (hreaches.every (hall program haccepted).worded).here
  have hunlinked : ∀ r ∈ e.references .written, r.link = .unresolved := fun r hr =>
    ((hreaches.accepted (hall program haccepted)).2 r hr).1
  have hstands : (∀ r, e ≠ .read r) → Stands H₁ m₁.store frame p := fun he =>
    hlater.stands hsound (fun h => h) (hpresent.stands he)
  have hpart : ∀ {part H' m'}, part ∈ e.parts → Sound accepted H' m' → Stands H' m'.store frame p →
      Keeps accepted (Code.evaluate rounds room frame (part.resolve p.context)) H' m' nowhere
        fun v H' m' => ValueFits accepted H' m'.store v := fun hmem hsound' hstands' =>
    hevaluate haccepted (hreaches.part hmem) hsound' (.here hstands')
  cases e with
  | literal value => cases value <;> exact .pure hsound₁ trivial
  | grouping inner => exact hpart (by simp [Expr.parts]) hsound₁ (hstands (by simp))
  | unary operator operand =>
      refine (hpart (by simp [Expr.parts]) hsound₁ (hstands (by simp))).next ?_
      intro v H₂ m₂ hlater' _
      exact .lookValue hlater'.sound (looks_ofExcept (fun _ h => valueFits_unary h)
        fun _ h => ordinary_unary hworded h _)
  | binary left operator right =>
      have hstands₁ := hstands (by simp)
      refine (hpart (by simp [Expr.parts]) hsound₁ hstands₁).next ?_
      intro l H₂ m₂ hlater' _
      refine (hpart (by simp [Expr.parts]) hlater'.sound
        (hlater'.stands hsound₁ (fun h => h) hstands₁)).next ?_
      intro r H₃ m₃ hlater'' _
      exact .lookValue hlater''.sound (looks_ofExcept (fun _ h => valueFits_binary h)
        fun _ h => ordinary_binary hworded h _)
  | logical left operator right =>
      have hstands₁ := hstands (by simp)
      refine (hpart (by simp [Expr.parts]) hsound₁ hstands₁).next ?_
      intro l H₂ m₂ hlater' hl
      split
      · exact .pure hlater'.sound hl
      · exact hpart (by simp [Expr.parts]) hlater'.sound
          (hlater'.stands hsound₁ (fun h => h) hstands₁)
  | read target =>
      have hlink := hunlinked ⟨.read, target.name, target.link⟩ (by simp [Expr.references])
      exact .readName hsound₁ _ (hpresent₁.leads (Context.depth_link hlink))
  | readConstant target =>
      have hlink := hunlinked ⟨.readConstant, target.name, target.link⟩ (by simp [Expr.references])
      exact .readName hsound₁ _ (hpresent₁.leads (Context.depth_link hlink))
  | assign target value =>
      have hlink := hunlinked ⟨.assign, target.name, target.link⟩ (by simp [Expr.references])
      exact keeps_assign hsound₁ (hstands (by simp)) hreaches.settled hlink hworded
        (hpart (by simp [Expr.parts]))
  | call callee closing arguments =>
      have hstands₁ := hstands (by simp)
      refine (hpart (by simp [Expr.parts]) hsound₁ hstands₁).next ?_
      intro f H₂ m₂ hlater' hf
      refine (keeps_values hevaluate haccepted
        (fun e he => hreaches.part (List.mem_cons_of_mem callee he)) hlater'.sound
        (hlater'.stands hsound₁ (fun h => h) hstands₁)).next ?_
      intro vs H₃ m₃ hlater'' hvs
      exact keeps_call (runsWell_untilReturn hexecute) hlater''.sound hvs
        (hlater''.value hf) closing
  | get object name =>
      refine (hpart (by simp [Expr.parts]) hsound₁ (hstands (by simp))).next ?_
      intro o H₂ m₂ hlater' ho
      exact keeps_getProperty hlater'.sound ho name
  | set object name value =>
      have hstands₁ := hstands (by simp)
      refine (hpart (by simp [Expr.parts]) hsound₁ hstands₁).next ?_
      intro o H₂ m₂ hlater' ho
      exact keeps_setProperty hlater'.sound o name (hpart (by simp [Expr.parts]) hlater'.sound
        (hlater'.stands hsound₁ (fun h => h) hstands₁))
  | this keyword link =>
      have hlink := hunlinked ⟨.this, keyword, link⟩ (by simp [Expr.references])
      exact .readName hsound₁ _ (hpresent₁.leads_this hlink)
  | super keyword method link =>
      obtain ⟨q, name, methods, inner, hamong, _⟩ :=
        hreaches.inMethod_super (hall program haccepted)
      obtain ⟨owner, parent, id, c, hframes, hc, _⟩ :=
        hsound₁.superFrames hamong (hstands (by simp)).fits
      have hdepth : (p.context.link "super" link).depth = some (inner.length + 1) := by
        simp [Context.link, hamong.findScope?_super]
      exact keeps_getInherited hsound₁ hdepth hframes hc _ _

/-- A statement is executed well if its parts are run well. -/
theorem executesWell_succ
    (hall : ∀ program, accepted program → Accepted program)
    {rounds room : Nat}
    (hevaluate : EvaluatesWell accepted (Code.evaluate rounds room))
    (hexecute : ExecutesWell accepted (Code.execute rounds room)) :
    ExecutesWell accepted (Code.execute rounds (room + 1)) := by
  intro program p s H m frame haccepted hreaches hsound hstands
  obtain ⟨⟨_, hclean⟩, hparsed⟩ := hreaches.accepted (hall program haccepted)
  have hworded : s.Worded := (hreaches.every (hall program haccepted).worded).here
  have hpart : ∀ {part H' m'}, part ∈ s.parts → Sound accepted H' m' → Stands H' m'.store frame p →
      Keeps accepted (Code.evaluate rounds room frame (part.resolve p.context)) H' m' nowhere
        fun v H' m' => ValueFits accepted H' m'.store v := fun hmem hsound' hstands' =>
    hevaluate haccepted (hreaches.own hmem) hsound' (.here hstands')
  have hbranch : ∀ {branch H' m'}, Reaches program p (.statement branch) →
      branch.isDeclaration = false → branch.AsParsed → Sound accepted H' m' →
      Stands H' m'.store frame p →
      Keeps accepted (Code.execute rounds room frame (branch.resolve p.context)) H' m' (· = frame)
        (Completes accepted frame p) := by
    intro branch H' m' hreaches' hdeclaration hparsed' hsound' hstands'
    have hafter := Stmt.contextAfter_of_isDeclaration_eq_false hdeclaration hparsed' p.context
    simpa [hafter] using hexecute haccepted hreaches' hsound' hstands'
  simp only [Code.execute]
  cases s with
  | block body =>
      refine keeps_completes hsound hstands ?_
      refine (Keeps.openFrame hsound (.block _) frame [] (by simp) (fun h => by cases h)).inside ?_
      intro inner H₁ m₁ hlater hopened
      have hinner : Stands H₁ m₁.store inner (p.inBlock body) :=
        hopened.stands hsound.global [] rfl rfl (by simp) (hlater.fits hstands.fits)
      exact (runsWell_untilReturn hexecute haccepted hreaches.block hlater.sound hinner).mono
        (fun g _ hg => Nat.le_of_eq (hopened.new.symm.trans hg.symm)) fun _ _ _ _ h => h
  | exprStmt e =>
      refine keeps_completes hsound hstands ?_
      refine (hpart (by simp [Stmt.parts]) hsound hstands).next ?_
      exact fun _ _ _ hlater _ => .pure hlater.sound (by simp)
  | printStmt e =>
      refine keeps_completes hsound hstands ?_
      refine (hpart (by simp [Stmt.parts]) hsound hstands).next ?_
      intro v H₁ m₁ hlater _
      refine (Keeps.aside hlater.sound (x := Run.print v.text) rfl rfl rfl).next ?_
      exact fun _ _ _ hlater' _ => .pure hlater'.sound (by simp)
  | returnStmt keyword value =>
      refine keeps_completes hsound hstands ?_
      refine (keeps_orNil hevaluate haccepted (e := value) ?_ hsound hstands).map ?_
      · rintro e rfl
        exact hreaches.own (by simp [Stmt.parts])
      · exact fun v _ _ _ hv => by simpa using hv
  | funDecl f =>
      simp only [Stmt.errors, List.append_eq_nil_iff, Context.declarationErrors_eq_nil] at hclean
      refine (keeps_declareFunction hsound haccepted hstands hreaches hworded hclean.1).followed ?_
      exact fun _ _ _ hlater hafter => .pure hlater.sound ⟨fun _ => hafter, by simp⟩
  | classDecl name parent methods =>
      simp only [Stmt.errors, List.append_eq_nil_iff, Context.declarationErrors_eq_nil] at hclean
      refine (keeps_superclassOf hsound haccepted hstands hevaluate (readsAtOnce rounds room)
        hreaches hparsed.1 ?_).next ?_
      · rintro inherited rfl
        simp only [superclassErrors, List.append_eq_nil_iff] at hclean
        exact hclean.1.2.1
      rintro superclass H₁ m₁ hlater ⟨hderived, hsuperclass⟩
      refine (keeps_declareClass hlater.sound haccepted (hlater.stands hsound (fun h => h) hstands)
        hreaches hworded hclean.1.1 hderived hsuperclass).followed ?_
      exact fun _ _ _ hlater' hafter => .pure hlater'.sound ⟨fun _ => hafter, by simp⟩
  | varDecl name initializer =>
      simp only [Stmt.errors, List.append_eq_nil_iff, Context.declarationErrors_eq_nil] at hclean
      exact keeps_initialize hevaluate haccepted hsound hstands hworded hclean.1
        (fun e he => hreaches.initializer (by cases he; rfl)) rfl rfl
  | constDecl name initializer =>
      have hfree : p.context.innermost? name = none := by
        cases initializer with
        | none => simp [Stmt.errors] at hclean
        | some e =>
            simp only [Stmt.errors, List.append_eq_nil_iff,
              Context.declarationErrors_eq_nil] at hclean
            exact hclean.1
      exact keeps_initialize hevaluate haccepted hsound hstands hworded hfree
        (fun e he => hreaches.initializer (by cases he; rfl)) rfl rfl
  | ifStmt condition thenBranch elseBranch =>
      rw [Stmt.contextAfter_of_isDeclaration_eq_false (s := .ifStmt condition thenBranch elseBranch)
        rfl hparsed, Site.moved_self]
      cases elseBranch with
      | none =>
          refine (hpart (by simp [Stmt.parts]) hsound hstands).next ?_
          intro v H₁ m₁ hlater _
          have hstands₁ := hlater.stands hsound (fun h => h) hstands
          split
          · exact hbranch hreaches.thenBranch hparsed.2.1 hparsed.2.2 hlater.sound hstands₁
          · exact .pure hlater.sound ⟨fun _ => hstands₁, by simp⟩
      | some other =>
          obtain ⟨_, ⟨hthen, hthenParsed⟩, helse, helseParsed⟩ := hparsed
          have hcontext := Stmt.contextAfter_of_isDeclaration_eq_false hthen hthenParsed p.context
          have hother := hreaches.elseBranch
          rw [hcontext, Site.moved_self] at hother
          refine (hpart (by simp [Stmt.parts]) hsound hstands).next ?_
          intro v H₁ m₁ hlater _
          have hstands₁ := hlater.stands hsound (fun h => h) hstands
          split
          · exact hbranch hreaches.thenBranch hthen hthenParsed hlater.sound hstands₁
          · rw [hcontext]
            exact hbranch hother helse helseParsed hlater.sound hstands₁
  | whileStmt condition body =>
      rw [Stmt.contextAfter_of_isDeclaration_eq_false (s := .whileStmt condition body) rfl hparsed,
        Site.moved_self]
      exact keeps_repeating hsound hstands (hpart (by simp [Stmt.parts]))
        (hbranch hreaches.loopBody hparsed.2.1 hparsed.2.2) rounds

variable
  (hall : ∀ program, accepted program → Accepted program)
  (rounds room : Nat)
include hall

/-- Expressions are evaluated well and statements are executed well, given whatever room. -/
theorem runsWell :
    EvaluatesWell accepted (Code.evaluate rounds room)
      ∧ ExecutesWell accepted (Code.execute rounds room) := by
  induction room with
  | zero =>
      refine ⟨fun _ _ _ _ _ _ _ _ hsound _ => ?_, fun _ _ _ _ _ _ _ _ hsound _ => ?_⟩
      · simp only [Code.evaluate]
        exact .stop hsound (.ordinary .overflow)
      · simp only [Code.execute]
        exact .stop hsound (.ordinary .overflow)
  | succ room ih =>
      exact ⟨evaluatesWell_succ hall ih.1 ih.2, executesWell_succ hall ih.1 ih.2⟩

/-- A program is run from a sound machine to a sound machine, through fine moments. -/
theorem keeps_program
    (limits : Limits)
    {program : List Stmt}
    (haccepted : accepted program)
    {H : History}
    {m : Machine}
    (hsound : Sound accepted H m) :
    Keeps accepted (Machine.recordProgram limits (resolveProgram program)) H m (· = globalFrame)
      fun _ _ _ => True :=
  keeps_each (runsWell hall limits.rounds limits.running).2 haccepted .program rfl hsound

end Nodes

end Lox
