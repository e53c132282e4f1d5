import Lox.Machine.Lookup
import Lox.Proofs.Value.Relabel

/-!
# Running relabeled programs

The machine looks at the line of a token only to report an error there, and at a link only to find
the frame of a name.  So a relabeled program on a relabeled machine does what the program does on
the machine, if each link is looked up as what it stood for before.

**Main definition.**
* `Relabels`: code does on relabeled machines what other code does on machines.

**Results.**
* `Run.evaluateBy_relabels`, `Run.executeBy_relabels`: running commutes with relabeling.
-/

namespace Lox

/-- A machine on which some texts have been printed before. -/
def Machine.after (before : Array String) (m : Machine) : Machine :=
  { m with printed := before ++ m.printed }

/-- What running code leads to, with everything relabeled and some texts printed before. -/
def relabelResult
    {α β : Type}
    (c : Relabeling)
    (before : Array String)
    (φ : α → β) :
    EStateM.Result Interrupt Machine α → EStateM.Result Interrupt Machine β
  | .ok a m => .ok (φ a) ((m.relabel c).after before)
  | .error interrupt m => .error (interrupt.relabel c) ((m.relabel c).after before)

/--
Code does on relabeled machines what other code does on machines.  What has been printed before does
not matter to it.
-/
def Relabels
    {α β : Type}
    (c : Relabeling)
    (φ : α → β)
    (x : Run α)
    (y : Run β) : Prop :=
  ∀ (before : Array String) (m : Machine),
    y ((m.relabel c).after before) = relabelResult c before φ (x m)

namespace Relabels

variable {α β γ δ : Type} {c : Relabeling} {φ : α → β} {ψ : γ → δ}

/-- A result without code is relabeled. -/
theorem pure
    {a : α}
    {b : β}
    (h : b = φ a) :
    Relabels c φ (Pure.pure a) (Pure.pure b) :=
  fun _ _ => by rw [h]; rfl

/-- Code after code. -/
theorem bind
    {x : Run α}
    {y : Run β}
    {f : α → Run γ}
    {g : β → Run δ}
    (hx : Relabels c φ x y)
    (hf : ∀ a, Relabels c ψ (f a) (g (φ a))) :
    Relabels c ψ (x >>= f) (y >>= g) := by
  intro before m
  change EStateM.bind y g ((m.relabel c).after before) =
    relabelResult c before ψ (EStateM.bind x f m)
  simp only [EStateM.bind, hx before m]
  cases x m with
  | ok a m' => exact hf a before m'
  | error interrupt m' => rfl

/-- What is made of a relabeled result is relabeled. -/
theorem map
    {x : Run α}
    {y : Run β}
    {f : α → γ}
    {g : β → δ}
    (hx : Relabels c φ x y)
    (hf : ∀ a, g (φ a) = ψ (f a)) :
    Relabels c ψ (f <$> x) (g <$> y) :=
  hx.bind fun a => .pure (hf a)

end Relabels

namespace Run

variable (c : Relabeling)

/-- A failure is moved to the line of its token. -/
theorem fail_relabels {α β : Type} {φ : α → β} (fault : RuntimeFault) (place : Token) :
    Relabels c φ (fail fault place) (fail fault (place.relabel c)) :=
  fun _ _ => rfl

/-- A fault that depends on no lines is moved to the line of its token. -/
theorem ofExcept_relabels
    {α β : Type}
    {φ : α → β}
    {r : Except RuntimeFault α}
    {r' : Except RuntimeFault β}
    (h : r' = r.map φ)
    (place : Token) :
    Relabels c φ (ofExcept place r) (ofExcept (place.relabel c) r') := by
  subst h
  cases r <;> exact fun _ _ => rfl

/-- A fault of the store is moved to the line of its token. -/
theorem ofAccess_relabels
    {α β : Type}
    {φ : α → β}
    {r : Except AccessFault α}
    {r' : Except AccessFault β}
    (h : r' = r.map φ)
    (place : Token) :
    Relabels c φ (ofAccess place r) (ofAccess (place.relabel c) r') := by
  subst h
  rcases r with (_ | _) | _ <;> exact fun _ _ => rfl

/-- A new frame holds relabeled values. -/
theorem newFrame_relabels (enclosing : FrameId) (bindings : List (String × Value)) :
    Relabels c id (newFrame enclosing bindings)
      (newFrame enclosing (bindings.map (relabelBinding c))) := by
  intro before m
  simp only [newFrame, relabelResult, Machine.relabel, Machine.after, Store.nextId_relabel, id,
    Store.extend_relabel, Store.defineAll_relabel]

theorem newSerial_relabels : Relabels c id newSerial newSerial :=
  fun _ _ => rfl

/-- A new instance is of a relabeled class. -/
theorem newInstance_relabels (o : ClassObject) :
    Relabels c (fun made => (made.1, made.2.relabel c)) (newInstance o)
      (newInstance (o.relabel c)) := by
  intro before m
  simp [newInstance, relabelResult, Machine.relabel, Machine.after]

/-- A name is defined with a relabeled value. -/
theorem define_relabels (frame : FrameId) (name : String) (v : Value) (constant : Bool) :
    Relabels c id (define frame name v constant) (define frame name (v.relabel c) constant) := by
  intro before m
  simp only [define, relabelResult, Machine.relabel, Machine.after, Store.define_relabel, id]

/-- What is printed does not depend on code. -/
theorem print_relabels (text : String) : Relabels c id (print text) (print text) := by
  intro before m
  simp [print, relabelResult, Machine.relabel, Machine.after]

theorem readClock_relabels : Relabels c id readClock readClock :=
  fun _ _ => rfl

/-- At a distance a relabeled slot is found. -/
theorem findAt_relabels (frame : FrameId) (distance : Nat) (name : String) (place : Token) :
    Relabels c (Store.relabelFound c) (findAt frame distance name place)
      (findAt frame distance name (place.relabel c)) :=
  fun before m => ofAccess_relabels c (m.store.findAt_relabel c frame distance name) place before m

/-- Where a link leads, a relabeled slot is found. -/
theorem locate_relabels (frame : FrameId) (name : Token) (link : Link) :
    Relabels c (Store.relabelFound c) (locate frame name link)
      (locate frame (name.relabel c) link) := by
  unfold locate
  cases link.depth with
  | some distance => exact findAt_relabels c frame distance name.lexeme name
  | none =>
      exact fun before m => ofAccess_relabels c
        (m.store.find_relabel c globalFrame name.lexeme) name before m

theorem getAt_relabels (frame : FrameId) (distance : Nat) (name : String) (place : Token) :
    Relabels c (Value.relabel c) (getAt frame distance name place)
      (getAt frame distance name (place.relabel c)) :=
  (findAt_relabels c frame distance name place).bind fun _ => .pure rfl

/-- To read a name yields a relabeled value. -/
theorem readName_relabels (frame : FrameId) (name : Token) (link : Link) :
    Relabels c (Value.relabel c) (readName frame name link)
      (readName frame (name.relabel c) link) :=
  (locate_relabels c frame name link).bind fun _ => .pure rfl

/-- A slot is given a relabeled value. -/
theorem update_relabels (frame : FrameId) (slot : Slot) (v : Value) :
    Relabels c id (update frame slot v) (update frame (slot.relabel c) (v.relabel c)) := by
  intro before m
  simp only [update, relabelResult, Machine.relabel, Machine.after, Store.update_relabel, id]

/-- A name is assigned a relabeled value. -/
theorem assignName_relabels (frame : FrameId) (name : Token) (link : Link) (v : Value) :
    Relabels c id (assignName frame ⟨name, link⟩ v)
      (assignName frame ⟨name.relabel c, link⟩ (v.relabel c)) :=
  (locate_relabels c frame name link).bind fun found => update_relabels c found.1 found.2 v

/-- A name is given a relabeled value in the nearest frame that binds it. -/
theorem reassign_relabels (frame : FrameId) (name : Token) (v : Value) :
    Relabels c id (reassign frame name v) (reassign frame (name.relabel c) (v.relabel c)) := by
  have hfind : Relabels c (Store.relabelFound c)
      (do ofAccess name ((← get).store.find frame name.lexeme))
      (do ofAccess (name.relabel c) ((← get).store.find frame (name.relabel c).lexeme)) :=
    fun before m => ofAccess_relabels c (m.store.find_relabel c frame name.lexeme) name before m
  exact hfind.bind fun found => update_relabels c found.1 found.2 v

/-- What is a constant does not depend on code. -/
theorem isConstant_relabels (name : Token) (link : Link) :
    Relabels c id (isConstant ⟨name, link⟩) (isConstant ⟨name.relabel c, link⟩) := by
  unfold isConstant
  dsimp only
  split
  · exact .pure rfl
  · split
    · exact .pure rfl
    · intro before m
      exact congrArg (EStateM.Result.ok · ((m.relabel c).after before))
        (m.store.isConstant_relabel c globalFrame name.lexeme)

/-- A field is read as a relabeled value. -/
theorem field?_relabels (id : InstanceId) (name : String) :
    Relabels c (Option.map (Value.relabel c)) (field? id name) (field? id name) := by
  intro before m
  refine congrArg (EStateM.Result.ok · ((m.relabel c).after before)) ?_
  simp only [Machine.relabel, Machine.after, Array.getElem?_map]
  cases m.fields[id]? with
  | none => rfl
  | some fields => exact lookup_relabel c name fields

/-- A field is set to a relabeled value. -/
theorem setField_relabels (id : InstanceId) (name : String) (v : Value) :
    Relabels c (fun u => u) (setField id name v) (setField id name (v.relabel c)) := by
  intro before m
  refine congrArg (EStateM.Result.ok ()) ?_
  simp only [Machine.relabel, Machine.after, Machine.mk.injEq, true_and, and_true]
  apply Array.ext_getElem?
  intro i
  simp only [Array.getElem?_modify, Array.getElem?_map]
  split
  · cases m.fields[i]? <;> simp [putField_relabel]
  · rfl

end Run

namespace Code

variable (c : Relabeling)

/-- A body on other lines returns a relabeled value. -/
theorem untilReturn_relabels
    {f g : Stmt → Run Completion}
    (h : ∀ s, Relabels c (Option.map (Value.relabel c)) (f s) (g (s.relabel c)))
    (body : List Stmt) :
    Relabels c (Option.map (Value.relabel c)) (untilReturn f body)
      (untilReturn g (body.map (Stmt.relabel c))) := by
  induction body with
  | nil => exact .pure rfl
  | cons s rest ih =>
      refine (h s).bind fun completion => ?_
      cases completion with
      | none => exact ih
      | some value => exact .pure rfl

/-- The statements of a program on other lines are run one after the other. -/
theorem each_relabels
    {f g : Stmt → Run Completion}
    (h : ∀ s, Relabels c (Option.map (Value.relabel c)) (f s) (g (s.relabel c)))
    (program : List Stmt) :
    Relabels c id (each f program) (each g (program.map (Stmt.relabel c))) := by
  induction program with
  | nil => exact .pure rfl
  | cons s rest ih => exact (h s).bind fun _ => ih

/-- Several expressions yield relabeled values. -/
theorem values_relabels
    {f g : Expr → Run Value}
    (h : ∀ e, Relabels c (Value.relabel c) (f e) (g (e.relabel c)))
    (es : List Expr) :
    Relabels c (List.map (Value.relabel c)) (values f es) (values g (es.map (Expr.relabel c))) := by
  induction es with
  | nil => exact .pure rfl
  | cons e rest ih => exact (h e).bind fun _ => ih.bind fun _ => .pure rfl

/-- An expression that may be absent yields a relabeled value. -/
theorem orNil_relabels
    {f g : Expr → Run Value}
    (h : ∀ e, Relabels c (Value.relabel c) (f e) (g (e.relabel c)))
    (e : Option Expr) :
    Relabels c (Value.relabel c) (orNil f e) (orNil g (e.map (Expr.relabel c))) := by
  cases e with
  | none => exact .pure rfl
  | some e => exact h e

/-- A loop on other lines goes as many rounds. -/
theorem repeating_relabels
    {condition condition' : Run Value}
    {body body' : Run Completion}
    (hcondition : Relabels c (Value.relabel c) condition condition')
    (hbody : Relabels c (Option.map (Value.relabel c)) body body')
    (rounds : Nat) :
    Relabels c (Option.map (Value.relabel c)) (repeating condition body rounds)
      (repeating condition' body' rounds) := by
  induction rounds with
  | zero => exact fun _ _ => rfl
  | succ rounds ih =>
      refine hcondition.bind fun value => ?_
      rw [Value.isTruthy_relabel]
      split
      · refine hbody.bind fun completion => ?_
        cases completion with
        | none => exact ih
        | some value => exact .pure rfl
      · exact .pure rfl

/-- A frame that is opened holds relabeled values. -/
theorem openFrame_relabels
    (opening opening' : Opening)
    (enclosing : FrameId)
    (bindings : List (String × Value)) :
    Relabels c id (openFrame opening enclosing bindings : Run FrameId)
      (openFrame opening' enclosing (bindings.map (relabelBinding c))) :=
  Run.newFrame_relabels c enclosing bindings

/-- A relabeled method is bound to the same instance. -/
theorem bindMethod_relabels (method : Method) (id : InstanceId) (o : ClassObject) :
    Relabels c (Closure.relabel c) (bindMethod method id o)
      (bindMethod (method.relabel c) id (o.relabel c)) :=
  (openFrame_relabels c _ _ _ [("this", .object id o)]).bind fun _ =>
    (Run.newSerial_relabels c).bind fun _ =>
      .pure (by simp [Closure.relabel, Method.relabel])

/-- The call of a relabeled function yields a relabeled value. -/
theorem callFunction_relabels
    {f g : FrameId → List Stmt → Run Completion}
    (h : ∀ frame body, Relabels c (Option.map (Value.relabel c)) (f frame body)
      (g frame (body.map (Stmt.relabel c))))
    (closure : Closure)
    (arguments : List Value) :
    Relabels c (Value.relabel c) (callFunction f closure arguments)
      (callFunction g (closure.relabel c) (arguments.map (Value.relabel c))) := by
  have hbindings : ((closure.relabel c).declaration.parameters.map Token.lexeme).zip
      (arguments.map (Value.relabel c)) =
        ((closure.declaration.parameters.map Token.lexeme).zip arguments).map
          (relabelBinding c) := by
    simp only [Closure.relabel, FunctionDecl.parameters_relabel, Token.map_lexeme_relabel]
    exact List.zip_map_right ..
  unfold callFunction
  dsimp only
  rw [hbindings]
  refine (openFrame_relabels c _ _ closure.frame _).bind fun frame => ?_
  have hbody := h frame closure.declaration.body
  rw [← FunctionDecl.body_relabel] at hbody
  refine hbody.bind fun completion => ?_
  change Relabels c _ _ (if closure.isInitializer then _ else _)
  split
  · have hname : (closure.relabel c).declaration.name = closure.declaration.name.relabel c :=
      FunctionDecl.name_relabel c closure.declaration
    rw [hname]
    exact Run.getAt_relabels c closure.frame 0 "this" closure.declaration.name
  · refine .pure ?_
    cases completion <;> rfl

/-- The call of a relabeled value yields a relabeled value. -/
theorem call_relabels
    {f g : FrameId → List Stmt → Run Completion}
    (h : ∀ frame body, Relabels c (Option.map (Value.relabel c)) (f frame body)
      (g frame (body.map (Stmt.relabel c))))
    (callee : Value)
    (arguments : List Value)
    (place : Token) :
    Relabels c (Value.relabel c) (call f callee arguments place)
      (call g (callee.relabel c) (arguments.map (Value.relabel c)) (place.relabel c)) := by
  have hinstantiate (o : ClassObject) : Relabels c (Value.relabel c) (instantiate f o arguments)
      (instantiate g (o.relabel c) (arguments.map (Value.relabel c))) := by
    refine (Run.newInstance_relabels c o).bind fun made => ?_
    dsimp only
    rw [ClassObject.method?_relabel]
    cases made.2.method? initializerName with
    | none => exact .pure rfl
    | some method =>
        exact (bindMethod_relabels c method made.1 made.2).bind fun initializer =>
          (callFunction_relabels c h initializer arguments).bind fun _ => .pure rfl
  unfold call
  rw [Value.arity?_relabel, List.length_map]
  cases callee.arity? with
  | none => exact Run.fail_relabels c _ _
  | some arity =>
      dsimp only
      split
      · cases callee with
        | native function =>
            cases function
            exact (Run.readClock_relabels c).bind fun _ => .pure rfl
        | function closure => exact callFunction_relabels c h closure arguments
        | classObject o => exact hinstantiate o
        | _ => exact Run.fail_relabels c _ _
      · exact Run.fail_relabels c _ _

/-- Properties of relabeled values are relabeled. -/
theorem getProperty_relabels (object : Value) (name : Token) :
    Relabels c (Value.relabel c) (getProperty object name)
      (getProperty (object.relabel c) (name.relabel c)) := by
  cases object with
  | object id o =>
      refine (Run.field?_relabels c id name.lexeme).bind fun value => ?_
      cases value with
      | some value => exact .pure rfl
      | none =>
          dsimp only [Option.map_none]
          rw [Token.lexeme_relabel, ClassObject.method?_relabel]
          cases o.method? name.lexeme with
          | some method => exact (bindMethod_relabels c method id o).map fun _ => rfl
          | none => exact Run.fail_relabels c _ _
  | _ => exact Run.fail_relabels c _ _

/-- Methods of relabeled superclasses are relabeled. -/
theorem getInherited_relabels (frame : FrameId) (keyword method : Token) (link : Link) :
    Relabels c (Value.relabel c) (getInherited frame keyword method link)
      (getInherited frame (keyword.relabel c) (method.relabel c) link) := by
  unfold getInherited
  cases link.depth with
  | none => exact Run.fail_relabels c _ _
  | some distance =>
      refine (Run.getAt_relabels c frame distance "super" keyword).bind fun parent => ?_
      cases parent with
      | classObject parent =>
          refine (Run.getAt_relabels c frame (distance - 1) "this" keyword).bind fun receiver => ?_
          cases receiver with
          | object id o =>
              dsimp only [Value.relabel]
              rw [Token.lexeme_relabel, ClassObject.method?_relabel]
              cases parent.method? method.lexeme with
              | some found => exact (bindMethod_relabels c found id o).map fun _ => rfl
              | none => exact Run.fail_relabels c _ _
          | _ => exact Run.fail_relabels c _ _
      | _ => exact Run.fail_relabels c _ _

/-- The superclass of a class is relabeled. -/
theorem superclassOf_relabels
    {f g : Expr → Run Value}
    (h : ∀ e, Relabels c (Value.relabel c) (f e) (g (e.relabel c)))
    (name : Token)
    (parent : Option Expr) :
    Relabels c (Option.map (ClassObject.relabel c)) (superclassOf f name parent)
      (superclassOf g (name.relabel c) (parent.map (Expr.relabel c))) := by
  cases parent with
  | none => exact .pure rfl
  | some parent =>
      have hplace : ((parent.relabel c).name?.getD (name.relabel c)) =
          (parent.name?.getD name).relabel c := by
        rw [Expr.name?_relabel]
        cases parent.name? <;> rfl
      refine (h parent).bind fun value => ?_
      cases value with
      | classObject o => exact .pure rfl
      | _ =>
          dsimp only [Value.relabel]
          rw [hplace]
          exact Run.fail_relabels c _ _

/-- A relabeled class is declared. -/
theorem declareClass_relabels
    (frame : FrameId)
    (name : Token)
    (superclass : Option ClassObject)
    (methods : List FunctionDecl) :
    Relabels c id (declareClass frame name superclass methods : Run Unit)
      (declareClass frame (name.relabel c) (superclass.map (ClassObject.relabel c))
        (methods.map (FunctionDecl.relabel c))) := by
  have hframe : Relabels c id (methodFrame frame name methods superclass : Run FrameId)
      (methodFrame frame (name.relabel c) (methods.map (FunctionDecl.relabel c))
        (superclass.map (ClassObject.relabel c))) := by
    cases superclass with
    | none => exact .pure rfl
    | some parent => exact openFrame_relabels c _ _ frame [("super", .classObject parent)]
  refine (Run.define_relabels c frame name.lexeme .nil false).bind fun _ => hframe.bind fun inner =>
    (Run.newSerial_relabels c).bind fun serial => ?_
  have hlayer := ClassLayer.extending_relabel c ⟨serial, name.lexeme, methods, inner⟩ superclass
  have hreassign := Run.reassign_relabels c frame name
    (.classObject (ClassLayer.extending ⟨serial, name.lexeme, methods, inner⟩ superclass))
  simp only [Value.relabel, ← hlayer] at hreassign
  exact hreassign

/-- A relabeled function is declared. -/
theorem declareFunction_relabels (frame : FrameId) (declaration : FunctionDecl) :
    Relabels c id (declareFunction frame declaration : Run Unit)
      (declareFunction frame (declaration.relabel c)) := by
  refine (Run.newSerial_relabels c).bind fun serial => ?_
  rw [FunctionDecl.name_relabel]
  exact Run.define_relabels c frame declaration.name.lexeme
    (.function ⟨serial, declaration, frame, false⟩) false

/-- An assignment yields a relabeled value. -/
theorem assign_relabels
    {x y : Run Value}
    (h : Relabels c (Value.relabel c) x y)
    (frame : FrameId)
    (name : Token)
    (link : Link) :
    Relabels c (Value.relabel c) (assign frame ⟨name, link⟩ x)
      (assign frame ⟨name.relabel c, link⟩ y) := by
  refine (Run.isConstant_relabels c name link).bind fun constant => ?_
  dsimp only [id]
  split
  · exact Run.fail_relabels c _ _
  · exact h.bind fun v => (Run.assignName_relabels c frame name link v).bind fun _ => .pure rfl

/-- A property is set to a relabeled value. -/
theorem setProperty_relabels
    {x y : Run Value}
    (h : Relabels c (Value.relabel c) x y)
    (object : Value)
    (name : Token) :
    Relabels c (Value.relabel c) (setProperty object name x)
      (setProperty (object.relabel c) (name.relabel c) y) := by
  cases object with
  | object id o =>
      exact h.bind fun v => (Run.setField_relabels c id name.lexeme v).bind fun _ => .pure rfl
  | _ => exact Run.fail_relabels c _ _

end Code

namespace Run

variable (c : Relabeling) (look : Link → Link)

mutual

/-- Evaluation commutes with relabeling: what a link stood for is looked up for the new one. -/
theorem evaluateBy_relabels
    (rounds room : Nat)
    (frame : FrameId)
    (e : Expr) :
    Relabels c (Value.relabel c) (evaluateBy (look ∘ c.link) rounds room frame e)
      (evaluateBy look rounds room frame (e.relabel c)) := by
  match room with
  | 0 => exact fun _ _ => rfl
  | room + 1 =>
      have ihE := evaluateBy_relabels rounds room
      have ihS := executeBy_relabels rounds room
      cases e with
      | literal value => exact .pure (Value.relabel_toValue c value).symm
      | grouping inner => exact ihE frame inner
      | unary operator operand =>
          exact (ihE frame operand).bind fun v =>
            ofExcept_relabels c (v.unary_relabel c operator) operator
      | binary left operator right =>
          exact (ihE frame left).bind fun v => (ihE frame right).bind fun w =>
            ofExcept_relabels c (v.binary_relabel c operator w) operator
      | logical left operator right =>
          refine (ihE frame left).bind fun v => ?_
          rw [Value.decides_relabel]
          split
          · exact .pure rfl
          · exact ihE frame right
      | read target => exact readName_relabels c frame target.name (look (c.link target.link))
      | readConstant target =>
          exact readName_relabels c frame target.name (look (c.link target.link))
      | assign target value =>
          exact Code.assign_relabels c (ihE frame value) frame target.name
            (look (c.link target.link))
      | call callee closing arguments =>
          simp only [Expr.relabel, Expr.relabelAll_eq_map, evaluateBy]
          exact (ihE frame callee).bind fun _ => (Code.values_relabels c (ihE frame) arguments).bind
            fun _ => Code.call_relabels c (fun inner => Code.untilReturn_relabels c (ihS inner))
              _ _ closing
      | get object name =>
          exact (ihE frame object).bind fun o => Code.getProperty_relabels c o name
      | set object name value =>
          exact (ihE frame object).bind fun o =>
            Code.setProperty_relabels c (ihE frame value) o name
      | this keyword link => exact readName_relabels c frame keyword (look (c.link link))
      | super keyword method link =>
          exact Code.getInherited_relabels c frame keyword method (look (c.link link))

/-- Execution commutes with relabeling. -/
theorem executeBy_relabels
    (rounds room : Nat)
    (frame : FrameId)
    (s : Stmt) :
    Relabels c (Option.map (Value.relabel c)) (executeBy (look ∘ c.link) rounds room frame s)
      (executeBy look rounds room frame (s.relabel c)) := by
  match room with
  | 0 => exact fun _ _ => rfl
  | room + 1 =>
      have ihE := evaluateBy_relabels rounds room
      have ihS := executeBy_relabels rounds room
      cases s with
      | block body =>
          simp only [Stmt.relabel, Stmt.relabelAll_eq_map, executeBy]
          exact (Code.openFrame_relabels c _ _ frame []).bind fun inner =>
            Code.untilReturn_relabels c (ihS inner) body
      | funDecl declaration =>
          exact (Code.declareFunction_relabels c frame declaration).bind fun _ => .pure rfl
      | classDecl name parent methods =>
          simp only [Stmt.relabel, FunctionDecl.relabelAll_eq_map, executeBy]
          exact (Code.superclassOf_relabels c (ihE frame) name parent).bind fun superclass =>
            (Code.declareClass_relabels c frame name superclass methods).bind fun _ => .pure rfl
      | varDecl name initializer =>
          exact (Code.orNil_relabels c (ihE frame) initializer).bind fun v =>
            (define_relabels c frame name.lexeme v false).bind fun _ => .pure rfl
      | constDecl name initializer =>
          exact (Code.orNil_relabels c (ihE frame) initializer).bind fun v =>
            (define_relabels c frame name.lexeme v true).bind fun _ => .pure rfl
      | exprStmt expression => exact (ihE frame expression).bind fun _ => .pure rfl
      | ifStmt condition thenBranch elseBranch =>
          cases elseBranch with
          | none =>
              refine (ihE frame condition).bind fun v => ?_
              rw [Value.isTruthy_relabel]
              split
              · exact ihS frame thenBranch
              · exact .pure rfl
          | some other =>
              refine (ihE frame condition).bind fun v => ?_
              rw [Value.isTruthy_relabel]
              split
              · exact ihS frame thenBranch
              · exact ihS frame other
      | printStmt expression =>
          refine (ihE frame expression).bind fun v => ?_
          rw [Value.text_relabel]
          exact (print_relabels c v.text).bind fun _ => .pure rfl
      | returnStmt keyword value =>
          exact (Code.orNil_relabels c (ihE frame) value).map fun _ => rfl
      | whileStmt condition body =>
          exact Code.repeating_relabels c (ihE frame condition) (ihS frame body) rounds

end

/-- The lines of the code do not matter to its execution. -/
theorem execute_relabels
    (f : Int → Int)
    (rounds room : Nat)
    (frame : FrameId)
    (s : Stmt) :
    Relabels (.lines f) (Option.map (Value.relabel (.lines f))) (execute rounds room frame s)
      (execute rounds room frame (s.relabel (.lines f))) := by
  have h := executeBy_relabels (.lines f) id rounds room frame s
  rwa [Relabeling.link_lines, Function.comp_id, executeBy_id, executeBy_id] at h

end Run

end Lox
