import Lox.Proofs.Machine.Execution
import Lox.Proofs.Machine.Registry

/-!
# Chronicled runs

At every event of a run the chronicle knows of the classes and the functions in use.  This is proved
for all code whose nodes are of some kind; it does not matter how the code was made.

**Results.**
* `Chronicled.registers_callFunction`: a function is entered with an argument for each parameter.
* `Chronicled.registers_instantiate`: the call of a class comes to the new instance.
* `Chronicled.registers_declareClass`: a class is made after its superclass.
* `Chronicled.registers_evaluate`, `Chronicled.registers_execute`: all code.
* `Chronicled.registers_interpret`: programs.
-/

namespace Lox

section Kinds

variable (good : Node → Prop)

/-- The parts of a node of a kind are of that kind. -/
def InheritsKind : Prop := ∀ node, good node → ∀ part ∈ node.children, good part

/-- Expressions of a kind are evaluated with a chronicle that knows of what is in use. -/
def EvaluatesRegistered (eval : FrameId → Expr → Chronicled Value) : Prop :=
  ∀ ⦃H m⦄, Registered good H m → ∀ frame e, good (.expression e) →
    KeepsRegister good (eval frame e) H m fun v H' _ => v.Registered good H'

/-- So is code that completes: a body, or a single statement. -/
def CompletesRegistered
    {α : Type}
    (node : α → Node)
    (run : FrameId → α → Chronicled Completion) : Prop :=
  ∀ ⦃H m⦄, Registered good H m → ∀ frame code, good (node code) →
    KeepsRegister good (run frame code) H m fun completion H' _ =>
      ∀ v ∈ completion, v.Registered good H'

end Kinds

variable {good : Node → Prop}

theorem Answered.later
    {H H' : Chronicle}
    (hH : H <+: H')
    {before : Machine}
    {value callee : Value}
    (h : Answered good H before value callee) :
    Answered good H' before value callee := by
  cases callee with
  | function f =>
      intro hspares hf
      obtain ⟨id, c, hreceives, hvalue⟩ := h hspares hf
      exact ⟨id, c, hreceives.later hH, hvalue⟩
  | classObject c => exact h
  | _ => trivial

/-- The result of an operator is neither a function nor a class nor an instance. -/
theorem registered_of_valueFits
    {v : Value}
    {store : Store}
    {K : History}
    (h : ValueFits (fun _ => False) K store v)
    (H : Chronicle) :
    v.Registered good H := by
  have hclass : ∀ {c : ClassObject}, ClassFits (fun _ => False) K store c → False := by
    intro c hc
    obtain ⟨_, _, _, _, _, hnone, _⟩ := hc c (List.suffix_refl _)
    exact hnone
  cases v with
  | function f =>
      obtain ⟨_, _, _, _, hnone, _⟩ := h
      exact hnone.elim
  | classObject c => exact (hclass h).elim
  | object id c => exact (hclass h).elim
  | _ => trivial

/-- Code goes on after a statement that does not return. -/
theorem KeepsRegister.onward
    {H : Chronicle}
    {m : Machine}
    (hm : Registered good H m) :
    KeepsRegister good (Pure.pure (none : Completion)) H m fun completion H' _ =>
      ∀ v ∈ completion, v.Registered good H' :=
  .pure hm fun _ hv => absurd hv (Option.not_mem_none _)

/-- A class is told of that has just been made, after its superclass. -/
theorem KeepsRegister.making
    {H : Chronicle}
    {m : Machine}
    (hm : Registered good H m)
    {c : ClassObject}
    (hserials : ∀ d ∈ H.classes, d.own.serial < c.own.serial)
    (hserial : c.own.serial < m.serial)
    (hsuperclass : ∀ parent, c.superclass? = some parent → parent ∈ H.classes)
    (hcode : ∀ f ∈ c.own.methods, good (.statements f.body)) :
    KeepsRegister good (Chronicled.tell (.makes c)) H m fun _ H' _ => c ∈ H'.classes := by
  have hclasses : Chronicle.classes (H ++ [⟨m, .makes c⟩]) = H.classes ++ [c] := by
    simp [Chronicle.classes, List.filterMap_append, Deed.made?]
  have hc : c ∈ Chronicle.classes (H ++ [⟨m, .makes c⟩]) := by simp [hclasses]
  have hmade : Registered good (H ++ [⟨m, .makes c⟩]) m := by
    refine ⟨hm.values.mono fun _ hv => hv.later (List.prefix_append H _), ?_, ?_, ?_, ?_⟩
    · rw [hclasses]
      exact hm.made.snoc hserials hsuperclass
    · rw [hclasses]
      exact List.forall_mem_append.mpr ⟨hm.serials, List.forall_mem_singleton.mpr hserial⟩
    · rw [hclasses]
      exact List.forall_mem_append.mpr ⟨hm.code, List.forall_mem_singleton.mpr hcode⟩
    · rintro hspares f id d ⟨y, hy, hdeed⟩
      rcases List.mem_append.mp hy with hy | hy
      · exact hm.receivers hspares f id d ⟨y, hy, hdeed⟩
      · cases List.mem_singleton.mp hy
        cases hdeed
  refine (KeepsRegister.tell ⟨hmade, List.forall_mem_singleton.mpr hc, trivial⟩).mono ?_
  rintro _ _ _ ⟨rfl, -⟩
  exact hc

/-- An initializer finds the instance for which it was made. -/
theorem KeepsRegister.receiver
    {H : Chronicle}
    {m : Machine}
    (hm : Registered good H m)
    {f : Closure}
    (hf : (Value.function f).Registered good H)
    (hinitializer : f.isInitializer = true)
    (place : Token) :
    KeepsRegister good (Watch.perform (Run.getAt f.frame 0 "this" place)) H m fun v H' _ =>
      v.Registered good H'
        ∧ (SparesThis good → ∃ id c, H'.Receives f id c ∧ v = .object id c) := by
  have hlook : Looks (Run.getAt f.frame 0 "this" place) m (fun v => v.Registered good H)
      fun _ => True :=
    looks_bind (looks_slot_findAt m f.frame 0 "this" place) fun found hslot =>
      looks_pure (P := Value.Registered good H) (hm.values.slots found.1 "this" found.2 hslot)
  refine .perform (fun v m' hv => ?_) fun interrupt m' h => (hlook.2 interrupt m' h).1 ▸ hm
  obtain ⟨rfl, hregistered⟩ := hlook.1 v m' hv
  refine ⟨hm, hregistered, fun hspares => ?_⟩
  obtain ⟨id, c, hreceives⟩ := hf.2 hinitializer
  have hslot := hm.receivers hspares f id c hreceives
  have hfound := Run.getAt_eq_ok (d := 0) rfl hslot place
  exact ⟨id, c, hreceives, (EStateM.Result.ok.inj (hv.symm.trans hfound)).1⟩

namespace Chronicled

section Statements

variable
  (hkind : InheritsKind good)
  {step : FrameId → Stmt → Chronicled Completion}
  (hstep : CompletesRegistered good .statement step)
include hkind hstep

theorem registers_untilReturn :
    CompletesRegistered good .statements fun frame => Code.untilReturn (step frame) := by
  intro H m hm frame body hbody
  induction body generalizing H m with
  | nil => exact .onward hm
  | cons s rest ih =>
      have hparts := hkind _ hbody
      refine (hstep hm frame s (hparts _ (by simp [Node.children]))).bind
        fun completion H' m' _ hm' hcompletion => ?_
      cases completion with
      | none => exact ih hm' (hparts _ (by simp [Node.children]))
      | some v => exact .pure hm' hcompletion

theorem registers_each
    {H : Chronicle}
    {m : Machine}
    (hm : Registered good H m)
    (program : List Stmt)
    (hprogram : good (.statements program)) :
    KeepsRegister good (Code.each (step globalFrame) program) H m fun _ _ _ => True := by
  induction program generalizing H m with
  | nil => exact .pure hm trivial
  | cons s rest ih =>
      have hparts := hkind _ hprogram
      exact (hstep hm globalFrame s (hparts _ (by simp [Node.children]))).bind
        fun _ _ _ _ hm' _ => ih hm' (hparts _ (by simp [Node.children]))

omit hkind

theorem registers_repeating
    {eval : FrameId → Expr → Chronicled Value}
    (heval : EvaluatesRegistered good eval)
    {H : Chronicle}
    {m : Machine}
    (hm : Registered good H m)
    (frame : FrameId)
    {condition : Expr}
    (hcondition : good (.expression condition))
    {body : Stmt}
    (hbody : good (.statement body))
    (rounds : Nat) :
    KeepsRegister good (Code.repeating (eval frame condition) (step frame body) rounds) H m
      fun completion H' _ => ∀ v ∈ completion, v.Registered good H' := by
  induction rounds generalizing H m with
  | zero => exact .stop hm
  | succ rounds ih =>
      refine (heval hm frame condition hcondition).bind fun value H₁ m₁ _ hm₁ _ => ?_
      split
      · refine (hstep hm₁ frame body hbody).bind fun completion H₂ m₂ _ hm₂ hcompletion => ?_
        cases completion with
        | none => exact ih hm₂
        | some v => exact .pure hm₂ hcompletion
      · exact .onward hm₁

end Statements

section Expressions

variable
  {eval : FrameId → Expr → Chronicled Value}
  (heval : EvaluatesRegistered good eval)
  {H : Chronicle}
  {m : Machine}
  (hm : Registered good H m)
include heval hm

theorem registers_values
    (frame : FrameId)
    {es : List Expr}
    (hes : ∀ e ∈ es, good (.expression e)) :
    KeepsRegister good (Code.values (eval frame) es) H m fun vs H' _ =>
      ∀ v ∈ vs, v.Registered good H' := by
  induction es generalizing H m with
  | nil => exact .pure hm nofun
  | cons e rest ih =>
      obtain ⟨he, hrest⟩ := List.forall_mem_cons.mp hes
      refine (heval hm frame e he).bind fun v H₁ m₁ _ hm₁ hv => ?_
      refine (ih hm₁ hrest).bind fun vs H₂ m₂ hH hm₂ hvs => .pure hm₂ ?_
      exact List.forall_mem_cons.mpr ⟨hv.later hH, hvs⟩

theorem registers_orNil
    (frame : FrameId)
    {e : Option Expr}
    (he : ∀ inner ∈ e, good (.expression inner)) :
    KeepsRegister good (Code.orNil (eval frame) e) H m fun v H' _ => v.Registered good H' := by
  cases e with
  | none => exact .pure hm trivial
  | some inner => exact heval hm frame inner (he inner rfl)

/-- A variable or a constant is declared with its first value. -/
theorem registers_initialized
    (frame : FrameId)
    {name : Token}
    (hname : SparesThis good → name.lexeme ≠ "this")
    {initializer : Option Expr}
    (hinitializer : ∀ inner ∈ initializer, good (.expression inner))
    (constant : Bool) :
    KeepsRegister good
      (do
        let value ← Code.orNil (eval frame) initializer
        Code.bindDeclared frame name value constant
        pure (none : Completion))
      H m fun completion H' _ => ∀ v ∈ completion, v.Registered good H' := by
  refine (registers_orNil heval hm frame hinitializer).bind fun v H₁ m₁ _ hm₁ hv => ?_
  exact (KeepsRegister.bindDeclared hm₁ frame name hname hv constant).bind
    fun _ _ _ _ hm₂ _ => .onward hm₂

/-- A superclass was made before the class that is about to be declared. -/
theorem registers_superclassOf
    (frame : FrameId)
    (name : Token)
    {parent : Option Expr}
    (hparent : ∀ inner ∈ parent, good (.expression inner)) :
    KeepsRegister good (Code.superclassOf (eval frame) name parent) H m fun superclass H' _ =>
      ∀ c ∈ superclass, c ∈ H'.classes := by
  cases parent with
  | none => exact .pure hm nofun
  | some inner =>
      refine (heval hm frame inner (hparent inner rfl)).bind fun v H₁ m₁ _ hm₁ hv => ?_
      cases v with
      | classObject c =>
          refine .pure hm₁ fun d hd => ?_
          cases hd
          exact hv
      | _ => exact .stop hm₁

theorem registers_assign
    (frame : FrameId)
    {target : Reference}
    (htarget : SparesThis good → target.name.lexeme ≠ "this")
    {e : Expr}
    (he : good (.expression e)) :
    KeepsRegister good (Code.assign frame target (eval frame e)) H m fun v H' _ =>
      v.Registered good H' := by
  refine (KeepsRegister.aside hm (Run.isConstant_eq m target) rfl rfl (Nat.le_refl _)).bind
    fun constant H₁ m₁ _ hm₁ _ => ?_
  split
  · exact .stop hm₁
  · refine (heval hm₁ frame e he).bind fun v H₂ m₂ _ hm₂ hv => ?_
    exact (KeepsRegister.putFound hm₂ (looks_slot_locate m₂ frame target.name target.link) htarget
      hv).bind fun _ H₃ m₃ hH hm₃ _ => .pure hm₃ (hv.later hH)

theorem registers_setProperty
    (frame : FrameId)
    (object : Value)
    (name : Token)
    {e : Expr}
    (he : good (.expression e)) :
    KeepsRegister good (Code.setProperty object name (eval frame e)) H m fun v H' _ =>
      v.Registered good H' := by
  cases object with
  | object id c =>
      refine (heval hm frame e he).bind fun v H₁ m₁ _ hm₁ hv => ?_
      exact (KeepsRegister.setField hm₁ id name.lexeme hv).bind
        fun _ H₂ m₂ hH hm₂ _ => .pure hm₂ (hv.later hH)
  | _ => exact .stop hm

end Expressions

section Calls

variable
  {body : FrameId → List Stmt → Chronicled Completion}
  (hbody : CompletesRegistered good .statements body)
  {H : Chronicle}
  {m : Machine}
  (hm : Registered good H m)
  {arguments : List Value}
  (harguments : ∀ v ∈ arguments, v.Registered good H)
include hbody hm harguments

/--
A function is entered with an argument for each parameter, and an initializer yields its instance.
-/
theorem registers_callFunction
    {f : Closure}
    (hf : (Value.function f).Registered good H)
    (hcount : arguments.length = f.declaration.arity) :
    KeepsRegister good (callFunction body f arguments) H m fun v H' _ =>
      v.Registered good H' ∧ Answered good H' m v (.function f) := by
  refine (KeepsRegister.openFrame hm (.call f.declaration) f.frame fun b hb =>
    harguments b.2 (List.of_mem_zip hb).2).bind ?_
  rintro _ (H₁ : Chronicle) _ hH₁ hm₁ ⟨rfl, rfl⟩
  have hentered : KeepsRegister good (tell (.enters f arguments m.store.nextId)) H₁ _ _ :=
    .report hm₁ rfl nofun
      (List.forall_mem_cons.mpr ⟨hf.later hH₁, fun v hv => (harguments v hv).later hH₁⟩)
      (entered_newFrame hcount m)
  refine (hentered.bind fun _ H₂ m₂ _ hm₂ _ =>
    hbody hm₂ m.store.nextId f.declaration.body hf.1).bind fun completion H₃ m₃ hH₃ hm₃ hv => ?_
  have hH : H <+: H₃ := hH₁.trans hH₃
  split
  · next hinitializer =>
      exact (KeepsRegister.receiver hm₃ (hf.later hH) hinitializer f.declaration.name).mono
        fun _ _ _ hv => ⟨hv.1, fun hspares _ => hv.2 hspares⟩
  · next hplain =>
      refine .pure hm₃ ⟨?_, fun _ hinitializer => absurd hinitializer hplain⟩
      cases completion with
      | none => trivial
      | some v => exact hv v rfl

/-- The call of a class comes to the new instance. -/
theorem registers_instantiate
    {c : ClassObject}
    (hc : c ∈ H.classes)
    (hcount : arguments.length = c.arity) :
    KeepsRegister good (instantiate body c arguments) H m fun v H' _ =>
      v.Registered good H' ∧ Answered good H' m v (.classObject c) := by
  refine (KeepsRegister.newInstance hm c).bind ?_
  rintro _ (H₁ : Chronicle) m₁ hH₁ hm₁ rfl
  have hc₁ : c ∈ H₁.classes := (Chronicle.classes_later hH₁).subset hc
  have hmade : ∀ {H' : Chronicle}, H₁ <+: H' →
      (Value.object m.fields.size c).Registered good H'
        ∧ Answered good H' m (.object m.fields.size c) (.classObject c) :=
    fun hH' => ⟨(Chronicle.classes_later hH').subset hc₁, rfl⟩
  dsimp only
  -- the search for the initializer that is run is the one by which the arguments were counted
  cases hmethod : c.method? initializerName with
  | none => exact .pure hm₁ (hmade (List.prefix_refl H₁))
  | some method =>
      have harity : c.arity = method.declaration.arity := by simp [ClassObject.arity, hmethod]
      refine (KeepsRegister.bindMethod hm₁ (hm₁.method? hc₁ hmethod) hc₁ m.fields.size).bind ?_
      rintro f (H₂ : Chronicle) m₂ hH₂ hm₂ ⟨hf, hdeclaration⟩
      have harguments₂ : ∀ v ∈ arguments, v.Registered good H₂ :=
        fun v hv => (harguments v hv).later (hH₁.trans hH₂)
      refine (registers_callFunction hbody hm₂ harguments₂ hf
        (hdeclaration ▸ hcount.trans harity)).bind fun _ H₃ m₃ hH₃ hm₃ _ => ?_
      exact .pure hm₃ (hmade (hH₂.trans hH₃))

theorem registers_attempt
    {callee : Value}
    (hcallee : callee.Registered good H)
    (place : Token) :
    KeepsRegister good (attempt body callee arguments place) H m fun v H' _ =>
      v.Registered good H' ∧ Answered good H' m v callee := by
  unfold attempt
  split
  · exact .stop hm
  · next arity harity =>
      split
      · next hlength =>
          have hcount : arguments.length = arity := beq_iff_eq.mp hlength
          cases callee with
          | native f =>
              cases f
              exact (KeepsRegister.aside hm (x := Run.readClock) rfl rfl rfl (Nat.le_refl _)).bind
                fun _ _ _ _ hm₁ _ => .pure hm₁ ⟨trivial, trivial⟩
          | function f =>
              exact registers_callFunction hbody hm harguments hcallee
                (hcount.trans (Option.some.inj harity).symm)
          | classObject c =>
              exact registers_instantiate hbody hm harguments hcallee
                (hcount.trans (Option.some.inj harity).symm)
          | _ => exact .stop hm
      · exact .stop hm

theorem registers_call
    {callee : Value}
    (hcallee : callee.Registered good H)
    (place : Token) :
    KeepsRegister good (call body callee arguments place) H m fun v H' _ =>
      v.Registered good H' := by
  refine (KeepsRegister.look hm (Q := fun before _ m' => before = m ∧ m' = m) (looks_get m)
    fun _ h => ⟨h, rfl⟩).bind ?_
  rintro _ (H₁ : Chronicle) before hH₁ hm₁ ⟨rfl, rfl⟩
  refine (registers_attempt hbody hm₁ (fun v hv => (harguments v hv).later hH₁)
    (hcallee.later hH₁) place).bind fun v H₂ m₂ hH₂ hm₂ hv => ?_
  have hH := hH₁.trans hH₂
  have htold : KeepsRegister good (tell (.answers callee arguments before v)) H₂ m₂
      fun _ _ m' => m' = m₂ :=
    .report hm₂ rfl nofun
      (List.forall_mem_cons.mpr ⟨hcallee.later hH, List.forall_mem_cons.mpr
        ⟨hv.1, fun v hv => (harguments v hv).later hH⟩⟩)
      (hv.2.later (List.prefix_append H₂ _))
  refine htold.bind fun _ H₃ m₃ hH₃ hm₃ _ => ?_
  exact .pure hm₃ (hv.1.later hH₃)

end Calls

section Properties

variable
  {H : Chronicle}
  {m : Machine}
  (hm : Registered good H m)
include hm

/-- A method that is found becomes a function for the instance. -/
theorem registers_method
    {parent c : ClassObject}
    (hparent : parent ∈ H.classes)
    (hc : c ∈ H.classes)
    {name : String}
    {method : Method}
    (hmethod : parent.method? name = some method)
    (id : InstanceId) :
    KeepsRegister good (Value.function <$> bindMethod method id c) H m fun v H' _ =>
      v.Registered good H' :=
  (KeepsRegister.bindMethod hm (hm.method? hparent hmethod) hc id).map fun _ _ _ h => h.1

theorem registers_getProperty
    {object : Value}
    (hobject : object.Registered good H)
    (name : Token) :
    KeepsRegister good (getProperty object name) H m fun v H' _ => v.Registered good H' := by
  cases object with
  | object id c =>
      refine (KeepsRegister.look hm
        (looks_mono (looks_field? id name.lexeme) (fun _ h => h) fun _ _ => trivial)
        (Q := fun found H' _ => ∀ v ∈ found, Value.Registered good H' v)
        fun found hfound v hv => ?_).bind fun found (H₁ : Chronicle) m₁ hH₁ hm₁ hfound => ?_
      · exact hm.values.fields id name.lexeme v (hfound ▸ hv)
      · have hc : c ∈ H₁.classes := (Chronicle.classes_later hH₁).subset hobject
        cases found with
        | some v => exact .pure hm₁ (hfound v rfl)
        | none =>
            dsimp only
            split
            · next method hmethod => exact registers_method hm₁ hc hc hmethod id
            · exact .stop hm₁
  | _ => exact .stop hm

theorem registers_getInherited
    (frame : FrameId)
    (keyword method : Token)
    (link : Link) :
    KeepsRegister good (getInherited frame keyword method link) H m fun v H' _ =>
      v.Registered good H' := by
  unfold getInherited
  split
  · exact .stop hm
  · next distance _ =>
      refine (KeepsRegister.found hm (looks_slot_findAt m frame distance "super" keyword)).bind
        fun parent H₁ m₁ _ hm₁ hparent => ?_
      cases parent with
      | classObject parent =>
          refine (KeepsRegister.found hm₁
            (looks_slot_findAt m₁ frame (distance - 1) "this" keyword)).bind
              fun receiver H₂ m₂ hH₂ hm₂ hreceiver => ?_
          cases receiver with
          | object id c =>
              dsimp only
              split
              · next found hfound =>
                  exact registers_method hm₂ ((Chronicle.classes_later hH₂).subset hparent)
                    hreceiver hfound id
              · exact .stop hm₂
          | _ => exact .stop hm₂
      | _ => exact .stop hm₁

/-- A class is made after its superclass, and told of before its name is bound to it. -/
theorem registers_declareClass
    (frame : FrameId)
    {name : Token}
    (hname : SparesThis good → name.lexeme ≠ "this")
    {superclass : Option ClassObject}
    (hsuperclass : ∀ c ∈ superclass, c ∈ H.classes)
    {methods : List FunctionDecl}
    (hmethods : ∀ f ∈ methods, good (.statements f.body)) :
    KeepsRegister good (declareClass frame name superclass methods) H m fun _ _ _ => True := by
  have hnil : Value.Registered good H .nil := trivial
  refine (KeepsRegister.bindDeclared hm frame name hname hnil false).bind
    fun _ (H₁ : Chronicle) m₁ hH₁ hm₁ _ => ?_
  have hsuperclass₁ : ∀ c ∈ superclass, c ∈ H₁.classes :=
    fun c hc => (Chronicle.classes_later hH₁).subset (hsuperclass c hc)
  have hframe : KeepsRegister good (Code.methodFrame frame name methods superclass) H₁ m₁
      fun _ _ _ => True := by
    cases superclass with
    | none => exact .pure hm₁ trivial
    | some parent =>
        have hbinding : ∀ b ∈ [("super", Value.classObject parent)], b.2.Registered good H₁ :=
          List.forall_mem_singleton.mpr (hsuperclass₁ parent rfl)
        exact (KeepsRegister.openFrame hm₁ (.superclass name methods) frame hbinding).mono
          fun _ _ _ _ => trivial
  refine hframe.bind fun inner (H₂ : Chronicle) m₂ hH₂ hm₂ _ => ?_
  refine (KeepsRegister.newSerial hm₂).bind ?_
  rintro _ (H₃ : Chronicle) _ hH₃ hm₃ ⟨rfl, rfl, hserials⟩
  let c : ClassObject := ClassLayer.extending ⟨m₂.serial, name.lexeme, methods, inner⟩ superclass
  have hown : c.own = ⟨m₂.serial, name.lexeme, methods, inner⟩ := by
    cases superclass <;> rfl
  have hparent : c.superclass? = superclass := by
    cases superclass <;> rfl
  have hmaking : KeepsRegister good (tell (.makes c)) H₃ { m₂ with serial := m₂.serial + 1 }
      fun _ H' _ => c ∈ H'.classes := by
    refine .making hm₃ ?_ ?_ (fun parent h => ?_) ?_
    · rwa [hown]
    · rw [hown]
      exact Nat.lt_succ_self _
    · exact (Chronicle.classes_later (hH₂.trans hH₃)).subset
        (hsuperclass₁ parent (hparent.symm.trans h))
    · rwa [hown]
  refine hmaking.bind fun _ H₄ m₄ _ hm₄ hc => ?_
  exact .putFound hm₄ (looks_slot_find m₄ frame name) hname hc

theorem registers_declareFunction
    (frame : FrameId)
    {declaration : FunctionDecl}
    (hname : SparesThis good → declaration.name.lexeme ≠ "this")
    (hbody : good (.statements declaration.body)) :
    KeepsRegister good (Code.declareFunction frame declaration) H m fun _ _ _ => True := by
  refine (KeepsRegister.newSerial hm).bind fun serial H₁ m₁ _ hm₁ _ => ?_
  have hplain : Value.Registered good H₁ (.function ⟨serial, declaration, frame, false⟩) :=
    ⟨hbody, nofun⟩
  exact .bindDeclared hm₁ frame declaration.name hname hplain false

theorem registers_ofExcept
    {result : Except RuntimeFault Value}
    (h : ∀ v, result = .ok v → ValueFits (fun _ => False) [] m.store v)
    (place : Token) :
    KeepsRegister good (Watch.perform (Run.ofExcept place result)) H m fun v H' _ =>
      v.Registered good H' :=
  .look hm (looks_ofExcept h fun _ _ => trivial) fun _ hv => registered_of_valueFits hv H

end Properties

/-- The value of an expression is told of. -/
theorem registers_yielding
    {x : Chronicled Value}
    {H : Chronicle}
    {m : Machine}
    (hx : KeepsRegister good x H m fun v H' _ => v.Registered good H') :
    KeepsRegister good (yielding x) H m fun v H' _ => v.Registered good H' := by
  refine hx.bind fun v H₁ m₁ _ hm₁ hv => ?_
  have htold : KeepsRegister good (tell (.yields v)) H₁ m₁ fun _ _ m' => m' = m₁ :=
    .report hm₁ rfl nofun (List.forall_mem_singleton.mpr hv) trivial
  exact htold.bind fun _ H₂ m₂ hH₂ hm₂ _ => .pure hm₂ (hv.later hH₂)

section Nodes

variable (hkind : InheritsKind good)
include hkind

mutual

/-- The chronicle of an evaluation knows of what is in use. -/
theorem registers_evaluate (rounds room : Nat) :
    EvaluatesRegistered good (evaluate rounds room) := by
  intro H m hm frame e he
  match room with
  | 0 => exact .stop hm
  | room + 1 =>
      have ihE := registers_evaluate rounds room
      have ihS := registers_execute rounds room
      have hpart {part : Expr} (h : part ∈ e.parts) : good (.expression part) :=
        hkind _ he _ (List.mem_map_of_mem h)
      unfold evaluate
      refine registers_yielding ((KeepsRegister.note hm (.evaluates frame e)).bind
        fun _ H₁ m₁ _ hm₁ _ => ?_)
      cases e with
      | literal value => exact .pure hm₁ (by cases value <;> trivial)
      | grouping inner => exact ihE hm₁ frame inner (hpart (by simp [Expr.parts]))
      | unary operator operand =>
          refine (ihE hm₁ frame operand (hpart (by simp [Expr.parts]))).bind
            fun v H₂ m₂ _ hm₂ _ => ?_
          exact registers_ofExcept hm₂ (fun _ h => valueFits_unary h) operator
      | binary left operator right =>
          refine (ihE hm₁ frame left (hpart (by simp [Expr.parts]))).bind fun l H₂ m₂ _ hm₂ _ => ?_
          refine (ihE hm₂ frame right (hpart (by simp [Expr.parts]))).bind fun r H₃ m₃ _ hm₃ _ => ?_
          exact registers_ofExcept hm₃ (fun _ h => valueFits_binary h) operator
      | logical left operator right =>
          refine (ihE hm₁ frame left (hpart (by simp [Expr.parts]))).bind
            fun l H₂ m₂ _ hm₂ hl => ?_
          split
          · exact .pure hm₂ hl
          · exact ihE hm₂ frame right (hpart (by simp [Expr.parts]))
      | read target => exact .found hm₁ (looks_slot_locate m₁ frame target.name target.link)
      | readConstant target => exact .found hm₁ (looks_slot_locate m₁ frame target.name target.link)
      | assign target value =>
          exact registers_assign ihE hm₁ frame (fun hspares => hspares _ he)
            (hpart (by simp [Expr.parts]))
      | call callee closing arguments =>
          refine (ihE hm₁ frame callee (hpart (by simp [Expr.parts]))).bind
            fun f H₂ m₂ _ hm₂ hf => ?_
          refine (registers_values ihE hm₂ frame fun e h => hpart (by simp [Expr.parts, h])).bind
            fun vs H₃ m₃ hH₃ hm₃ hvs => ?_
          exact registers_call (registers_untilReturn hkind ihS) hm₃ hvs (hf.later hH₃) closing
      | get object name =>
          refine (ihE hm₁ frame object (hpart (by simp [Expr.parts]))).bind
            fun o H₂ m₂ _ hm₂ ho => ?_
          exact registers_getProperty hm₂ ho name
      | set object name value =>
          refine (ihE hm₁ frame object (hpart (by simp [Expr.parts]))).bind
            fun o H₂ m₂ _ hm₂ _ => ?_
          exact registers_setProperty ihE hm₂ frame o name (hpart (by simp [Expr.parts]))
      | this keyword link => exact .found hm₁ (looks_slot_locate m₁ frame keyword link)
      | super keyword method link => exact registers_getInherited hm₁ frame keyword method link

/-- The chronicle of an execution knows of what is in use. -/
theorem registers_execute (rounds room : Nat) :
    CompletesRegistered good .statement (execute rounds room) := by
  intro H m hm frame s hs
  match room with
  | 0 => exact .stop hm
  | room + 1 =>
      have ihE := registers_evaluate rounds room
      have ihS := registers_execute rounds room
      have hpart : ∀ part ∈ s.children, good part := hkind _ hs
      unfold execute
      cases s with
      | block body =>
          refine (KeepsRegister.openFrame hm (.block body) frame (by simp)).bind
            fun inner H₁ m₁ _ hm₁ _ => ?_
          exact registers_untilReturn hkind ihS hm₁ inner body
            (hpart _ (by simp [Stmt.children]))
      | funDecl declaration =>
          have hfunction := hpart (.function .function declaration) (by simp [Stmt.children])
          refine (registers_declareFunction hm frame (fun hspares => hspares _ hs)
            (hkind _ hfunction _ (by simp [Node.children]))).bind fun _ _ _ _ hm₁ _ => ?_
          exact .onward hm₁
      | classDecl name parent methods =>
          refine (registers_superclassOf ihE hm frame name fun inner h =>
            hpart _ (List.mem_append_left _ (List.mem_map_of_mem (Option.mem_toList.mpr h)))).bind
              fun superclass H₁ m₁ _ hm₁ hsuperclass => ?_
          refine (registers_declareClass hm₁ frame (fun hspares => hspares _ hs) hsuperclass
            fun f hf => ?_).bind fun _ _ _ _ hm₂ _ => .onward hm₂
          exact hkind _ (hpart _ (List.mem_append_right _ (List.mem_map_of_mem hf))) _
            (by simp [Node.children])
      | varDecl name initializer =>
          exact registers_initialized ihE hm frame (fun hspares => hspares _ hs)
            (fun inner h => hpart _ (List.mem_map_of_mem (Option.mem_toList.mpr h))) false
      | constDecl name initializer =>
          exact registers_initialized ihE hm frame (fun hspares => hspares _ hs)
            (fun inner h => hpart _ (List.mem_map_of_mem (Option.mem_toList.mpr h))) true
      | exprStmt expression =>
          exact (ihE hm frame expression (hpart _ (by simp [Stmt.children]))).bind
            fun _ _ _ _ hm₁ _ => .onward hm₁
      | ifStmt condition thenBranch elseBranch =>
          refine (ihE hm frame condition (hpart _ (by simp [Stmt.children]))).bind
            fun v H₁ m₁ _ hm₁ _ => ?_
          split
          · exact ihS hm₁ frame thenBranch (hpart _ (by simp [Stmt.children]))
          · cases elseBranch with
            | none => exact .onward hm₁
            | some other =>
                exact ihS hm₁ frame other (hpart _ (by simp [Stmt.children]))
      | printStmt expression =>
          refine (ihE hm frame expression (hpart _ (by simp [Stmt.children]))).bind
            fun v H₁ m₁ _ hm₁ _ => ?_
          exact (KeepsRegister.aside hm₁ (x := Run.print v.text) rfl rfl rfl (Nat.le_refl _)).bind
            fun _ _ _ _ hm₂ _ => .onward hm₂
      | returnStmt keyword value =>
          refine (registers_orNil ihE hm frame fun inner h =>
            hpart _ (List.mem_map_of_mem (Option.mem_toList.mpr h))).map fun v H' _ hv w hw => ?_
          obtain rfl := Option.some.inj hw
          exact hv
      | whileStmt condition body =>
          exact registers_repeating ihS ihE hm frame
            (hpart _ (by simp [Stmt.children]))
            (hpart _ (by simp [Stmt.children])) rounds

end

/-- The chronicle of a program knows of what is in use. -/
theorem registers_interpret
    {H : Chronicle}
    {m : Machine}
    (hm : Registered good H m)
    {program : List Stmt}
    (hprogram : good (.statements program))
    (rounds room : Nat) :
    KeepsRegister good (interpret rounds room program) H m fun _ _ _ => True :=
  registers_each hkind (registers_execute hkind rounds room) hm program hprogram

end Nodes

end Chronicled
end Lox
