import Lox.Proofs.Machine.Execution
import Lox.Proofs.Machine.Receivers

/-!
# Runs among proper initializers

Code of any kind, accepted or not, comes by an initializer in one way only: a method is made for an
instance, in a frame that is opened for it.

**Results.**
* `Code.keepsReceivers_evaluate`, `Code.keepsReceivers_execute`: all code keeps initializers proper.
-/

namespace Lox

/-- Expressions are evaluated among proper initializers. -/
def EvaluatesReceived (eval : FrameId → Expr → Recorded Value) : Prop :=
  ∀ ⦃H m⦄, m.All (Value.Received H) → ∀ frame e,
    KeepsReceivers (eval frame e) H m fun v H' => v.Received H'

/-- A body, or a single statement, is run among proper initializers. -/
def CompletesReceived {α : Type} (run : FrameId → α → Recorded Completion) : Prop :=
  ∀ ⦃H m⦄, m.All (Value.Received H) → ∀ frame code,
    KeepsReceivers (run frame code) H m fun completion H' => ∀ v ∈ completion, v.Received H'

namespace Code

section Statements

variable
  {step : FrameId → Stmt → Recorded Completion}
  (hstep : CompletesReceived step)
include hstep

theorem completesReceived_untilReturn :
    CompletesReceived fun frame => untilReturn (step frame) := by
  intro H m hm frame body
  induction body generalizing H m with
  | nil => exact .pure hm nofun
  | cons s rest ih =>
      refine (hstep hm frame s).bind fun completion H' m' _ hm' hcompletion => ?_
      cases completion with
      | none => exact ih hm'
      | some v => exact .pure hm' hcompletion

theorem keepsReceivers_each
    {H : History}
    {m : Machine}
    (hm : m.All (Value.Received H))
    (program : List Stmt) :
    KeepsReceivers (each (step globalFrame) program) H m fun _ _ => True := by
  induction program generalizing H m with
  | nil => exact .pure hm trivial
  | cons s rest ih => exact (hstep hm globalFrame s).bind fun _ _ _ _ hm' _ => ih hm'

theorem keepsReceivers_repeating
    {eval : FrameId → Expr → Recorded Value}
    (heval : EvaluatesReceived eval)
    {H : History}
    {m : Machine}
    (hm : m.All (Value.Received H))
    (frame : FrameId)
    (condition : Expr)
    (body : Stmt)
    (rounds : Nat) :
    KeepsReceivers (repeating (eval frame condition) (step frame body) rounds) H m
      fun completion H' => ∀ v ∈ completion, v.Received H' := by
  induction rounds generalizing H m with
  | zero => exact .stop hm
  | succ rounds ih =>
      refine (heval hm frame condition).bind fun value H₁ m₁ _ hm₁ _ => ?_
      split
      · refine (hstep hm₁ frame body).bind fun completion H₂ m₂ _ hm₂ hcompletion => ?_
        cases completion with
        | none => exact ih hm₂
        | some v => exact .pure hm₂ hcompletion
      · exact .pure hm₁ nofun

end Statements

section Expressions

variable
  {eval : FrameId → Expr → Recorded Value}
  (heval : EvaluatesReceived eval)
  {H : History}
  {m : Machine}
  (hm : m.All (Value.Received H))
include heval hm

theorem keepsReceivers_values (frame : FrameId) (es : List Expr) :
    KeepsReceivers (values (eval frame) es) H m fun vs H' => ∀ v ∈ vs, v.Received H' := by
  induction es generalizing H m with
  | nil => exact .pure hm nofun
  | cons e rest ih =>
      refine (heval hm frame e).bind fun v H₁ m₁ _ hm₁ hv => ?_
      refine (ih hm₁).bind fun vs H₂ m₂ hH hm₂ hvs => .pure hm₂ ?_
      exact List.forall_mem_cons.mpr ⟨hv.later hH, hvs⟩

theorem keepsReceivers_orNil (frame : FrameId) (e : Option Expr) :
    KeepsReceivers (orNil (eval frame) e) H m fun v H' => v.Received H' := by
  cases e with
  | none => exact .pure hm trivial
  | some e => exact heval hm frame e

theorem keepsReceivers_superclassOf (frame : FrameId) (name : Token) (parent : Option Expr) :
    KeepsReceivers (superclassOf (eval frame) name parent) H m fun _ _ => True := by
  cases parent with
  | none => exact .pure hm trivial
  | some parent =>
      refine (heval hm frame parent).bind fun v H₁ m₁ _ hm₁ _ => ?_
      cases v with
      | classObject c => exact .pure hm₁ trivial
      | _ => exact .stop hm₁

theorem keepsReceivers_assign (frame : FrameId) (target : Reference) (e : Expr) :
    KeepsReceivers (assign frame target (eval frame e)) H m fun v H' => v.Received H' := by
  have hconstant : Looks (Run.isConstant target) m (fun _ => True) fun _ => True :=
    ⟨fun a m' h => by
      rw [Run.isConstant_eq] at h
      cases h
      exact ⟨rfl, trivial⟩, fun interrupt m' h => by
      rw [Run.isConstant_eq] at h
      cases h⟩
  refine (KeepsReceivers.look hm hconstant (Q := fun _ _ => True) fun _ _ => trivial).bind
    fun constant H₁ m₁ _ hm₁ _ => ?_
  split
  · exact .stop hm₁
  · refine (heval hm₁ frame e).bind fun v H₂ m₂ _ hm₂ hv => ?_
    exact (KeepsReceivers.putFound hm₂ (looks_slot_locate m₂ frame target.name target.link)
      hv).bind fun _ H₃ m₃ hH hm₃ _ => .pure hm₃ (hv.later hH)

theorem keepsReceivers_setProperty (frame : FrameId) (object : Value) (name : Token) (e : Expr) :
    KeepsReceivers (setProperty object name (eval frame e)) H m fun v H' => v.Received H' := by
  cases object with
  | object id c =>
      refine (heval hm frame e).bind fun v H₁ m₁ _ hm₁ hv => ?_
      exact (KeepsReceivers.setField hm₁ id name.lexeme hv).bind
        fun _ H₂ m₂ hH hm₂ _ => .pure hm₂ (hv.later hH)
  | _ => exact .stop hm

end Expressions

section Calls

variable
  {run : FrameId → List Stmt → Recorded Completion}
  (hrun : CompletesReceived run)
  {H : History}
  {m : Machine}
  (hm : m.All (Value.Received H))
include hrun hm

theorem keepsReceivers_callFunction
    (f : Closure)
    {arguments : List Value}
    (harguments : ∀ v ∈ arguments, v.Received H) :
    KeepsReceivers (callFunction run f arguments) H m fun v H' => v.Received H' := by
  refine (KeepsReceivers.openFrame hm (.call f.declaration) f.frame fun b hb =>
    harguments b.2 (List.of_mem_zip hb).2).bind fun frame H₁ m₁ _ hm₁ _ => ?_
  refine (hrun hm₁ frame f.declaration.body).bind fun completion H₂ m₂ _ hm₂ hcompletion => ?_
  split
  · exact .found hm₂ (looks_slot_findAt m₂ f.frame 0 "this" f.declaration.name)
  · refine .pure hm₂ ?_
    cases completion with
    | none => trivial
    | some v => exact hcompletion v rfl

theorem keepsReceivers_call
    (callee : Value)
    {arguments : List Value}
    (harguments : ∀ v ∈ arguments, v.Received H)
    (place : Token) :
    KeepsReceivers (call run callee arguments place) H m fun v H' => v.Received H' := by
  unfold call
  split
  · exact .stop hm
  · split
    · cases callee with
      | native f =>
          cases f
          exact (KeepsReceivers.aside hm (x := Run.readClock) rfl rfl rfl (Q := fun _ _ => True)
            trivial).bind fun _ _ _ _ hm₁ _ => .pure hm₁ trivial
      | function f => exact keepsReceivers_callFunction hrun hm f harguments
      | classObject c =>
          refine (KeepsReceivers.newInstance hm c).bind fun made H₁ m₁ hH₁ hm₁ _ => ?_
          dsimp only
          cases made.2.method? initializerName with
          | none => exact .pure hm₁ trivial
          | some method =>
              refine (KeepsReceivers.bindMethod hm₁ method made.1 made.2).bind
                fun f H₂ m₂ hH₂ hm₂ _ => ?_
              exact (keepsReceivers_callFunction hrun hm₂ f
                fun v hv => (harguments v hv).later (hH₁.trans hH₂)).bind
                  fun _ _ _ _ hm₃ _ => .pure hm₃ trivial
      | _ => exact .stop hm
    · exact .stop hm

end Calls

section Properties

variable
  {H : History}
  {m : Machine}
  (hm : m.All (Value.Received H))
include hm

theorem keepsReceivers_getProperty (object : Value) (name : Token) :
    KeepsReceivers (getProperty object name) H m fun v H' => v.Received H' := by
  cases object with
  | object id c =>
      refine (KeepsReceivers.look hm
        (looks_mono (looks_field? id name.lexeme) (fun _ h => h) fun _ _ => trivial)
        (Q := fun found H' => ∀ v ∈ found, Value.Received H' v) fun found hfound v hv => ?_).bind
          fun found H₁ m₁ _ hm₁ hfound => ?_
      · exact hm.fields id name.lexeme v (hfound ▸ hv)
      · cases found with
        | some v => exact .pure hm₁ (hfound v rfl)
        | none =>
            dsimp only
            split
            · next method _ =>
                exact (KeepsReceivers.bindMethod hm₁ method id c).map fun _ _ h => h
            · exact .stop hm₁
  | _ => exact .stop hm

theorem keepsReceivers_getInherited (frame : FrameId) (keyword method : Token) (link : Link) :
    KeepsReceivers (getInherited frame keyword method link) H m fun v H' => v.Received H' := by
  unfold getInherited
  split
  · exact .stop hm
  · next distance _ =>
      refine (KeepsReceivers.found hm (looks_slot_findAt m frame distance "super" keyword)).bind
        fun parent H₁ m₁ _ hm₁ _ => ?_
      cases parent with
      | classObject parent =>
          refine (KeepsReceivers.found hm₁
            (looks_slot_findAt m₁ frame (distance - 1) "this" keyword)).bind
              fun receiver H₂ m₂ _ hm₂ _ => ?_
          cases receiver with
          | object id c =>
              dsimp only
              split
              · next found _ =>
                  exact (KeepsReceivers.bindMethod hm₂ found id c).map fun _ _ h => h
              · exact .stop hm₂
          | _ => exact .stop hm₂
      | _ => exact .stop hm₁

theorem keepsReceivers_declareClass
    (frame : FrameId)
    (name : Token)
    (superclass : Option ClassObject)
    (methods : List FunctionDecl) :
    KeepsReceivers (declareClass frame name superclass methods) H m fun _ _ => True := by
  have hnil : Value.Received H .nil := trivial
  refine (KeepsReceivers.bindDeclared hm frame name hnil false).bind fun _ H₁ m₁ _ hm₁ _ => ?_
  have hframe : KeepsReceivers (methodFrame frame name methods superclass) H₁ m₁
      fun _ _ => True := by
    cases superclass with
    | none => exact .pure hm₁ trivial
    | some parent =>
        exact (KeepsReceivers.openFrame hm₁ (.superclass name methods) frame
          (by simp [Value.Received])).mono fun _ _ _ => trivial
  refine hframe.bind fun inner H₂ m₂ _ hm₂ _ => ?_
  refine (KeepsReceivers.aside hm₂ (x := Run.newSerial) rfl rfl rfl (Q := fun _ _ => True)
    trivial).bind fun serial H₃ m₃ _ hm₃ _ => ?_
  exact .putFound hm₃ (looks_slot_find m₃ frame name) trivial

theorem keepsReceivers_declareFunction (frame : FrameId) (declaration : FunctionDecl) :
    KeepsReceivers (declareFunction frame declaration) H m fun _ _ => True := by
  refine (KeepsReceivers.aside hm (x := Run.newSerial) rfl rfl rfl (Q := fun _ _ => True)
    trivial).bind fun serial H₁ m₁ _ hm₁ _ => ?_
  have hplain : Value.Received H₁ (.function ⟨serial, declaration, frame, false⟩) := nofun
  exact .bindDeclared hm₁ frame declaration.name hplain false

end Properties

section Nodes

/-- The result of an operator is no function. -/
theorem received_of_valueFits
    {v : Value}
    {store : Store}
    {H : History}
    (h : ValueFits (fun _ => False) H store v) :
    v.Received H := by
  cases v with
  | function f =>
      obtain ⟨_, _, _, _, hnone, _⟩ := h
      exact hnone.elim
  | _ => trivial

theorem keepsReceivers_ofExcept
    {H : History}
    {m : Machine}
    (hm : m.All (Value.Received H))
    {result : Except RuntimeFault Value}
    (h : ∀ v, result = .ok v → ValueFits (fun _ => False) H m.store v)
    (place : Token) :
    KeepsReceivers (Watch.perform (Run.ofExcept place result)) H m fun v H' => v.Received H' :=
  .look hm (looks_ofExcept h fun _ _ => trivial) fun _ hv => received_of_valueFits hv

mutual

/-- Evaluation makes initializers for instances only. -/
theorem keepsReceivers_evaluate (rounds room : Nat) :
    EvaluatesReceived (evaluate rounds room) := by
  intro H m hm frame e
  match room with
  | 0 => exact .stop hm
  | room + 1 =>
      have ihE := keepsReceivers_evaluate rounds room
      have ihS := keepsReceivers_execute rounds room
      unfold evaluate
      refine (KeepsReceivers.note hm (.evaluates frame e)).bind fun _ H₁ m₁ _ hm₁ _ => ?_
      cases e with
      | literal value => exact .pure hm₁ (by cases value <;> trivial)
      | grouping inner => exact ihE hm₁ frame inner
      | unary operator operand =>
          refine (ihE hm₁ frame operand).bind fun v H₂ m₂ _ hm₂ _ => ?_
          exact keepsReceivers_ofExcept hm₂ (fun _ h => valueFits_unary h) operator
      | binary left operator right =>
          refine (ihE hm₁ frame left).bind fun l H₂ m₂ _ hm₂ _ => ?_
          refine (ihE hm₂ frame right).bind fun r H₃ m₃ _ hm₃ _ => ?_
          exact keepsReceivers_ofExcept hm₃ (fun _ h => valueFits_binary h) operator
      | logical left operator right =>
          refine (ihE hm₁ frame left).bind fun l H₂ m₂ _ hm₂ hl => ?_
          split
          · exact .pure hm₂ hl
          · exact ihE hm₂ frame right
      | read target => exact .found hm₁ (looks_slot_locate m₁ frame target.name target.link)
      | readConstant target => exact .found hm₁ (looks_slot_locate m₁ frame target.name target.link)
      | assign target value => exact keepsReceivers_assign ihE hm₁ frame target value
      | call callee closing arguments =>
          refine (ihE hm₁ frame callee).bind fun f H₂ m₂ _ hm₂ _ => ?_
          refine (keepsReceivers_values ihE hm₂ frame arguments).bind fun vs H₃ m₃ _ hm₃ hvs => ?_
          exact keepsReceivers_call (completesReceived_untilReturn ihS) hm₃ f hvs closing
      | get object name =>
          refine (ihE hm₁ frame object).bind fun o H₂ m₂ _ hm₂ _ => ?_
          exact keepsReceivers_getProperty hm₂ o name
      | set object name value =>
          refine (ihE hm₁ frame object).bind fun o H₂ m₂ _ hm₂ _ => ?_
          exact keepsReceivers_setProperty ihE hm₂ frame o name value
      | this keyword link => exact .found hm₁ (looks_slot_locate m₁ frame keyword link)
      | super keyword method link => exact keepsReceivers_getInherited hm₁ frame keyword method link

/-- Execution makes initializers for instances only. -/
theorem keepsReceivers_execute (rounds room : Nat) :
    CompletesReceived (execute rounds room) := by
  intro H m hm frame s
  match room with
  | 0 => exact .stop hm
  | room + 1 =>
      have ihE := keepsReceivers_evaluate rounds room
      have ihS := keepsReceivers_execute rounds room
      unfold execute
      cases s with
      | block body =>
          refine (KeepsReceivers.openFrame hm (.block body) frame (by simp)).bind
            fun inner H₁ m₁ _ hm₁ _ => ?_
          exact completesReceived_untilReturn ihS hm₁ inner body
      | funDecl declaration =>
          exact (keepsReceivers_declareFunction hm frame declaration).bind
            fun _ _ _ _ hm₁ _ => .pure hm₁ nofun
      | classDecl name parent methods =>
          refine (keepsReceivers_superclassOf ihE hm frame name parent).bind
            fun superclass H₁ m₁ _ hm₁ _ => ?_
          exact (keepsReceivers_declareClass hm₁ frame name superclass methods).bind
            fun _ _ _ _ hm₂ _ => .pure hm₂ nofun
      | varDecl name initializer =>
          refine (keepsReceivers_orNil ihE hm frame initializer).bind fun v H₁ m₁ _ hm₁ hv => ?_
          exact (KeepsReceivers.bindDeclared hm₁ frame name hv false).bind
            fun _ _ _ _ hm₂ _ => .pure hm₂ nofun
      | constDecl name initializer =>
          refine (keepsReceivers_orNil ihE hm frame initializer).bind fun v H₁ m₁ _ hm₁ hv => ?_
          exact (KeepsReceivers.bindDeclared hm₁ frame name hv true).bind
            fun _ _ _ _ hm₂ _ => .pure hm₂ nofun
      | exprStmt expression =>
          exact (ihE hm frame expression).bind fun _ _ _ _ hm₁ _ => .pure hm₁ nofun
      | ifStmt condition thenBranch elseBranch =>
          refine (ihE hm frame condition).bind fun v H₁ m₁ _ hm₁ _ => ?_
          split
          · exact ihS hm₁ frame thenBranch
          · cases elseBranch with
            | none => exact .pure hm₁ nofun
            | some other => exact ihS hm₁ frame other
      | printStmt expression =>
          refine (ihE hm frame expression).bind fun v H₁ m₁ _ hm₁ _ => ?_
          exact (KeepsReceivers.aside hm₁ (x := Run.print v.text) rfl rfl rfl (Q := fun _ _ => True)
            trivial).bind fun _ _ _ _ hm₂ _ => .pure hm₂ nofun
      | returnStmt keyword value =>
          refine (keepsReceivers_orNil ihE hm frame value).map fun v H' hv w hw => ?_
          obtain rfl := Option.some.inj hw
          exact hv
      | whileStmt condition body =>
          exact keepsReceivers_repeating ihS ihE hm frame condition body rounds

end

end Nodes

end Code

end Lox
