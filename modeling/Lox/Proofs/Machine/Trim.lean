import Lox.Proofs.Machine.MapValues
import Lox.Proofs.Value.Trim

/-!
# Running trimmed programs

Nothing after a return runs.  So trimmed code does on a machine whose code is trimmed what the code
does on the machine: the same texts are printed, and the values that are kept differ in their code.

**Main definition.**
* `Machine.trimmed`: a machine with all the code that it holds trimmed.

**Results.**
* `Code.untilReturn_return`: statements after a return are not executed.
* `Run.evaluate_mapped`, `Run.execute_mapped`: running commutes with trimming.
-/

namespace Lox

/-- A machine with all the code that it holds trimmed. -/
def Machine.trimmed (m : Machine) : Machine :=
  m.mapValues Value.trimmed

/-- Code does on machines with trimmed code what other code does on machines. -/
abbrev Trims {α β : Type} : (α → β) → Run α → Run β → Prop :=
  Mapped Value.trimmed

/-- The value of a completion with its code trimmed. -/
abbrev Completion.trimmed : Completion → Completion :=
  Option.map Value.trimmed

namespace Code

/-- A return completes its body, so that nothing after it is executed. -/
theorem untilReturn_return
    (rounds room : Nat)
    (frame : FrameId)
    {s : Stmt}
    (h : s.isReturn = true)
    (rest : List Stmt) :
    untilReturn (Run.execute rounds room frame) (s :: rest) =
      untilReturn (Run.execute rounds room frame) [s] := by
  cases s with
  | returnStmt keyword value =>
      cases room with
      | zero => rfl
      | succ room =>
          have hexecute : Run.execute rounds (room + 1) frame (.returnStmt keyword value) =
              some <$> orNil (Run.evaluate rounds room frame) value := rfl
          simp only [untilReturn, hexecute, bind_map_left]
  | _ => cases h

section Statements

variable {step step' : Stmt → Run Completion}

/-- The statements of a trimmed body do what those of the body do. -/
theorem untilReturn_mapped
    (h : ∀ s, Trims Completion.trimmed (step s) (step' s.trimmed))
    (hreturn : ∀ s : Stmt, s.isReturn = true → ∀ rest,
      untilReturn step (s :: rest) = untilReturn step [s])
    (body : List Stmt) :
    Trims Completion.trimmed (untilReturn step body)
      (untilReturn step' (upToReturn (body.map Stmt.trimmed))) := by
  have hsame (s : Stmt) : s.trimmed.isReturn = s.isReturn := by
    rcases s with _ | _ | _ | _ | _ | _ | ⟨_, _, _ | _⟩ | _ | _ | _ <;> rfl
  have hcons (s : Stmt) {rest rest' : List Stmt}
      (hrest : Trims Completion.trimmed (untilReturn step rest) (untilReturn step' rest')) :
      Trims Completion.trimmed (untilReturn step (s :: rest))
        (untilReturn step' (s.trimmed :: rest')) := by
    refine (h s).bind fun completion => ?_
    cases completion with
    | none => exact hrest
    | some value => exact .pure rfl
  induction body with
  | nil => exact .pure rfl
  | cons s rest ih =>
      rw [List.map_cons, upToReturn, hsame]
      split
      · next hs =>
          rw [hreturn s hs rest]
          exact hcons s (.pure rfl)
      · exact hcons s ih

theorem each_mapped
    (h : ∀ s, Trims Completion.trimmed (step s) (step' s.trimmed))
    (program : List Stmt) :
    Trims id (each step program) (each step' (program.map Stmt.trimmed)) := by
  induction program with
  | nil => exact .pure rfl
  | cons s rest ih => exact (h s).bind fun _ => ih

end Statements

section Expressions

variable
  {eval eval' : Expr → Run Value}
  (h : ∀ e, Trims Value.trimmed (eval e) (eval' e))
include h

theorem values_mapped (es : List Expr) :
    Trims (List.map Value.trimmed) (values eval es) (values eval' es) := by
  induction es with
  | nil => exact .pure rfl
  | cons e rest ih => exact (h e).bind fun _ => ih.bind fun _ => .pure rfl

theorem orNil_mapped (e : Option Expr) :
    Trims Value.trimmed (orNil eval e) (orNil eval' e) := by
  cases e with
  | none => exact .pure rfl
  | some e => exact h e

theorem superclassOf_mapped (name : Token) (parent : Option Expr) :
    Trims (Option.map ClassObject.trimmed) (superclassOf eval name parent)
      (superclassOf eval' name parent) := by
  cases parent with
  | none => exact .pure rfl
  | some parent =>
      refine (h parent).bind fun value => ?_
      cases value with
      | classObject o => exact .pure rfl
      | _ => exact Run.fail_mapped _ _ _

end Expressions

theorem repeating_mapped
    {condition condition' : Run Value}
    {body body' : Run Completion}
    (hcondition : Trims Value.trimmed condition condition')
    (hbody : Trims Completion.trimmed body body')
    (rounds : Nat) :
    Trims Completion.trimmed (repeating condition body rounds)
      (repeating condition' body' rounds) := by
  induction rounds with
  | zero => exact fun _ => rfl
  | succ rounds ih =>
      refine hcondition.bind fun value => ?_
      rw [Value.isTruthy_trimmed]
      split
      · refine hbody.bind fun completion => ?_
        cases completion with
        | none => exact ih
        | some value => exact .pure rfl
      · exact .pure rfl

theorem bindMethod_mapped (method : Method) (receiver : InstanceId) (o : ClassObject) :
    Trims Closure.trimmed (bindMethod method receiver o)
      (bindMethod method.trimmed receiver o.trimmed) :=
  (openFrame_mapped _ _ _ method.frame [("this", .object receiver o)]).bind fun _ =>
    (Run.newSerial_mapped _).bind fun _ =>
      .pure (by simp only [Closure.trimmed, Method.trimmed, FunctionDecl.isInitializer_trimmed, id])

section Calls

variable
  {run run' : FrameId → List Stmt → Run Completion}
  (h : ∀ frame (f : FunctionDecl),
    Trims Completion.trimmed (run frame f.body) (run' frame f.trimmed.body))
include h

theorem callFunction_mapped (f : Closure) (arguments : List Value) :
    Trims Value.trimmed (callFunction run f arguments)
      (callFunction run' f.trimmed (arguments.map Value.trimmed)) := by
  have hparameters : f.trimmed.declaration.parameters = f.declaration.parameters :=
    f.declaration.parameters_trimmed
  have hname : f.trimmed.declaration.name = f.declaration.name := f.declaration.name_trimmed
  unfold callFunction
  dsimp only
  rw [hparameters, hname, List.zip_map_right]
  refine (openFrame_mapped _ _ _ f.frame _).bind fun frame => ?_
  refine (h frame f.declaration).bind fun completion => ?_
  change Trims _ (if f.isInitializer then _ else _) (if f.isInitializer then _ else _)
  split
  · exact Run.getAt_mapped _ f.frame 0 "this" f.declaration.name
  · refine .pure ?_
    cases completion <;> rfl

theorem instantiate_mapped (o : ClassObject) (arguments : List Value) :
    Trims Value.trimmed (instantiate run o arguments)
      (instantiate run' o.trimmed (arguments.map Value.trimmed)) := by
  have hmade : Trims (fun made : InstanceId × ClassObject => (made.1, made.2.trimmed))
      (Run.newInstance o) (Run.newInstance o.trimmed) := by
    intro m
    simp [Run.newInstance, mapResult, Machine.mapValues]
  refine hmade.bind fun made => ?_
  dsimp only
  rw [ClassObject.method?_trimmed]
  cases made.2.method? initializerName with
  | none => exact .pure rfl
  | some method =>
      exact (bindMethod_mapped method made.1 made.2).bind fun initializer =>
        (callFunction_mapped h initializer arguments).bind fun _ => .pure rfl

theorem call_mapped (callee : Value) (arguments : List Value) (place : Token) :
    Trims Value.trimmed (call run callee arguments place)
      (call run' callee.trimmed (arguments.map Value.trimmed) place) := by
  unfold call
  rw [Value.arity?_trimmed, List.length_map]
  cases callee.arity? with
  | none => exact Run.fail_mapped _ _ _
  | some arity =>
      dsimp only
      split
      · cases callee with
        | native function =>
            cases function
            exact (Run.readClock_mapped _).bind fun _ => .pure rfl
        | function f => exact callFunction_mapped h f arguments
        | classObject o => exact instantiate_mapped h o arguments
        | _ => exact Run.fail_mapped _ _ _
      · exact Run.fail_mapped _ _ _

end Calls

theorem getProperty_mapped (object : Value) (name : Token) :
    Trims Value.trimmed (getProperty object name) (getProperty object.trimmed name) := by
  cases object with
  | object id o =>
      refine (Run.field?_mapped _ id name.lexeme).bind fun value => ?_
      cases value with
      | some value => exact .pure rfl
      | none =>
          dsimp only [Option.map_none]
          rw [ClassObject.method?_trimmed]
          cases o.method? name.lexeme with
          | some method => exact (bindMethod_mapped method id o).map fun _ => rfl
          | none => exact Run.fail_mapped _ _ _
  | _ => exact Run.fail_mapped _ _ _

theorem getInherited_mapped (frame : FrameId) (keyword method : Token) (link : Link) :
    Trims Value.trimmed (getInherited frame keyword method link)
      (getInherited frame keyword method link) := by
  unfold getInherited
  cases link.depth with
  | none => exact Run.fail_mapped _ _ _
  | some distance =>
      refine (Run.getAt_mapped _ frame distance "super" keyword).bind fun parent => ?_
      cases parent with
      | classObject parent =>
          refine (Run.getAt_mapped _ frame (distance - 1) "this" keyword).bind fun receiver => ?_
          cases receiver with
          | object id o =>
              dsimp only [Value.trimmed]
              rw [ClassObject.method?_trimmed]
              cases parent.method? method.lexeme with
              | some found => exact (bindMethod_mapped found id o).map fun _ => rfl
              | none => exact Run.fail_mapped _ _ _
          | _ => exact Run.fail_mapped _ _ _
      | _ => exact Run.fail_mapped _ _ _

theorem declareClass_mapped
    (frame : FrameId)
    (name : Token)
    (superclass : Option ClassObject)
    (methods : List FunctionDecl) :
    Trims id (declareClass frame name superclass methods : Run Unit)
      (declareClass frame name (superclass.map ClassObject.trimmed)
        (methods.map FunctionDecl.trimmed)) := by
  have hframe : Trims id (methodFrame frame name methods superclass : Run FrameId)
      (methodFrame frame name (methods.map FunctionDecl.trimmed)
        (superclass.map ClassObject.trimmed)) := by
    cases superclass with
    | none => exact .pure rfl
    | some parent => exact openFrame_mapped _ _ _ frame [("super", .classObject parent)]
  refine (Run.define_mapped _ frame name.lexeme .nil false).bind fun _ => hframe.bind fun inner =>
    (Run.newSerial_mapped _).bind fun serial => ?_
  have hlayer := ClassLayer.extending_trimmed ⟨serial, name.lexeme, methods, inner⟩ superclass
  have hreassign := Run.reassign_mapped Value.trimmed frame name
    (.classObject (ClassLayer.extending ⟨serial, name.lexeme, methods, inner⟩ superclass))
  simp only [Value.trimmed, ← hlayer] at hreassign
  exact hreassign

theorem declareFunction_mapped (frame : FrameId) (declaration : FunctionDecl) :
    Trims id (declareFunction frame declaration : Run Unit)
      (declareFunction frame declaration.trimmed) := by
  refine (Run.newSerial_mapped _).bind fun serial => ?_
  rw [FunctionDecl.name_trimmed]
  exact Run.define_mapped _ frame declaration.name.lexeme
    (.function ⟨serial, declaration, frame, false⟩) false

theorem assign_mapped
    {x y : Run Value}
    (h : Trims Value.trimmed x y)
    (frame : FrameId)
    (target : Reference) :
    Trims Value.trimmed (assign frame target x) (assign frame target y) := by
  refine (Run.isConstant_mapped _ target).bind fun constant => ?_
  dsimp only [id]
  split
  · exact Run.fail_mapped _ _ _
  · exact h.bind fun v => (Run.assignName_mapped _ frame target v).bind fun _ => .pure rfl

theorem setProperty_mapped
    {x y : Run Value}
    (h : Trims Value.trimmed x y)
    (object : Value)
    (name : Token) :
    Trims Value.trimmed (setProperty object name x) (setProperty object.trimmed name y) := by
  cases object with
  | object id o =>
      exact h.bind fun v => (Run.setField_mapped _ id name.lexeme v).bind fun _ => .pure rfl
  | _ => exact Run.fail_mapped _ _ _

end Code

namespace Run

mutual

/-- Evaluation commutes with trimming. -/
theorem evaluate_mapped
    (rounds room : Nat)
    (frame : FrameId)
    (e : Expr) :
    Trims Value.trimmed (evaluate rounds room frame e) (evaluate rounds room frame e) := by
  match room with
  | 0 => exact fun _ => rfl
  | room + 1 =>
      have ihE := evaluate_mapped rounds room
      have ihS := execute_mapped rounds room
      cases e with
      | literal value => exact .pure (Value.trimmed_toValue value).symm
      | grouping inner => exact ihE frame inner
      | unary operator operand =>
          exact (ihE frame operand).bind fun v =>
            ofExcept_mapped _ (v.unary_trimmed operator) operator
      | binary left operator right =>
          exact (ihE frame left).bind fun v => (ihE frame right).bind fun w =>
            ofExcept_mapped _ (v.binary_trimmed operator w) operator
      | logical left operator right =>
          refine (ihE frame left).bind fun v => ?_
          rw [Value.decides_trimmed]
          split
          · exact .pure rfl
          · exact ihE frame right
      | read target => exact readName_mapped _ frame target.name target.link
      | readConstant target => exact readName_mapped _ frame target.name target.link
      | assign target value => exact Code.assign_mapped (ihE frame value) frame target
      | call callee closing arguments =>
          have hbody (inner : FrameId) (f : FunctionDecl) : Trims Completion.trimmed
              (Code.untilReturn (execute rounds room inner) f.body)
              (Code.untilReturn (execute rounds room inner) f.trimmed.body) := by
            rw [FunctionDecl.body_trimmed]
            exact Code.untilReturn_mapped (ihS inner)
              (fun _ => Code.untilReturn_return rounds room inner) f.body
          exact (ihE frame callee).bind fun _ =>
            (Code.values_mapped (ihE frame) arguments).bind fun _ =>
              Code.call_mapped hbody _ _ closing
      | get object name =>
          exact (ihE frame object).bind fun o => Code.getProperty_mapped o name
      | set object name value =>
          exact (ihE frame object).bind fun o => Code.setProperty_mapped (ihE frame value) o name
      | this keyword link => exact readName_mapped _ frame keyword link
      | super keyword method link => exact Code.getInherited_mapped frame keyword method link

/-- Execution commutes with trimming. -/
theorem execute_mapped
    (rounds room : Nat)
    (frame : FrameId)
    (s : Stmt) :
    Trims Completion.trimmed (execute rounds room frame s)
      (execute rounds room frame s.trimmed) := by
  match room with
  | 0 => exact fun _ => rfl
  | room + 1 =>
      have ihE := evaluate_mapped rounds room
      have ihS := execute_mapped rounds room
      cases s with
      | block body =>
          rw [Stmt.trimmed, Stmt.trimmedAll_eq_map]
          exact (Code.openFrame_mapped _ _ _ frame []).bind fun inner =>
            Code.untilReturn_mapped (ihS inner)
              (fun _ => Code.untilReturn_return rounds room inner) body
      | funDecl declaration =>
          exact (Code.declareFunction_mapped frame declaration).bind fun _ => .pure rfl
      | classDecl name parent methods =>
          rw [Stmt.trimmed, FunctionDecl.trimmedAll_eq_map]
          exact (Code.superclassOf_mapped (ihE frame) name parent).bind fun superclass =>
            (Code.declareClass_mapped frame name superclass methods).bind fun _ => .pure rfl
      | varDecl name initializer =>
          exact (Code.orNil_mapped (ihE frame) initializer).bind fun v =>
            (define_mapped _ frame name.lexeme v false).bind fun _ => .pure rfl
      | constDecl name initializer =>
          exact (Code.orNil_mapped (ihE frame) initializer).bind fun v =>
            (define_mapped _ frame name.lexeme v true).bind fun _ => .pure rfl
      | exprStmt expression => exact (ihE frame expression).bind fun _ => .pure rfl
      | ifStmt condition thenBranch elseBranch =>
          cases elseBranch with
          | none =>
              refine (ihE frame condition).bind fun v => ?_
              rw [Value.isTruthy_trimmed]
              split
              · exact ihS frame thenBranch
              · exact .pure rfl
          | some other =>
              refine (ihE frame condition).bind fun v => ?_
              rw [Value.isTruthy_trimmed]
              split
              · exact ihS frame thenBranch
              · exact ihS frame other
      | printStmt expression =>
          refine (ihE frame expression).bind fun v => ?_
          rw [Value.text_trimmed]
          exact (print_mapped _ v.text).bind fun _ => .pure rfl
      | returnStmt keyword value =>
          exact (Code.orNil_mapped (ihE frame) value).map fun _ => rfl
      | whileStmt condition body =>
          exact Code.repeating_mapped (ihE frame condition) (ihS frame body) rounds

end

end Run

end Lox
