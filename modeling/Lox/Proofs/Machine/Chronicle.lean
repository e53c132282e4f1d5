import Lox.Machine.Chronicle
import Lox.Proofs.Machine.Simulation

/-!
# Chronicles tell of runs

What is told of a run changes nothing in it.  A run with a chronicle comes to the result of the run
proper, with the same machine, however it ends.

**Results.**
* `Chronicled.run_evaluate`, `Chronicled.run_execute`: leaving out the events gives the run proper.
* `Chronicled.run_interpret`: so it is for programs.
-/

namespace Lox
namespace Chronicled

open Watch

variable {α β : Type}

/-- The run proper. -/
def run (x : Chronicled α) : Run α :=
  fun m => (x m).2

theorem run_bind (x : Chronicled α) (f : α → Chronicled β) :
    (x >>= f).run = x.run >>= fun a => (f a).run := by
  funext m
  simp only [run, bind, andThen, EStateM.bind]
  cases (x m).2 <;> rfl

/-- What is told first changes nothing. -/
theorem run_tell_bind (deed : Deed) (f : Unit → Chronicled β) :
    (tell deed >>= f).run = (f ()).run :=
  run_bind (tell deed) f

/-- What is told last changes nothing. -/
theorem run_bind_tell (x : Chronicled α) (deed : α → Deed) :
    (do let a ← x; tell (deed a); pure a : Chronicled α).run = x.run := by
  rw [run_bind]
  funext m
  change EStateM.bind x.run (fun a => EStateM.pure a) m = x.run m
  unfold EStateM.bind
  cases x.run m <;> rfl

/-- Both kinds of runs do the same. -/
def simulation : Simulation Chronicled Run where
  rel x y := x.run = y
  pure _ := rfl
  bind := fun {_ _ x _ f _} hx hf => by
    subst hx
    exact (run_bind x f).trans (congrArg _ (funext hf))
  map := fun {_ _ x _} f hx => by
    subst hx
    exact run_bind x (Pure.pure ∘ f)
  perform _ := rfl
  note _ := rfl

theorem run_bindMethod (method : Method) (id : InstanceId) (c : ClassObject) :
    (bindMethod method id c).run = Code.bindMethod method id c :=
  (run_bind_tell _ (Deed.receives · id c)).trans (simulation.bindMethod method id c)

section Calls

variable
  {body : FrameId → List Stmt → Chronicled Completion}
  {body' : FrameId → List Stmt → Run Completion}
  (hbody : ∀ frame ss, (body frame ss).run = body' frame ss)
include hbody

theorem run_callFunction (f : Closure) (arguments : List Value) :
    (callFunction body f arguments).run = Code.callFunction body' f arguments := by
  refine simulation.callFunction (fun frame => ?_) arguments
  exact (run_tell_bind (.enters f arguments frame) _).trans (hbody frame f.declaration.body)

theorem run_instantiate (c : ClassObject) (arguments : List Value) :
    (instantiate body c arguments).run = Code.instantiate body' c arguments := by
  refine simulation.bind (simulation.perform _) fun made => ?_
  obtain ⟨id, made⟩ := made
  cases hmethod : made.method? initializerName with
  | none =>
      simp only [hmethod]
      exact simulation.pure _
  | some method =>
      simp only [hmethod]
      exact simulation.bind (run_bindMethod _ _ _) fun f =>
        simulation.bind (run_callFunction hbody f arguments) fun _ => simulation.pure _

theorem run_call (callee : Value) (arguments : List Value) (place : Token) :
    (call body callee arguments place).run = Code.call body' callee arguments place := by
  have hattempt : (attempt body callee arguments place).run =
      Code.call body' callee arguments place := by
    unfold attempt Code.call
    cases callee.arity? with
    | none => exact simulation.perform _
    | some arity =>
        dsimp only
        split
        · cases callee with
          | native f =>
              cases f
              exact simulation.bind (simulation.perform _) fun _ => simulation.pure _
          | function f => exact run_callFunction hbody f arguments
          | classObject c => exact run_instantiate hbody c arguments
          | _ => exact simulation.perform _
        · exact simulation.perform _
  unfold call
  rw [run_bind]
  funext m
  exact congrFun ((run_bind_tell _ (Deed.answers callee arguments m)).trans hattempt) m

end Calls

theorem run_getProperty (object : Value) (name : Token) :
    (getProperty object name).run = Code.getProperty object name := by
  cases object with
  | object id c =>
      refine simulation.bind (simulation.perform _) fun found => ?_
      cases found with
      | some value => exact simulation.pure value
      | none =>
          cases c.method? name.lexeme with
          | none => exact simulation.perform _
          | some method => exact simulation.map _ (run_bindMethod _ _ _)
  | _ => exact simulation.perform _

theorem run_getInherited (frame : FrameId) (keyword method : Token) (link : Link) :
    (getInherited frame keyword method link).run = Code.getInherited frame keyword method link := by
  unfold getInherited Code.getInherited
  cases link.depth with
  | none => exact simulation.perform _
  | some distance =>
      refine simulation.bind (simulation.perform _) fun parent => ?_
      cases parent with
      | classObject parent =>
          refine simulation.bind (simulation.perform _) fun receiver => ?_
          cases receiver with
          | object id c =>
              cases parent.method? method.lexeme with
              | none => exact simulation.perform _
              | some found => exact simulation.map _ (run_bindMethod _ _ _)
          | _ => exact simulation.perform _
      | _ => exact simulation.perform _

theorem run_declareClass
    (frame : FrameId)
    (name : Token)
    (superclass : Option ClassObject)
    (methods : List FunctionDecl) :
    (declareClass frame name superclass methods).run =
      Code.declareClass frame name superclass methods :=
  simulation.bind (simulation.bindDeclared _ _ _ _) fun _ =>
    simulation.bind (simulation.methodFrame _ _ _ _) fun _ =>
      simulation.bind (simulation.perform _) fun _ => run_tell_bind _ _

mutual

/-- An evaluation without its events is the evaluation. -/
theorem run_evaluate (rounds room : Nat) (frame : FrameId) (e : Expr) :
    (evaluate rounds room frame e).run = Run.evaluate rounds room frame e := by
  match room with
  | 0 => rfl
  | room + 1 =>
      have ihE (frame : FrameId) (e : Expr) := run_evaluate rounds room frame e
      have ihS (frame : FrameId) (s : Stmt) := run_execute rounds room frame s
      refine (run_bind_tell _ Deed.yields).trans ((run_tell_bind _ _).trans ?_)
      cases e with
      | literal value => rfl
      | grouping inner => exact ihE frame inner
      | unary operator operand =>
          exact simulation.bind (ihE frame operand) fun _ => simulation.perform _
      | binary left operator right =>
          exact simulation.bind (ihE frame left) fun _ =>
            simulation.bind (ihE frame right) fun _ => simulation.perform _
      | logical left operator right =>
          refine simulation.bind (ihE frame left) fun l => ?_
          split
          · exact simulation.pure l
          · exact ihE frame right
      | read target => rfl
      | readConstant target => rfl
      | assign target value => exact simulation.assign (ihE frame value) frame target
      | call callee closing arguments =>
          exact simulation.bind (ihE frame callee) fun f =>
            simulation.bind (simulation.values (ihE frame) arguments) fun vs =>
              run_call (fun inner => simulation.untilReturn (ihS inner)) f vs closing
      | get object name =>
          exact simulation.bind (ihE frame object) fun o => run_getProperty o name
      | set object name value =>
          exact simulation.bind (ihE frame object) fun o =>
            simulation.setProperty (ihE frame value) o name
      | this keyword link => rfl
      | super keyword method link => exact run_getInherited frame keyword method link

/-- An execution without its events is the execution. -/
theorem run_execute (rounds room : Nat) (frame : FrameId) (s : Stmt) :
    (execute rounds room frame s).run = Run.execute rounds room frame s := by
  match room with
  | 0 => rfl
  | room + 1 =>
      have ihE (frame : FrameId) (e : Expr) := run_evaluate rounds room frame e
      have ihS (frame : FrameId) (s : Stmt) := run_execute rounds room frame s
      cases s with
      | block body =>
          exact simulation.bind (simulation.openFrame _ _ _) fun inner =>
            simulation.untilReturn (ihS inner) body
      | funDecl declaration =>
          exact simulation.bind (simulation.declareFunction frame declaration) fun _ =>
            simulation.pure none
      | classDecl name parent methods =>
          exact simulation.bind (simulation.superclassOf (ihE frame) name parent) fun superclass =>
            simulation.bind (run_declareClass frame name superclass methods) fun _ =>
              simulation.pure none
      | varDecl name initializer =>
          exact simulation.bind (simulation.orNil (ihE frame) initializer) fun value =>
            simulation.bind (simulation.bindDeclared frame name value false) fun _ =>
              simulation.pure none
      | constDecl name initializer =>
          exact simulation.bind (simulation.orNil (ihE frame) initializer) fun value =>
            simulation.bind (simulation.bindDeclared frame name value true) fun _ =>
              simulation.pure none
      | exprStmt expression =>
          exact simulation.bind (ihE frame expression) fun _ => simulation.pure none
      | ifStmt condition thenBranch elseBranch =>
          refine simulation.bind (ihE frame condition) fun value => ?_
          split
          · exact ihS frame thenBranch
          · cases elseBranch with
            | none => exact simulation.pure none
            | some other => exact ihS frame other
      | printStmt expression =>
          exact simulation.bind (ihE frame expression) fun value =>
            simulation.bind (simulation.perform _) fun _ => simulation.pure none
      | returnStmt keyword value => exact simulation.map some (simulation.orNil (ihE frame) value)
      | whileStmt condition body =>
          exact simulation.repeating (ihE frame condition) (ihS frame body) rounds

end

/-- A program without its events is the run of the program. -/
theorem run_interpret (rounds room : Nat) (program : List Stmt) :
    (interpret rounds room program).run = Code.each (Run.execute rounds room globalFrame) program :=
  simulation.each (run_execute rounds room globalFrame) program

end Chronicled
end Lox
