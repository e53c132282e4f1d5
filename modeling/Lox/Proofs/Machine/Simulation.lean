import Lox.Machine.Evaluate
import Mathlib.Tactic.Common

/-!
# Code that runs the same in two monads

The code of a program is the same in every monad in which it can say what it is about to do.  So
what is true of the operations of a machine and of what is said, and is kept when code follows code,
is true of all code.  A `Simulation` is a relation with what has to be shown for that.

**Results.**
* `Simulation.call`, `Simulation.declareClass` and the like: the pieces of an interpreter.
* `Simulation.evaluate`, `Simulation.execute`: expressions and statements.
-/

namespace Lox

/-- A relation that the steps of running code respect. -/
structure Simulation (M N : Type → Type) [Watch M] [Watch N] where
  rel {α : Type} : M α → N α → Prop
  pure {α : Type} (a : α) : rel (pure a) (pure a)
  bind {α β : Type} {x : M α} {y : N α} {f : α → M β} {g : α → N β} :
    rel x y → (∀ a, rel (f a) (g a)) → rel (x >>= f) (y >>= g)
  map {α β : Type} {x : M α} {y : N α} (f : α → β) : rel x y → rel (f <$> x) (f <$> y)
  perform {α : Type} (x : Run α) : rel (Watch.perform x) (Watch.perform x)
  note (act : Act) : rel (Watch.note act) (Watch.note act)

namespace Simulation

open Code

variable {M N : Type → Type} [Watch M] [Watch N] (S : Simulation M N)

section Statements

variable
  {step : Stmt → M Completion}
  {step' : Stmt → N Completion}
  (hstep : ∀ s, S.rel (step s) (step' s))
include hstep

theorem untilReturn (body : List Stmt) :
    S.rel (untilReturn step body) (untilReturn step' body) := by
  induction body with
  | nil => exact S.pure none
  | cons s rest ih =>
      refine S.bind (hstep s) fun completion => ?_
      cases completion with
      | none => exact ih
      | some value => exact S.pure (some value)

theorem each (program : List Stmt) : S.rel (each step program) (each step' program) := by
  induction program with
  | nil => exact S.pure ()
  | cons s rest ih => exact S.bind (hstep s) fun _ => ih

end Statements

section Expressions

variable
  {eval : Expr → M Value}
  {eval' : Expr → N Value}
  (heval : ∀ e, S.rel (eval e) (eval' e))
include heval

theorem values (es : List Expr) : S.rel (values eval es) (values eval' es) := by
  induction es with
  | nil => exact S.pure []
  | cons e rest ih =>
      exact S.bind (heval e) fun value => S.bind ih fun others => S.pure (value :: others)

theorem orNil (e : Option Expr) : S.rel (orNil eval e) (orNil eval' e) := by
  cases e with
  | none => exact S.pure Value.nil
  | some e => exact heval e

theorem superclassOf (name : Token) (parent : Option Expr) :
    S.rel (superclassOf eval name parent) (superclassOf eval' name parent) := by
  cases parent with
  | none => exact S.pure none
  | some parent =>
      refine S.bind (heval parent) fun value => ?_
      cases value with
      | classObject c => exact S.pure (some c)
      | _ => exact S.perform _

end Expressions

theorem repeating
    {condition : M Value}
    {condition' : N Value}
    {body : M Completion}
    {body' : N Completion}
    (hcondition : S.rel condition condition')
    (hbody : S.rel body body')
    (rounds : Nat) :
    S.rel (repeating condition body rounds) (repeating condition' body' rounds) := by
  induction rounds with
  | zero => exact S.perform _
  | succ rounds ih =>
      refine S.bind hcondition fun value => ?_
      split
      · refine S.bind hbody fun completion => ?_
        cases completion with
        | none => exact ih
        | some value => exact S.pure (some value)
      · exact S.pure none

theorem openFrame (opening : Opening) (enclosing : FrameId) (bindings : List (String × Value)) :
    S.rel (openFrame opening enclosing bindings) (openFrame opening enclosing bindings) :=
  S.bind (S.note _) fun _ => S.perform _

theorem bindDeclared (frame : FrameId) (name : Token) (value : Value) (constant : Bool) :
    S.rel (bindDeclared frame name value constant) (bindDeclared frame name value constant) :=
  S.bind (S.note _) fun _ => S.perform _

theorem bindMethod (method : Method) (id : InstanceId) (c : ClassObject) :
    S.rel (bindMethod method id c) (bindMethod method id c) :=
  S.bind (S.openFrame _ _ _) fun _ => S.bind (S.perform _) fun _ => S.pure _

section Calls

variable
  {body : FrameId → List Stmt → M Completion}
  {body' : FrameId → List Stmt → N Completion}

/-- The body of a function needs to run the same only in the frame that is opened for it. -/
theorem callFunction
    {f : Closure}
    (hbody : ∀ frame, S.rel (body frame f.declaration.body) (body' frame f.declaration.body))
    (arguments : List Value) :
    S.rel (callFunction body f arguments) (callFunction body' f arguments) := by
  refine S.bind (S.openFrame _ _ _) fun frame => S.bind (hbody frame) fun completion => ?_
  split
  · exact S.perform _
  · exact S.pure _

variable (hbody : ∀ frame ss, S.rel (body frame ss) (body' frame ss))
include hbody

theorem instantiate (c : ClassObject) (arguments : List Value) :
    S.rel (instantiate body c arguments) (instantiate body' c arguments) := by
  refine S.bind (S.perform _) fun made => ?_
  obtain ⟨id, made⟩ := made
  cases hmethod : made.method? initializerName with
  | none =>
      simp only [hmethod]
      exact S.pure _
  | some method =>
      simp only [hmethod]
      exact S.bind (S.bindMethod _ _ _) fun f =>
        S.bind (S.callFunction (fun frame => hbody frame _) arguments) fun _ => S.pure _

theorem call (callee : Value) (arguments : List Value) (place : Token) :
    S.rel (call body callee arguments place) (call body' callee arguments place) := by
  unfold Code.call
  split
  · exact S.perform _
  · split
    · cases callee with
      | native f =>
          cases f
          exact S.bind (S.perform _) fun _ => S.pure _
      | function f => exact S.callFunction (fun frame => hbody frame _) arguments
      | classObject c => exact S.instantiate hbody c arguments
      | _ => exact S.perform _
    · exact S.perform _

end Calls

theorem getProperty (object : Value) (name : Token) :
    S.rel (getProperty object name) (getProperty object name) := by
  cases object with
  | object id c =>
      refine S.bind (S.perform _) fun found => ?_
      cases found with
      | some value => exact S.pure value
      | none =>
          dsimp only
          split
          · exact S.map _ (S.bindMethod _ _ _)
          · exact S.perform _
  | _ => exact S.perform _

theorem getInherited (frame : FrameId) (keyword method : Token) (link : Link) :
    S.rel (getInherited frame keyword method link) (getInherited frame keyword method link) := by
  unfold Code.getInherited
  split
  · exact S.perform _
  · refine S.bind (S.perform _) fun parent => ?_
    cases parent with
    | classObject parent =>
        refine S.bind (S.perform _) fun receiver => ?_
        cases receiver with
        | object id c =>
            dsimp only
            split
            · exact S.map _ (S.bindMethod _ _ _)
            · exact S.perform _
        | _ => exact S.perform _
    | _ => exact S.perform _

theorem methodFrame
    (frame : FrameId)
    (name : Token)
    (methods : List FunctionDecl)
    (superclass : Option ClassObject) :
    S.rel (methodFrame frame name methods superclass)
      (methodFrame frame name methods superclass) := by
  cases superclass with
  | none => exact S.pure frame
  | some parent => exact S.openFrame _ _ _

theorem declareClass
    (frame : FrameId)
    (name : Token)
    (superclass : Option ClassObject)
    (methods : List FunctionDecl) :
    S.rel (declareClass frame name superclass methods)
      (declareClass frame name superclass methods) :=
  S.bind (S.bindDeclared _ _ _ _) fun _ =>
    S.bind (S.methodFrame _ _ _ _) fun _ => S.bind (S.perform _) fun _ => S.perform _

theorem declareFunction (frame : FrameId) (declaration : FunctionDecl) :
    S.rel (declareFunction frame declaration) (declareFunction frame declaration) :=
  S.bind (S.perform _) fun _ => S.bindDeclared _ _ _ _

section Assignments

variable
  {value : M Value}
  {value' : N Value}
  (hvalue : S.rel value value')
include hvalue

theorem assign (frame : FrameId) (target : Reference) :
    S.rel (assign frame target value) (assign frame target value') := by
  refine S.bind (S.perform _) fun constant => ?_
  split
  · exact S.perform _
  · exact S.bind hvalue fun v => S.bind (S.perform _) fun _ => S.pure v

theorem setProperty (object : Value) (name : Token) :
    S.rel (setProperty object name value) (setProperty object name value') := by
  cases object with
  | object id c => exact S.bind hvalue fun v => S.bind (S.perform _) fun _ => S.pure v
  | _ => exact S.perform _

end Assignments

mutual

/-- Every expression corresponds to itself, by recursion on the room that is left. -/
theorem evaluate (rounds room : Nat) (frame : FrameId) (e : Expr) :
    S.rel (evaluate rounds room frame e) (evaluate rounds room frame e) := by
  match room with
  | 0 => exact S.perform _
  | room + 1 =>
      have ihE (frame : FrameId) (e : Expr) := evaluate rounds room frame e
      have ihS (frame : FrameId) (s : Stmt) := execute rounds room frame s
      refine S.bind (S.note _) fun _ => ?_
      cases e with
      | literal value => exact S.pure _
      | grouping inner => exact ihE frame inner
      | unary operator operand => exact S.bind (ihE frame operand) fun _ => S.perform _
      | binary left operator right =>
          exact S.bind (ihE frame left) fun _ => S.bind (ihE frame right) fun _ => S.perform _
      | logical left operator right =>
          refine S.bind (ihE frame left) fun l => ?_
          split
          · exact S.pure l
          · exact ihE frame right
      | read target => exact S.perform _
      | readConstant target => exact S.perform _
      | assign target value => exact S.assign (ihE frame value) frame target
      | call callee closing arguments =>
          exact S.bind (ihE frame callee) fun f => S.bind (S.values (ihE frame) arguments) fun vs =>
            S.call (fun inner => S.untilReturn (ihS inner)) f vs closing
      | get object name => exact S.bind (ihE frame object) fun o => S.getProperty o name
      | set object name value =>
          exact S.bind (ihE frame object) fun o => S.setProperty (ihE frame value) o name
      | this keyword link => exact S.perform _
      | super keyword method link => exact S.getInherited frame keyword method link

/-- Every statement corresponds to itself, by recursion on the room that is left. -/
theorem execute (rounds room : Nat) (frame : FrameId) (s : Stmt) :
    S.rel (execute rounds room frame s) (execute rounds room frame s) := by
  match room with
  | 0 => exact S.perform _
  | room + 1 =>
      have ihE (frame : FrameId) (e : Expr) := evaluate rounds room frame e
      have ihS (frame : FrameId) (s : Stmt) := execute rounds room frame s
      cases s with
      | block body =>
          exact S.bind (S.openFrame _ _ _) fun inner => S.untilReturn (ihS inner) body
      | funDecl declaration =>
          exact S.bind (S.declareFunction frame declaration) fun _ => S.pure none
      | classDecl name parent methods =>
          exact S.bind (S.superclassOf (ihE frame) name parent) fun superclass =>
            S.bind (S.declareClass frame name superclass methods) fun _ => S.pure none
      | varDecl name initializer =>
          exact S.bind (S.orNil (ihE frame) initializer) fun value =>
            S.bind (S.bindDeclared frame name value false) fun _ => S.pure none
      | constDecl name initializer =>
          exact S.bind (S.orNil (ihE frame) initializer) fun value =>
            S.bind (S.bindDeclared frame name value true) fun _ => S.pure none
      | exprStmt expression => exact S.bind (ihE frame expression) fun _ => S.pure none
      | ifStmt condition thenBranch elseBranch =>
          refine S.bind (ihE frame condition) fun value => ?_
          split
          · exact ihS frame thenBranch
          · cases elseBranch with
            | none => exact S.pure none
            | some other => exact ihS frame other
      | printStmt expression =>
          exact S.bind (ihE frame expression) fun value => S.bind (S.perform _) fun _ => S.pure none
      | returnStmt keyword value => exact S.map some (S.orNil (ihE frame) value)
      | whileStmt condition body => exact S.repeating (ihE frame condition) (ihS frame body) rounds

end

end Simulation
end Lox
