import Lox.Machine.Active
import Lox.Proofs.Machine.Simulation
import Mathlib

/-!
# The active frame is put back

Code with an active frame does what code does that is given its frame, and leaves the active frame
as it was.  This is proved for every tree and every way in which code can end; the frame that a
piece of code sees is therefore always the one in which it was started.

**Main definitions.**
* `ActiveRun.Tracks`: code does what other code does in a given frame.
* `ActiveRun.tracking`: all code does so that does not look at the active frame.

**Results.**
* `ActiveRun.tracks_evaluate`, `ActiveRun.tracks_execute`: both ways of running are the same.
-/

namespace Lox
namespace ActiveRun

open Code Watch

/--
While a frame is active, code does what other code does that knows the frame, and the frame stays
active.
-/
def Tracks
    {α : Type}
    (frame : FrameId)
    (x : ActiveRun α)
    (y : Run α) : Prop :=
  ∀ m : Machine, x ⟨m, frame⟩ = onMachine y ⟨m, frame⟩

namespace Tracks

variable {α β : Type} {frame : FrameId}

theorem pure (a : α) : Tracks frame (Pure.pure a) (Pure.pure a) :=
  fun _ => rfl

theorem perform (y : Run α) : Tracks frame (Watch.perform y) (Watch.perform y) :=
  fun _ => rfl

theorem note (act : Act) : Tracks frame (Watch.note act) (Watch.note act) :=
  fun _ => rfl

theorem bind
    {x : ActiveRun α}
    {y : Run α}
    {f : α → ActiveRun β}
    {g : α → Run β}
    (hx : Tracks frame x y)
    (hf : ∀ a, Tracks frame (f a) (g a)) :
    Tracks frame (x >>= f) (y >>= g) := by
  intro m
  change EStateM.bind x f ⟨m, frame⟩ = onMachine (EStateM.bind y g) ⟨m, frame⟩
  simp only [EStateM.bind, hx m, onMachine]
  cases y m with
  | ok a m' => exact hf a m'
  | error interrupt m' => rfl

theorem map
    {x : ActiveRun α}
    {y : Run α}
    (hx : Tracks frame x y)
    (f : α → β) :
    Tracks frame (f <$> x) (f <$> y) :=
  hx.bind fun a => .pure (f a)

/-- Code that looks at the active frame sees the frame. -/
theorem current
    {f : FrameId → ActiveRun β}
    {y : Run β}
    (hf : Tracks frame (f frame) y) :
    Tracks frame (current >>= f) y :=
  hf

/-- Code in another frame. -/
theorem within
    {inner : FrameId}
    {x : ActiveRun α}
    {y : Run α}
    (hx : Tracks inner x y) :
    Tracks frame (within inner x) y := by
  intro m
  have h := hx m
  simp only [ActiveRun.within, h, onMachine]
  cases y m <;> rfl

end Tracks

/-- Code that does not look at the active frame does the same in every frame. -/
def tracking (frame : FrameId) : Simulation ActiveRun Run where
  rel := Tracks frame
  pure := .pure
  bind hx hf := hx.bind hf
  map f hx := hx.map f
  perform := .perform
  note := .note

theorem tracks_each
    {frame : FrameId}
    {step : Stmt → ActiveRun Completion}
    {step' : Stmt → Run Completion}
    (h : ∀ s, Tracks frame (step s) (step' s))
    (program : List Stmt) :
    Tracks frame (each step program) (each step' program) :=
  (tracking frame).each h program

mutual

/-- An expression is evaluated in the active frame, which stays active. -/
theorem tracks_evaluate
    (rounds room : Nat)
    (frame : FrameId)
    (e : Expr) :
    Tracks frame (evaluate rounds room e) (Run.evaluate rounds room frame e) := by
  match room with
  | 0 => exact .perform _
  | room + 1 =>
      have ihE := tracks_evaluate rounds room
      have ihS := tracks_execute rounds room
      let S := tracking frame
      cases e with
      | literal value => exact .pure _
      | grouping inner => exact ihE frame inner
      | unary operator operand => exact (ihE frame operand).bind fun _ => .perform _
      | binary left operator right =>
          exact (ihE frame left).bind fun _ => (ihE frame right).bind fun _ => .perform _
      | logical left operator right =>
          refine (ihE frame left).bind fun l => ?_
          split
          · exact .pure l
          · exact ihE frame right
      | read target => exact .current (.perform _)
      | readConstant target => exact .current (.perform _)
      | assign target value =>
          refine (Tracks.perform _).bind fun constant => ?_
          split
          · exact .perform _
          · exact (ihE frame value).bind fun v =>
              .current ((Tracks.perform _).bind fun _ => .pure v)
      | call callee closing arguments =>
          exact (ihE frame callee).bind fun f =>
            (S.values (ihE frame) arguments).bind fun vs =>
              S.call (fun inner ss => ((tracking inner).untilReturn (ihS inner) ss).within) f vs
                closing
      | get object name => exact (ihE frame object).bind fun o => S.getProperty o name
      | set object name value =>
          exact (ihE frame object).bind fun o => S.setProperty (ihE frame value) o name
      | this keyword link => exact .current (.perform _)
      | super keyword method link => exact .current (S.getInherited frame keyword method link)

/-- A statement is executed in the active frame, which stays active. -/
theorem tracks_execute
    (rounds room : Nat)
    (frame : FrameId)
    (s : Stmt) :
    Tracks frame (execute rounds room s) (Run.execute rounds room frame s) := by
  match room with
  | 0 => exact .perform _
  | room + 1 =>
      have ihE := tracks_evaluate rounds room
      have ihS := tracks_execute rounds room
      let S := tracking frame
      cases s with
      | block body =>
          exact .current ((S.openFrame _ frame []).bind fun inner =>
            ((tracking inner).untilReturn (ihS inner) body).within)
      | funDecl declaration =>
          exact .current ((S.declareFunction frame declaration).bind fun _ => .pure none)
      | classDecl name parent methods =>
          exact (S.superclassOf (ihE frame) name parent).bind fun superclass =>
            .current ((S.declareClass frame name superclass methods).bind fun _ => .pure none)
      | varDecl name initializer =>
          exact (S.orNil (ihE frame) initializer).bind fun value =>
            .current ((S.bindDeclared frame name value false).bind fun _ => .pure none)
      | constDecl name initializer =>
          exact (S.orNil (ihE frame) initializer).bind fun value =>
            .current ((S.bindDeclared frame name value true).bind fun _ => .pure none)
      | exprStmt expression => exact (ihE frame expression).bind fun _ => .pure none
      | ifStmt condition thenBranch elseBranch =>
          refine (ihE frame condition).bind fun value => ?_
          split
          · exact ihS frame thenBranch
          · cases elseBranch with
            | none => exact .pure none
            | some other => exact ihS frame other
      | printStmt expression =>
          exact (ihE frame expression).bind fun value => (Tracks.perform _).bind fun _ => .pure none
      | returnStmt keyword value => exact (S.orNil (ihE frame) value).map some
      | whileStmt condition body =>
          exact S.repeating (ihE frame condition) (ihS frame body) rounds

end

end ActiveRun
end Lox
