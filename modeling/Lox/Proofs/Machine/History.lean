import Lox.Proofs.Machine.Simulation
import Lox.Session.Basic
import Mathlib

/-!
# Histories of runs

A run is followed by executing the same code in a monad that writes down what the code is about to
do, together with the machine at that time.  Such a recording yields the result of the run itself
and the moments of the run in their order.

**Results.**
* `Recorded.simulation`: a recording does what the run proper does.
* `recorded_evaluate`, `recorded_execute`: leaving out what was written down gives the run proper.
* `Session.historyOf`: the moments of all runs of a session, one submitted text after the other.
-/

namespace Lox

/-- A moment of a run: what the code is about to do, and the machine before that. -/
structure Moment where
  machine : Machine
  act : Act

/-- Moments in the order of their time. -/
abbrev History := List Moment

/-- A run that writes down its moments. -/
def Recorded (α : Type) : Type :=
  Machine → History × EStateM.Result Interrupt Machine α

namespace Recorded

variable {α β : Type}

/-- Goes on after a result with the code that it is given to. -/
def andThen (x : Recorded α) (f : α → Recorded β) : Recorded β :=
  fun m =>
    match (x m).2 with
    | .ok a m' => ((x m).1 ++ (f a m').1, (f a m').2)
    | .error interrupt m' => ((x m).1, .error interrupt m')

instance : Monad Recorded where
  pure a := fun m => ([], .ok a m)
  bind := andThen

instance : Watch Recorded where
  perform x := fun m => ([], x m)
  note act := fun m => ([⟨m, act⟩], .ok () m)

/-- The run proper of a recording. -/
def run (x : Recorded α) : Run α :=
  fun m => (x m).2

/-- The machine that a recording leaves, however it ends. -/
def final (x : Recorded α) (m : Machine) : Machine :=
  match (x m).2 with
  | .ok _ m' => m'
  | .error _ m' => m'

@[simp] theorem run_bind
    (x : Recorded α)
    (f : α → Recorded β) :
    (x >>= f).run = x.run >>= fun a => (f a).run := by
  funext m
  simp only [run, bind, andThen, EStateM.bind]
  cases (x m).2 <;> rfl

@[simp] theorem run_map
    (f : α → β)
    (x : Recorded α) :
    (f <$> x).run = f <$> x.run :=
  run_bind x (fun a => pure (f a))

/-- A recording does what the run proper does. -/
def simulation : Simulation Recorded Run where
  rel x y := x.run = y
  pure _ := rfl
  bind := fun {_ _ x _ f _} hx hf => by
    subst hx
    exact (run_bind x f).trans (congrArg _ (funext hf))
  map := fun {_ _ x _} f hx => by
    subst hx
    exact run_map f x
  perform _ := rfl
  note _ := rfl

end Recorded

@[simp] theorem Run.perform_eq
    {α : Type}
    (x : Run α) :
    (Watch.perform x : Run α) = x :=
  rfl

namespace Code

open Recorded

@[simp] theorem run_untilReturn
    (step : Stmt → Recorded Completion)
    (body : List Stmt) :
    (untilReturn step body).run = untilReturn (fun s => (step s).run) body :=
  simulation.untilReturn (fun _ => rfl) body

@[simp] theorem run_each
    (step : Stmt → Recorded Completion)
    (program : List Stmt) :
    (each step program).run = each (fun s => (step s).run) program :=
  simulation.each (fun _ => rfl) program

@[simp] theorem run_values
    (evaluate : Expr → Recorded Value)
    (es : List Expr) :
    (values evaluate es).run = values (fun e => (evaluate e).run) es :=
  simulation.values (fun _ => rfl) es

@[simp] theorem run_callFunction
    (body : FrameId → List Stmt → Recorded Completion)
    (f : Closure)
    (arguments : List Value) :
    (callFunction body f arguments).run =
      callFunction (fun frame ss => (body frame ss).run) f arguments := by
  refine simulation.callFunction (fun frame => ?_) arguments
  rfl

/-- A recorded evaluation without its moments is the evaluation. -/
theorem recorded_evaluate
    (rounds room : Nat)
    (frame : FrameId)
    (e : Expr) :
    (evaluate rounds room frame e : Recorded Value).run = Run.evaluate rounds room frame e :=
  simulation.evaluate rounds room frame e

/-- A recorded execution without its moments is the execution. -/
theorem recorded_execute
    (rounds room : Nat)
    (frame : FrameId)
    (s : Stmt) :
    (execute rounds room frame s : Recorded Completion).run = Run.execute rounds room frame s :=
  simulation.execute rounds room frame s

end Code

/-- The recording of a program that runs on a machine. -/
def Machine.recordProgram (limits : Limits) (program : List Stmt) : Recorded Unit :=
  Code.each (Code.execute limits.rounds limits.running globalFrame) program

/-- The moments of a program that runs on a machine. -/
def Machine.history (limits : Limits) (program : List Stmt) (m : Machine) : History :=
  (recordProgram limits program { m with printed := #[] }).1

/-- A recorded program without its moments is the run of the program. -/
theorem Machine.runProgram_eq
    (limits : Limits)
    (program : List Stmt)
    (m : Machine) :
    m.runProgram limits program =
      match (recordProgram limits program { m with printed := #[] }).2 with
      | .ok _ m' => (.finished, m')
      | .error interrupt m' => (interrupt.ending, m') := by
  have hrun :
      (recordProgram limits program).run =
        Code.each (Run.execute limits.rounds limits.running globalFrame) program := by
    rw [recordProgram, Code.run_each]
    exact congrArg (Code.each · program)
      (funext (Code.recorded_execute limits.rounds limits.running globalFrame))
  cases hresult : (recordProgram limits program { m with printed := #[] }).2 <;>
    simp only [runProgram, ← hrun, Recorded.run, hresult]

/-- A recorded program leaves the machine that its run leaves. -/
theorem Machine.runProgram_machine
    (limits : Limits)
    (program : List Stmt)
    (m : Machine) :
    (m.runProgram limits program).2 =
      (recordProgram limits program).final { m with printed := #[] } := by
  rw [runProgram_eq, Recorded.final]
  cases (recordProgram limits program { m with printed := #[] }).2 <;> rfl

namespace Session

/-- The moments of the run of a submitted text. -/
def history (limits : Limits) (source : String) (s : Session) : History :=
  match compile limits source with
  | .error _ => []
  | .ok program => s.machine.history limits program

/-- A text that is submitted within some bounds. -/
structure Submission where
  limits : Limits
  source : String

/-- The session after some submissions. -/
def runAll (submissions : List Submission) (s : Session) : Session :=
  submissions.foldl (fun s submission => (s.run submission.limits submission.source).2) s

/-- The moments of all runs of a session. -/
def historyOf : List Submission → Session → History
  | [], _ => []
  | submission :: rest, s =>
      s.history submission.limits submission.source
        ++ historyOf rest (s.run submission.limits submission.source).2

theorem historyOf_append
    (first second : List Submission)
    (s : Session) :
    historyOf (first ++ second) s = historyOf first s ++ historyOf second (runAll first s) := by
  induction first generalizing s with
  | nil => rfl
  | cons x rest ih => simp [historyOf, ih, runAll]

end Session
end Lox
