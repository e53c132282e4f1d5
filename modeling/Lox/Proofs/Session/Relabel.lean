import Lox.Proofs.Machine.Relabel
import Lox.Proofs.Session.Course

/-!
# Relabeled sessions

The run of a whole program is what its statements, one after the other, lead to.  A relabeled
program on a relabeled machine ends as the program does, on another line if it fails.

**Main definitions.**
* `Machine.stopped`: the run that code leads to.
* `Machine.shownGlobals`: the globals as they are shown.
* `Session.runCompiled`, `Session.runOn`: the run of a program, and that of a text on other lines.

**Results.**
* `Machine.stopped_relabel`: what relabeled code leads to.
* `Session.runCompiled_relabel`, `Session.runOn_relabel`: relabeled programs in relabeled sessions.
-/

namespace Lox

/-- The ending of a run with its line changed, if it has one. -/
def Ending.relabel (c : Relabeling) : Ending → Ending
  | .failed e => .failed (e.relabel c)
  | other => other

/--
The globals as they are shown: their names, the texts of their values, and which are constant.
-/
def Machine.shownGlobals (m : Machine) : List (String × String × Bool) :=
  m.globals.map fun slot => (slot.name, slot.value.text, slot.constant)

@[simp] theorem Machine.shownGlobals_relabel (c : Relabeling) (m : Machine) :
    (m.relabel c).shownGlobals = m.shownGlobals := by
  have hframe : (m.relabel c).store.frame? globalFrame =
      (m.store.frame? globalFrame).map (Frame.relabel c) := m.store.frame?_relabel c globalFrame
  simp only [shownGlobals, globals, hframe]
  cases m.store.frame? globalFrame with
  | none => rfl
  | some frame => simp [Frame.relabel, Slot.relabel, Function.comp_def]

@[simp] theorem Machine.shownGlobals_after (before : Array String) (m : Machine) :
    (m.after before).shownGlobals = m.shownGlobals :=
  rfl

/-- A run from a machine on which a program has stopped. -/
def Machine.stopped : EStateM.Result Interrupt Machine Unit → Ending × Machine
  | .ok _ m => (.finished, m)
  | .error interrupt m => (interrupt.ending, m)

theorem Machine.runProgram_eq_stopped (limits : Limits) (program : List Stmt) (m : Machine) :
    m.runProgram limits program =
      stopped (Code.each (Run.execute limits.rounds limits.running globalFrame) program
        { m with printed := #[] }) := by
  unfold runProgram
  dsimp only
  cases Code.each (Run.execute limits.rounds limits.running globalFrame) program
      { m with printed := #[] } <;> rfl

theorem Machine.stopped_relabel
    (c : Relabeling)
    (before : Array String)
    (result : EStateM.Result Interrupt Machine Unit) :
    stopped (relabelResult c before id result) =
      ((stopped result).1.relabel c, ((stopped result).2.relabel c).after before) := by
  rcases result with _ | ⟨_ | _ | _, _⟩ <;> rfl

/-- An outcome with its line changed, if it has one. -/
def Outcome.relabel (c : Relabeling) : Outcome → Outcome
  | .ran printed ending => .ran printed (ending.relabel c)
  | .rejected diagnostics => .rejected diagnostics

/-- A report with other lines of its runtime errors. -/
def Report.relabel (c : Relabeling) (r : Report) : Report :=
  { r with runtimeErrors := r.runtimeErrors.map (RuntimeError.relabel c) }

theorem Outcome.report_relabel (c : Relabeling) (outcome : Outcome) :
    (outcome.relabel c).report = outcome.report.relabel c := by
  rcases outcome with _ | ⟨_, _ | _ | _⟩ <;> rfl

namespace Session

/-- A session with all its code changed. -/
def relabel (c : Relabeling) (s : Session) : Session :=
  ⟨s.machine.relabel c⟩

theorem relabel_relabel (c d : Relabeling) (s : Session) :
    (s.relabel d).relabel c = s.relabel (c.comp d) :=
  congrArg Session.mk (s.machine.relabel_relabel c d)

theorem relabel_none (s : Session) : s.relabel .none = s :=
  congrArg Session.mk s.machine.relabel_none

/-- At the beginning there is no code to be changed. -/
theorem relabel_start (c : Relabeling) (clock : List Float) :
    (start clock).relabel c = start clock := by
  have hempty : Store.empty.relabel c = Store.empty := congrArg Store.mk Array.map_empty
  have hstore : Store.initial.relabel c = Store.initial := by
    rw [Store.initial, ← Store.define_relabel, ← Store.define_relabel, ← Store.define_relabel,
      ← Store.extend_relabel, hempty]
    rfl
  simp only [relabel, start, Machine.relabel, Machine.initial, hstore, List.map_toArray,
    List.map_nil]

/-- Submits a program that has been compiled. -/
def runCompiled
    (limits : Limits)
    (program : List Stmt)
    (s : Session) : Outcome × Session :=
  let result := s.machine.runProgram limits program
  (.ran result.2.printed.toList result.1, ⟨result.2⟩)

/-- Submits a text, and puts its program on other lines. -/
def runOn
    (c : Relabeling)
    (limits : Limits)
    (source : String)
    (s : Session) : Outcome × Session :=
  match compile limits source with
  | .error diagnostics => (.rejected diagnostics, s)
  | .ok program => s.runCompiled limits (Stmt.relabelAll c program)

/-- The session after some submissions, with their programs on other lines. -/
def runAllOn (c : Relabeling) (submissions : List Submission) (s : Session) : Session :=
  submissions.foldl (fun s x => (s.runOn c x.limits x.source).2) s

/-- The reports on some submissions on other lines, and the globals after each of them. -/
def stepsOn (c : Relabeling) :
    List Submission → Session → List (Report × List (String × String × Bool))
  | [], _ => []
  | x :: rest, s =>
      let result := s.runOn c x.limits x.source
      (result.1.report, result.2.machine.shownGlobals) :: stepsOn c rest result.2

/-- The lines on which the texts themselves are. -/
theorem runOn_none (limits : Limits) (source : String) (s : Session) :
    s.runOn .none limits source = s.run limits source := by
  unfold runOn run
  cases compile limits source with
  | error diagnostics => rfl
  | ok program =>
      simp only [Stmt.relabelAll_none]
      rfl

/-- A program on other lines does what the program does, on these lines. -/
theorem runCompiled_relabel
    (f : Int → Int)
    (limits : Limits)
    (program : List Stmt)
    (s : Session) :
    (s.relabel (.lines f)).runCompiled limits (Stmt.relabelAll (.lines f) program) =
      ((s.runCompiled limits program).1.relabel (.lines f),
        (s.runCompiled limits program).2.relabel (.lines f)) := by
  have hrun := Code.each_relabels (.lines f)
    (fun st => Run.execute_relabels f limits.rounds limits.running globalFrame st) program #[]
    { s.machine with printed := #[] }
  have hmachine : ({ s.machine with printed := #[] }.relabel (.lines f)).after #[] =
      { (s.machine.relabel (.lines f)) with printed := #[] } := rfl
  have hafter : ∀ m : Machine, m.after #[] = m := by
    intro m
    rw [Machine.after, Array.empty_append]
  rw [hmachine] at hrun
  simp only [runCompiled, Machine.runProgram_eq_stopped, Stmt.relabelAll_eq_map, relabel, hrun,
    Machine.stopped_relabel, hafter]
  rfl

/-- A text on other lines does what the text does, on these lines. -/
theorem runOn_relabel
    (f : Int → Int)
    (d : Relabeling)
    (limits : Limits)
    (source : String)
    (s : Session) :
    (s.relabel (.lines f)).runOn ((Relabeling.lines f).comp d) limits source =
      ((s.runOn d limits source).1.relabel (.lines f),
        (s.runOn d limits source).2.relabel (.lines f)) := by
  unfold runOn
  cases compile limits source with
  | error diagnostics => rfl
  | ok program =>
      have hprogram : Stmt.relabelAll ((Relabeling.lines f).comp d) program =
          Stmt.relabelAll (.lines f) (Stmt.relabelAll d program) :=
        (Stmt.relabelAll_relabelAll _ _ program).symm
      simp only [hprogram]
      exact runCompiled_relabel f limits (Stmt.relabelAll d program) s

theorem runAllOn_relabel
    (f : Int → Int)
    (d : Relabeling)
    (submissions : List Submission)
    (s : Session) :
    runAllOn ((Relabeling.lines f).comp d) submissions (s.relabel (.lines f)) =
      (runAllOn d submissions s).relabel (.lines f) := by
  induction submissions generalizing s with
  | nil => rfl
  | cons x rest ih =>
      simp only [runAllOn, List.foldl_cons, runOn_relabel f d x.limits x.source s] at ih ⊢
      exact ih _

theorem stepsOn_relabel
    (f : Int → Int)
    (d : Relabeling)
    (submissions : List Submission)
    (s : Session) :
    stepsOn ((Relabeling.lines f).comp d) submissions (s.relabel (.lines f)) =
      (stepsOn d submissions s).map fun step => (step.1.relabel (.lines f), step.2) := by
  induction submissions generalizing s with
  | nil => rfl
  | cons x rest ih =>
      simp only [stepsOn, List.map_cons, runOn_relabel f d x.limits x.source s, ih,
        Outcome.report_relabel]
      exact congrArg (List.cons · _) (congrArg (Prod.mk _) (Machine.shownGlobals_relabel _ _))

end Session

end Lox
