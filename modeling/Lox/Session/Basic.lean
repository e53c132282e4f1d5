import Lox.Machine.Evaluate
import Lox.Session.Compile

/-!
# Sessions

A session submits one text after the other to the same machine.  A text that is rejected does not
reach the machine; any other text leaves its changes behind, also if an error stops it.
-/

namespace Lox

/-- How a run ends. -/
inductive Ending
  | finished
  | failed (e : RuntimeError)
  /-- A link leads farther than there are frames. -/
  | strayed (distance : Nat)
  /-- A loop has used up its rounds. -/
  | unfinished
  deriving DecidableEq, Repr

/-- The ending that an interruption brings about. -/
def Interrupt.ending : Interrupt → Ending
  | .error e => .failed e
  | .shortChain distance => .strayed distance
  | .unfinished => .unfinished

/-- Runs a program on a machine whose printed texts are put aside. -/
def Machine.runProgram (limits : Limits) (program : List Stmt) (m : Machine) : Ending × Machine :=
  let step := Run.execute limits.rounds limits.running globalFrame
  match Code.each step program { m with printed := #[] } with
  | .ok _ m => (.finished, m)
  | .error interrupt m => (interrupt.ending, m)

structure Session where
  machine : Machine

/-- What becomes of a submitted text. -/
inductive Outcome
  | rejected (diagnostics : List Diagnostic)
  | ran (printed : List String) (ending : Ending)
  deriving DecidableEq, Repr

/-- What a run returns. -/
inductive Status
  | ok
  | compileError
  | runtimeError
  deriving DecidableEq, Repr

/-- What a host learns about a submitted text. -/
structure Report where
  /-- A run that does not return has no status. -/
  status : Option Status
  printed : List String
  diagnostics : List Diagnostic
  runtimeErrors : List RuntimeError
  hadError : Bool
  hadRuntimeError : Bool
  deriving DecidableEq, Repr

def Outcome.report : Outcome → Report
  | .rejected diagnostics => ⟨some .compileError, [], diagnostics, [], true, false⟩
  | .ran printed .finished => ⟨some .ok, printed, [], [], false, false⟩
  | .ran printed (.failed e) => ⟨some .runtimeError, printed, [], [e], false, true⟩
  | .ran printed _ => ⟨none, printed, [], [], false, false⟩

namespace Session

/-- A session in which nothing has been submitted. -/
def start (clock : List Float) : Session :=
  ⟨Machine.initial clock⟩

/-- Submits a text. -/
def run (limits : Limits) (source : String) (s : Session) : Outcome × Session :=
  match compile limits source with
  | .error diagnostics => (.rejected diagnostics, s)
  | .ok program =>
      let result := s.machine.runProgram limits program
      (.ran result.2.printed.toList result.1, ⟨result.2⟩)

/-- A session with nothing left but the readings of its clock. -/
def reset (s : Session) : Session :=
  start s.machine.clock

end Session
end Lox
