import Lox.Session.Basic

/-!
# Replies

What is written when a text has been submitted: printed texts go to the standard output, and
everything that is reported goes to the error output.
-/

namespace Lox

/-- Text for the two outputs. -/
structure Reply where
  output : String
  errors : String
  deriving DecidableEq, Repr

namespace Reply

def nothing : Reply := ⟨"", ""⟩

/-- Lines as they are written, each with its end. -/
def lines : List String → String
  | [] => ""
  | line :: rest => line ++ "\n" ++ lines rest

/-- A line on the standard output. -/
def said (line : String) : Reply := ⟨lines [line], ""⟩

/-- A line on the error output. -/
def complained (line : String) : Reply := ⟨"", lines [line]⟩

/-- One reply after another. -/
def append (a b : Reply) : Reply :=
  ⟨a.output ++ b.output, a.errors ++ b.errors⟩

end Reply

/-- The report of a runtime error: the message, and the line if there is one. -/
def RuntimeError.report (e : RuntimeError) : List String :=
  match e.line with
  | some line => [e.fault.message, "[line " ++ toString line ++ "]"]
  | none => [e.fault.message]

/--
What tracing adds to the report of a runtime error: the trace of the host, cut down to the lines
that the error itself determines.  The entries for the calls on the stack of the host are left out,
and so is the error of the host that an exhausted stack was raised from.
-/
def RuntimeError.trace (e : RuntimeError) : List String :=
  ["", "Python traceback:", "Traceback (most recent call last):",
    "lox_ref.types.LoxRuntimeError: " ++ e.text]

/-- The lines that the end of a run adds to the error output. -/
def Ending.report (tracing : Bool) : Ending → List String
  | .failed e => e.report ++ if tracing then e.trace else []
  | _ => []

/-- What is written about a submitted text. -/
def Outcome.reply (tracing : Bool) : Outcome → Reply
  | .rejected diagnostics => ⟨"", Reply.lines (diagnostics.map Diagnostic.text)⟩
  | .ran printed ending => ⟨Reply.lines printed, Reply.lines (ending.report tracing)⟩

end Lox
