import Lox.CommandLine
import Std.Time.DateTime.Timestamp

/-!
# The program

Connects the command line with the files, the streams and the clock of the system.  The clock is
read once for every text that is run.
-/

namespace Lox
namespace Program

/-- The variable of the environment that turns traces on. -/
def tracingVariable : String := "LOX_DEBUG_PY_TRACE"

/-- The reason for which the system refuses a file. -/
def pathFault : IO.Error → PathFault
  | .noFileOrDirectory _ _ _ => .notFound
  | .inappropriateType _ code reason =>
      if code == 20 then .notDirectory
      else if code == 21 then .isDirectory
      else .refused code.toNat reason
  | .invalidArgument _ code reason =>
      if code == 36 then .nameTooLong else .refused code.toNat reason
  | .permissionDenied _ code reason => .refused code.toNat reason
  | e => .refused 5 (toString e)

/-- Reads a file. -/
def readFile (path : String) : IO FileReading := do
  if path.toList.contains '\x00' then
    pure .malformedPath
  else
    try
      let bytes ← IO.FS.readBinFile (FileTree.normalizePath path)
      pure (FileTree.decode bytes)
    catch e =>
      pure (.unreadable (pathFault e))

/-- The seconds since the beginning of the year 1970. -/
def now : IO Float := do
  let time ← Std.Time.Timestamp.now
  pure (Float.ofInt time.toMillisecondsSinceUnixEpoch.val / 1000)

/-- Writes a reply to the two outputs. -/
def write (reply : Reply) : IO Unit := do
  let output ← IO.getStdout
  output.putStr reply.output
  output.flush
  let errors ← IO.getStderr
  errors.putStr reply.errors
  errors.flush

/-- A line without its line feed. -/
def withoutLineFeed (line : String) : String :=
  String.ofList (line.toList.filter (· != '\n'))

/-- Reads and answers lines up to a blank one or to the end. -/
partial def converse (input : IO.FS.Stream) (p : Prompt) : IO Unit := do
  write ⟨Prompt.sign, ""⟩
  let line ← input.getLine
  if line.isEmpty then
    write Prompt.farewell
  else
    let clock ← now
    let p := { p with session.machine.clock := [clock] }
    match p.answer .standard (withoutLineFeed line) with
    | none => pure ()
    | some (reply, next) => do
        write reply
        converse input next

/-- Reports how the program ends. -/
def finish (result : CommandResult) : IO UInt32 := do
  write result.reply
  match result.exit with
  | .code c => pure c.number.toUInt32
  | .undecodable => do
      write (.complained "The file is not valid UTF-8.")
      pure 1
  | .unreadable path fault => do
      write (.complained (fault.report (FileTree.normalizePath path)))
      pure 1
  | .malformedPath => do
      write (.complained malformedPathReport)
      pure 1

/-- The program with its arguments. -/
def start (arguments : List String) : IO UInt32 := do
  let setting ← IO.getEnv tracingVariable
  let tracing := setting.any SwitchRequest.isOn
  let clock ← now
  match arguments with
  | [] => do
      converse (← IO.getStdin) ⟨Session.start [clock], tracing⟩
      pure 0
  | [path] => do
      let reading ← readFile path
      finish (CommandLine.runFile .standard tracing [clock] path reading)
  | _ => finish CommandLine.usageResult

end Program
end Lox

def main (arguments : List String) : IO UInt32 :=
  Lox.Program.start arguments
