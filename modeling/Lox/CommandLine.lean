import Lox.Host.FileTree
import Lox.Prompt.Basic

/-!
# The command line

With the name of a file, the file is run and the exit code tells how that went.  Without a name,
the prompt reads the standard input.
-/

namespace Lox

/-- The codes with which the program ends. -/
inductive ExitCode
  | success
  /-- A check has found a difference. -/
  | mismatch
  | usage
  | dataError
  | noInput
  | softwareError
  deriving DecidableEq, Repr

def ExitCode.number : ExitCode → Nat
  | .success => 0
  | .mismatch => 1
  | .usage => 64
  | .dataError => 65
  | .noInput => 66
  | .softwareError => 70

/-- How the program ends. -/
inductive Exit
  | code (c : ExitCode)
  /-- A file that has to be read holds bytes that are not text. -/
  | undecodable
  /-- A file that has to be read cannot be read. -/
  | unreadable (path : String) (fault : PathFault)
  /-- A path holds the character zero. -/
  | malformedPath
  deriving DecidableEq, Repr

structure CommandResult where
  reply : Reply
  exit : Exit
  deriving DecidableEq, Repr

namespace CommandLine

def usage : String := "Usage: lox-ref [script]"

/-- The result of too many arguments. -/
def usageResult : CommandResult := ⟨.said usage, .code .usage⟩

/-- The exit code after a text has been run. -/
def exitCode : Outcome → ExitCode
  | .rejected _ => .dataError
  | .ran _ (.failed _) => .softwareError
  | .ran _ _ => .success

/-- The report that a file cannot be read. -/
def unreadable (path : String) (reason : String) : CommandResult :=
  ⟨.complained ("Could not read '" ++ path ++ "': " ++ reason), .code .noInput⟩

/-- Runs a text in a session of its own. -/
def runText (limits : Limits) (tracing : Bool) (clock : List Float) (source : String) :
    CommandResult :=
  let outcome := ((Session.start clock).run limits source).1
  ⟨outcome.reply tracing, .code (exitCode outcome)⟩

/-- Runs a file. -/
def runFile
    (limits : Limits) (tracing : Bool) (clock : List Float) (path : String)
    (reading : FileReading) : CommandResult :=
  match reading with
  | .text source => runText limits tracing clock source
  | .unreadable fault => unreadable path fault.message
  | .undecodable => ⟨.nothing, .undecodable⟩
  | .malformedPath => ⟨.nothing, .malformedPath⟩

/-- A reply as it looks after the sign of the prompt. -/
def signed (reply : Reply) : Reply :=
  { reply with output := Prompt.sign ++ reply.output }

/-- The prompt on a whole standard input. -/
def runPrompt (limits : Limits) (tracing : Bool) (clock : List Float) (input : String) :
    CommandResult :=
  let lines := (Text.readLines input.toList).map String.ofList
  let dialogue := Prompt.converse limits lines ⟨Session.start clock, tracing⟩
  ⟨(dialogue.replies.map signed).foldl Reply.append .nothing, .code .success⟩

/-- The whole program: arguments, files and standard input. -/
def run
    (limits : Limits) (tracing : Bool) (clock : List Float)
    (arguments : List String) (files : String → FileReading) (input : String) : CommandResult :=
  match arguments with
  | [] => runPrompt limits tracing clock input
  | [path] => runFile limits tracing clock path (files path)
  | _ => usageResult

end CommandLine
end Lox
