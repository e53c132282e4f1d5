import Lox.Prompt.Basic
import Lox.Session.Tables

/-!
# A prompt with tables of links

The session of a prompt can be one that keeps its links in tables.  Besides the tables, a text
leaves two marks behind: whether it was rejected, and whether an error has stopped it.

A reset puts a new session in the place of the old one.  The clock goes on, and so do the numbers of
references; everything else begins anew.
-/

namespace Lox

structure TablePrompt where
  session : TableSession
  /-- The last text was rejected. -/
  hadError : Bool
  /-- An error has stopped the last text. -/
  hadRuntimeError : Bool
  /-- Runtime errors are reported with a trace. -/
  tracing : Bool

namespace TablePrompt

/-- A prompt that has read nothing. -/
def start (clock : List Float) (tracing : Bool) : TablePrompt where
  session := .start clock
  hadError := false
  hadRuntimeError := false
  tracing := tracing

/-- A new session in the place of the old one. -/
def reset (p : TablePrompt) : TablePrompt where
  session := { TableSession.start p.session.machine.clock with next := p.session.next }
  hadError := false
  hadRuntimeError := false
  tracing := p.tracing

/-- Changes the switch for traces as an argument says; the session takes no part in this. -/
def switchTracing (p : TablePrompt) (argument : String) : Reply × TablePrompt :=
  let result := Prompt.switchTracing ⟨Session.start [], p.tracing⟩ argument
  (result.1, { p with tracing := result.2.tracing })

/-- Carries out a command; clearing the screen writes nothing where the output is no terminal. -/
def obey (p : TablePrompt) (name argument : String) : Reply × TablePrompt :=
  match Command.ofName? name with
  | some .clear => (.nothing, p)
  | some .tracing => p.switchTracing argument
  | some .reset => (.said "Environment reset.", p.reset)
  | none => (.complained ("Unknown command: " ++ name), p)

/-- Submits a text to the session, which leaves its marks. -/
def submit (reached : List Stmt → Nat) (limits : Limits) (p : TablePrompt) (source : String) :
    Reply × TablePrompt :=
  let result := p.session.run reached limits source
  let report := result.1.report
  (result.1.reply p.tracing, ⟨result.2, report.hadError, report.hadRuntimeError, p.tracing⟩)

/-- Answers a line; there is no answer to a blank one. -/
def answer (reached : List Stmt → Nat) (limits : Limits) (p : TablePrompt) (line : String) :
    Option (Reply × TablePrompt) :=
  let text := Prompt.normalize line
  if (Text.trim text).isEmpty then
    none
  else
    match Command.split? text with
    | some (name, argument) => some (p.obey name argument)
    | none => some (p.submit reached limits (String.ofList text))

/-- Reads lines up to a blank one or to the end. -/
def converse (reached : List Stmt → Nat) (limits : Limits) :
    List String → TablePrompt → Prompt.Dialogue
  | [], _ => ⟨[Prompt.farewell], []⟩
  | line :: rest, p =>
      match p.answer reached limits line with
      | none => ⟨[.nothing], rest⟩
      | some (reply, next) =>
          let dialogue := converse reached limits rest next
          ⟨reply :: dialogue.replies, dialogue.unread⟩

/-- The prompt after it has read lines up to a blank one or to the end. -/
def leftBy (reached : List Stmt → Nat) (limits : Limits) :
    List String → TablePrompt → TablePrompt
  | [], p => p
  | line :: rest, p =>
      match p.answer reached limits line with
      | none => p
      | some (_, next) => leftBy reached limits rest next

end TablePrompt
end Lox
