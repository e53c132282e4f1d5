import Lox.Prompt.Command
import Lox.Prompt.Reply

/-!
# The prompt

The prompt reads lines one at a time and submits each to one session.  Invisible characters are
removed from a line before anything else.  A line that is then blank ends the prompt, a line that
starts with a slash is a command, and every other line is a program text.
-/

namespace Lox

structure Prompt where
  session : Session
  /-- Runtime errors are reported with a trace. -/
  tracing : Bool

namespace Prompt

/-- What is written before a line is read. -/
def sign : String := "> "

/-- Zero-width characters, the no-break space and the carriage return. -/
def isInvisible (c : Char) : Bool :=
  c == '\u200b' || c == '\u200c' || c == '\u200d' || c == '\ufeff' || c == '\u00a0' || c == '\r'

/-- A line without invisible characters. -/
def normalize (line : String) : List Char :=
  line.toList.filter (!isInvisible ·)

/-- The words for the position of the switch. -/
def tracingText (tracing : Bool) : String :=
  "Python traceback: " ++ if tracing then "on" else "off"

/-- Changes the switch for traces as an argument says. -/
def switchTracing (p : Prompt) (argument : String) : Reply × Prompt :=
  match SwitchRequest.ofArgument? argument with
  | some request =>
      let tracing := request.apply p.tracing
      (.said (tracingText tracing), { p with tracing := tracing })
  | none => (.complained "Usage: /py-traceback [on|off]", p)

/--
Carries out a command.  Clearing the screen writes nothing, because the output is taken to be no
terminal; a terminal would be sent control sequences, which depend on its kind.
-/
def obey (p : Prompt) (name argument : String) : Reply × Prompt :=
  match Command.ofName? name with
  | some .clear => (.nothing, p)
  | some .tracing => p.switchTracing argument
  | some .reset => (.said "Environment reset.", { p with session := p.session.reset })
  | none => (.complained ("Unknown command: " ++ name), p)

/-- Submits a text to the session. -/
def submit (limits : Limits) (p : Prompt) (source : String) : Reply × Prompt :=
  let result := p.session.run limits source
  (result.1.reply p.tracing, { p with session := result.2 })

/-- Answers a line; there is no answer to a blank one. -/
def answer (limits : Limits) (p : Prompt) (line : String) : Option (Reply × Prompt) :=
  let text := normalize line
  if (Text.trim text).isEmpty then
    none
  else
    match Command.split? text with
    | some (name, argument) => some (p.obey name argument)
    | none => some (p.submit limits (String.ofList text))

/-- The reply to the end of the input. -/
def farewell : Reply := .said ""

/-- What the prompt writes after each time it reads, and the lines that it does not read. -/
structure Dialogue where
  replies : List Reply
  unread : List String

/-- Reads lines up to a blank one or to the end; the replies so far are given in reverse. -/
def converseOnto (limits : Limits) (replies : List Reply) : List String → Prompt → Dialogue
  | [], _ => ⟨(farewell :: replies).reverse, []⟩
  | line :: rest, p =>
      match p.answer limits line with
      | none => ⟨(Reply.nothing :: replies).reverse, rest⟩
      | some (reply, next) => converseOnto limits (reply :: replies) rest next

/-- Reads lines up to a blank one or to the end. -/
def converse (limits : Limits) (lines : List String) (p : Prompt) : Dialogue :=
  converseOnto limits [] lines p

end Prompt
end Lox
