import Lox.Text.Blank

/-!
# Commands of the prompt

A line that starts with a slash is a command.  It consists of a name and an argument, separated by
white space.
-/

namespace Lox

inductive Command
  | clear
  | tracing
  | reset
  deriving DecidableEq, Repr

namespace Command

/-- The commands in the order in which they are offered. -/
def all : List Command := [.clear, .tracing, .reset]

def name : Command → String
  | .clear => "/clear"
  | .tracing => "/py-traceback"
  | .reset => "/reset"

def description : Command → String
  | .clear => "Clear the terminal screen"
  | .tracing => "Toggle Python traceback on runtime errors"
  | .reset => "Reset the global environment"

/-- The command with a name. -/
def ofName? (name : String) : Option Command :=
  all.find? (·.name == name)

/-- The commands whose names begin with the text before the cursor, once that has a slash. -/
def completions (before : String) : List Command :=
  if before.toList.head? == some '/' then
    all.filter fun command => before.toList.isPrefixOf command.name.toList
  else
    []

/-- The name and the argument of a line that is a command. -/
def split? (line : List Char) : Option (String × String) :=
  let text := Text.trim line
  if text.head? == some '/' then
    let word := Text.firstWord text
    some (String.ofList word.1, String.ofList word.2)
  else
    none

end Command

/-- What an argument asks of a switch. -/
inductive SwitchRequest
  | on
  | off
  | toggle
  deriving DecidableEq, Repr

namespace SwitchRequest

/-- The words that turn a switch on. -/
def wordsForOn : List String := ["on", "1", "true", "yes"]

/-- The words that turn a switch off. -/
def wordsForOff : List String := ["off", "0", "false", "no"]

/-- The request of an argument in any case; no argument changes the switch over. -/
def ofArgument? (argument : String) : Option SwitchRequest :=
  let word := String.ofList (argument.toList.map Char.toLower)
  if wordsForOn.contains word then some .on
  else if wordsForOff.contains word then some .off
  else if word == "" then some .toggle
  else none

/-- The position of a switch after a request. -/
def apply (position : Bool) : SwitchRequest → Bool
  | .on => true
  | .off => false
  | .toggle => !position

/-- A setting turns a switch on if it is one of the words for that, in any case. -/
def isOn (setting : String) : Bool :=
  ofArgument? setting == some .on

end SwitchRequest
end Lox
