import Lox.Token.Basic

/-!
# Diagnostics

What is reported about a text that is not run: a line, the place in it and a message.
-/

namespace Lox

/-- The place of a diagnostic within its line. -/
inductive Place
  /-- No token is at fault. -/
  | unspecified
  | token (t : Token)
  | endOfText
  deriving DecidableEq, Repr

structure Diagnostic where
  line : Int
  place : Place
  message : String
  deriving DecidableEq, Repr

/-- The place of a token. -/
def Place.ofToken (t : Token) : Place :=
  if t.kind == .endOfText then .endOfText else .token t

/-- A diagnostic at a token, or at the end of the text if there is no token. -/
def Diagnostic.located (endLine : Int) (message : String) : Option Token → Diagnostic
  | some t => ⟨t.line, .ofToken t, message⟩
  | none => ⟨endLine, .endOfText, message⟩

/-- The words that name the place. -/
def Place.text : Place → String
  | .unspecified => ""
  | .token t => " at '" ++ t.lexeme ++ "'"
  | .endOfText => " at end"

/-- The line in which a diagnostic is shown. -/
def Diagnostic.text (d : Diagnostic) : String :=
  "[line " ++ toString d.line ++ "] Error" ++ d.place.text ++ ": " ++ d.message

end Lox
