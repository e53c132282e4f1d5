import Lox.Diagnostic
import Lox.Token.Segment

/-!
# Scanning

The tokens and the errors of a text are two views of its segments.  A stray character and a string
that is never closed are errors; scanning goes on after them.
-/

namespace Lox

inductive ScanFault
  | strayCharacter
  | unclosedString
  deriving DecidableEq, Repr

structure ScanError where
  fault : ScanFault
  line : Int
  deriving DecidableEq, Repr

def ScanFault.message : ScanFault → String
  | .strayCharacter => "Unexpected character."
  | .unclosedString => "Unterminated string."

def ScanError.diagnostic (e : ScanError) : Diagnostic :=
  ⟨e.line, .unspecified, e.fault.message⟩

/-- The error that a segment is, if it is one. -/
def Segment.error? (s : Segment) : Option ScanError :=
  match s.kind with
  | .stray => some ⟨.strayCharacter, s.line⟩
  | .unclosed => some ⟨.unclosedString, s.line⟩
  | _ => none

/-- What scanning finds: tokens, errors, and the line on which the text ends. -/
structure Scan where
  tokens : List Token
  errors : List ScanError
  endLine : Int
  deriving DecidableEq, Repr

/-- Scans a list of characters. -/
def Scan.ofList (text : List Char) : Scan :=
  let segments := Segment.split text
  { tokens := segments.filterMap Segment.token?
    errors := segments.filterMap Segment.error?
    endLine := 1 + text.count '\n' }

/-- Scans a text. -/
def scan (source : String) : Scan :=
  Scan.ofList source.toList

end Lox
