import Lox.Scope.Check
import Lox.Scope.Resolve
import Lox.Token.Scan
import Lox.Tree.Parse.Stmt

/-!
# From text to program

A text is scanned and parsed, and both are carried out in full so that all their errors are
reported.  Scopes are checked only for a text without such errors, and a program without errors is
run with its links resolved.  Nothing that runs takes part in this.
-/

namespace Lox

/-- The bounds within which texts are read and programs run. -/
structure Limits where
  /-- The allowance for nesting when a text is parsed. -/
  parsing : Nat
  /-- The room for nested nodes when scopes are checked. -/
  checking : Nat
  /-- The room for nested nodes and calls when a program runs. -/
  running : Nat
  /-- The rounds of a single loop. -/
  rounds : Nat
  deriving DecidableEq, Repr

/--
The bounds in use.  They admit nesting far beyond what people write and stop a program without end
before the memory for calls is used up.
-/
def Limits.standard : Limits where
  parsing := 4000
  checking := 5000
  running := 5000
  rounds := Nat.pow 2 62

/-- The errors of scanning and parsing, in this order. -/
def readingErrors (found : Scan) (parse : Parse) : List Diagnostic :=
  found.errors.map ScanError.diagnostic
    ++ parse.errors.map (ParseError.diagnostic found.endLine)

/-- The program that a text stands for, or what is wrong with the text. -/
def compile (limits : Limits) (source : String) : Except (List Diagnostic) (List Stmt) :=
  let found := scan source
  let parse := Parse.within limits.parsing found.tokens
  match readingErrors found parse with
  | [] =>
      match errorsWithin (some limits.checking) parse.statements with
      | [] => .ok (resolveProgram parse.statements)
      | errors => .error (errors.map (ScopeError.diagnostic found.endLine))
  | reported => .error reported

end Lox
