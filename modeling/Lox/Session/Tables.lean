import Lox.Machine.Lookup
import Lox.Scope.Tables
import Lox.Session.Basic

/-!
# Sessions with tables of links

A session can keep the links of all its texts in tables, and look them up while programs run.
Resolution writes into these tables directly, before it is known whether a text is accepted: what it
has written for a text that is rejected stays there.

No number is given twice, not even that of a reference in a rejected text.
-/

namespace Lox

/-- Runs a program with its links looked up, on a machine whose printed texts are put aside. -/
def Machine.runProgramBy
    (look : Link → Link) (limits : Limits) (program : List Stmt) (m : Machine) :
    Ending × Machine :=
  let step := Run.executeBy look limits.rounds limits.running globalFrame
  match Code.each step program { m with printed := #[] } with
  | .ok _ m => (.finished, m)
  | .error interrupt m => (interrupt.ending, m)

structure TableSession where
  machine : Machine
  tables : Tables
  /-- The number of the next reference. -/
  next : Nat

namespace TableSession

/-- A session in which nothing has been submitted. -/
def start (clock : List Float) : TableSession :=
  ⟨Machine.initial clock, .empty, 0⟩

/--
Submits a text.  Resolution of a text that is rejected may be given up on the way; `reached` tells
how many references it has come to by then.
-/
def run (reached : List Stmt → Nat) (limits : Limits) (source : String) (s : TableSession) :
    Outcome × TableSession :=
  let found := scan source
  let parse := Parse.within limits.parsing found.tokens
  let next := s.next + Stmt.sizeAll parse.statements
  match readingErrors found parse with
  | [] =>
      let links := resolvedLinks parse.statements
      match errorsWithin (some limits.checking) parse.statements with
      | [] =>
          let tables := s.tables.recordAll s.next links
          let program := Stmt.numberedAll s.next parse.statements
          let result := s.machine.runProgramBy tables.look limits program
          (.ran result.2.printed.toList result.1, ⟨result.2, tables, next⟩)
      | errors =>
          let tables := s.tables.recordAll s.next (links.take (reached parse.statements))
          (.rejected (errors.map (ScopeError.diagnostic found.endLine)), ⟨s.machine, tables, next⟩)
  | reported => (.rejected reported, ⟨s.machine, s.tables, next⟩)

end TableSession
end Lox
