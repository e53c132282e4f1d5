import Lox.Grammar.CrossCheck
import Lox.Main
import Lox.Prompt.Highlight
import Lox.Scope.Links
import Lox.Proofs.Session.Constants
import Lox.Proofs.Session.Failures
import Lox.Proofs.Session.Inheritance
import Lox.Proofs.Grammar.Builds
import Lox.Proofs.Grammar.Complete
import Lox.Proofs.Grammar.Sound
import Lox.Machine.Lookup
import Lox.Proofs.Grammar.ShiftReduce
import Lox.Proofs.Machine.Relabel
import Lox.Proofs.Scope.Relabel
import Lox.Proofs.Session.Joined
import Lox.Machine.Active
import Lox.Proofs.CommandLine
import Lox.Proofs.Grammar.Agreement
import Lox.Proofs.Machine.Active
import Lox.Proofs.Machine.Discipline
import Lox.Proofs.Machine.Rename
import Lox.Proofs.Prompt.Comments
import Lox.Proofs.Prompt.Programs
import Lox.Proofs.Scope.Locals
import Lox.Proofs.Scope.Tables
import Lox.Proofs.Session.Discipline
import Lox.Proofs.Session.Rejected
import Lox.Proofs.Session.Rename
import Lox.Proofs.Scope.WellScoped
import Lox.Proofs.Grammar.FirstError
import Lox.Proofs.Tree.Recovery
import Lox.Proofs.Token.Account
import Lox.Proofs.Token.Reader
import Lox.Proofs.Token.Spacing
import Lox.Proofs.Tree.Readable
import Lox.Proofs.Session.ForLoop
import Lox.Proofs.Prompt.Highlight
import Lox.Proofs.Scope.Findings
import Lox.Proofs.Session.Return
import Lox.Proofs.Machine.Forest
import Lox.Proofs.Prompt.Reset
import Lox.Proofs.Session.ClassGraph
