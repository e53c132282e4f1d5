import Lox.CommandLine
import Lox.Grammar.Phrase
import Lox.Grammar.ShiftReduce
import Lox.Grammar.Terminals
import Lox.Tree.Text

/-!
# Checking the parser against the grammar

Two readers of a text are compared: the parser, and the derivation of the text from the grammar.
They agree on a text if both reject it, or if both accept it and their trees have the same text.
-/

namespace Lox
namespace Grammar

/-- The text of the tree that the grammar gives to a source. -/
def derivedText? (source : String) : Option String := do
  let input ← tokens? source.toList
  let derivation ← derivation? input
  let program ← derivation.program?
  pure (programText program)

/-- The text of the tree that the parser gives to a source without errors. -/
def parsedText? (source : String) : Option String :=
  let found := scan source
  let parse := Parse.ofTokens found.tokens
  if found.errors.isEmpty && parse.errors.isEmpty then
    some (programText parse.statements)
  else
    none

/-- The result of a comparison, and what it shows. -/
structure Comparison where
  agree : Bool
  detail : String
  deriving DecidableEq, Repr

/-- Compares the trees of the parser and of a reference. -/
def compareTexts : Option String → Option String → Comparison
  | none, none => ⟨true, "both reject"⟩
  | none, some reference => ⟨false, "rd rejects, lark accepts: " ++ reference⟩
  | some parsed, none => ⟨false, "lark rejects, rd accepts: " ++ parsed⟩
  | some parsed, some reference =>
      if parsed == reference then
        ⟨true, parsed⟩
      else
        ⟨false, "tree mismatch:\n  rd:   " ++ parsed ++ "\n  lark: " ++ reference⟩

/-- Compares the parser with any reader of sources. -/
def checkAgainst (reference : String → Option String) (source : String) : Comparison :=
  compareTexts (parsedText? source) (reference source)

/-- Compares the parser with the grammar. -/
def check (source : String) : Comparison :=
  checkAgainst derivedText? source

/-- A source to be checked. -/
structure Sample where
  name : String
  source : String
  deriving DecidableEq, Repr

/-- The line of a report about one sample. -/
def reportLine (sample : Sample) (result : Comparison) : String :=
  if result.agree then
    "[PASS] " ++ sample.name
  else
    "[FAIL] " ++ sample.name ++ ": " ++ result.detail

/-- The report about samples, and the number of those on which there is no agreement. -/
def report (samples : List Sample) : List String × Nat :=
  let results := samples.map fun s => (s, check s.source)
  let failures := (results.filter fun r => !r.2.agree).length
  let count := toString (samples.length - failures) ++ "/" ++ toString samples.length
  (results.map (fun r => reportLine r.1 r.2) ++ ["", count ++ " cases agree"], failures)

/-- Short programs for every rule, and texts that must be rejected. -/
def samples : List Sample :=
  [⟨"empty", ""⟩,
    ⟨"print-arith", "print 1 + 2 * 3 - 4 / 5;"⟩,
    ⟨"grouping", "print (1 + 2) * 3;"⟩,
    ⟨"unary-chain", "print !!true; print -(-1);"⟩,
    ⟨"comparison", "print 1 < 2 == 3 >= 4;"⟩,
    ⟨"logical", "print nil or false and true;"⟩,
    ⟨"strings", "var s = \"multi\nline\"; print s + \"!\";"⟩,
    ⟨"comments", "// leading\nvar a = 1; // trailing\nprint a;"⟩,
    ⟨"decimal", "print 12.5; print 3;"⟩,
    ⟨"assign-chain", "var a; var b; a = b = 3;"⟩,
    ⟨"const", "const limit = 10; print limit;"⟩,
    ⟨"const-no-init", "const limit;"⟩,
    ⟨"block", "\x7b var a = 1; \x7b print a; \x7d \x7d"⟩,
    ⟨"if-else", "if (a) print 1; else if (b) print 2; else print 3;"⟩,
    ⟨"dangling-else", "if (a) if (b) print 1; else print 2;"⟩,
    ⟨"while", "var i = 0; while (i < 3) i = i + 1;"⟩,
    ⟨"for-full", "for (var i = 0; i < 3; i = i + 1) print i;"⟩,
    ⟨"for-empty", "for (;;) print 1;"⟩,
    ⟨"for-expr-init", "var i; for (i = 0; i < 2;) \x7b print i; i = i + 1; \x7d"⟩,
    ⟨"fun", "fun add(a, b) \x7b return a + b; \x7d print add(1, 2);"⟩,
    ⟨"fun-bare-return", "fun f() \x7b return; \x7d"⟩,
    ⟨"closure",
      "fun make() \x7b var n = 0; fun inc() \x7b n = n + 1; return n; \x7d return inc; \x7d"⟩,
    ⟨"curried-call", "f(1)(2)(3);"⟩,
    ⟨"class",
      "class A \x7b init(x) \x7b this.x = x; \x7d get() \x7b return this.x; \x7d \x7d "
        ++ "print A(1).get();"⟩,
    ⟨"inherit", "class B < A \x7b get() \x7b return super.get() + 1; \x7d \x7d"⟩,
    ⟨"set-chain", "a.b.c = 1;"⟩,
    ⟨"keyword-prefix", "var classy = 1; var orchid = 2; print classy + orchid;"⟩,
    ⟨"invalid-target", "a + b = c;"⟩,
    ⟨"invalid-group-target", "(a) = 1;"⟩,
    ⟨"missing-semicolon", "print 1"⟩,
    ⟨"unterminated-string", "print \"oops;"⟩,
    ⟨"bad-char", "print 1 # 2;"⟩,
    ⟨"super-no-dot", "class B < A \x7b m() \x7b super; \x7d \x7d"⟩,
    ⟨"trailing-comma", "f(1, );"⟩,
    ⟨"keyword-as-name", "var and = 1;"⟩]

/-- Reads the files of a list of paths, up to the first that cannot be read as text. -/
def readSamples (files : String → FileReading) : List String → Except Exit (List Sample)
  | [] => .ok []
  | path :: paths =>
      match files path with
      | .text source => (readSamples files paths).map (⟨path, source⟩ :: ·)
      | .unreadable fault => .error (.unreadable path fault)
      | .undecodable => .error .undecodable
      | .malformedPath => .error .malformedPath

/--
The check as a program: it reads the named files, or takes the samples if none is named.  The first
argument `--` names no file.
-/
def runCheck (arguments : List String) (files : String → FileReading) : CommandResult :=
  let paths := arguments.erase "--"
  let chosen := if paths.isEmpty then .ok samples else readSamples files paths
  match chosen with
  | .error exit => ⟨.nothing, exit⟩
  | .ok chosen =>
      let result := report chosen
      ⟨⟨Reply.lines result.1, ""⟩, .code (if result.2 == 0 then .success else .mismatch)⟩

end Grammar
end Lox
