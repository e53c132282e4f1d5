import Lox.Tree.Basic
import Lox.Tree.Parse.Fault

/-!
# Parsers

A parser works on the tokens that lie ahead and on the errors reported so far.  It can report an
error and go on, or give up: `failed` is caught by the declaration around it, which discards
tokens up to the next statement, and `tooDeep` ends the whole parse.

A parser that repeats a step is bounded by the tokens ahead of it at its beginning: every step that
does not give up takes at least one token, so there are at least as many tokens as steps.  The list
of these tokens itself is the bound.
-/

namespace Lox

/-- Why a parser gives up. -/
inductive Abort
  /-- An error has been reported. -/
  | failed
  /-- The nesting has used up its allowance. -/
  | tooDeep
  deriving DecidableEq, Repr

structure ParseState where
  ahead : List Token
  /-- The errors reported so far, the latest first. -/
  errors : List ParseError
  deriving DecidableEq, Repr

abbrev Parser := EStateM Abort ParseState

namespace Parser

variable {α : Type}

/-- The next token, which stays ahead. -/
def peek : Parser (Option Token) :=
  fun s => .ok s.ahead.head? s

/-- The next token is of one of the kinds. -/
def check (kinds : List TokenKind) : Parser Bool :=
  fun s => .ok (s.ahead.head?.any fun t => kinds.contains t.kind) s

/-- No token is ahead. -/
def atEnd : Parser Bool :=
  fun s => .ok s.ahead.isEmpty s

/-- Passes over the next token. -/
def advance : Parser Unit :=
  fun s => .ok () { s with ahead := s.ahead.tail }

/-- Takes the next token if it is of one of the kinds. -/
def accept (kinds : List TokenKind) : Parser (Option Token) :=
  fun s =>
    match s.ahead with
    | [] => .ok none s
    | t :: rest =>
        if kinds.contains t.kind then .ok (some t) { s with ahead := rest } else .ok none s

/-- Reports a fault and goes on. -/
def report (fault : ParseFault) (found : Option Token) : Parser Unit :=
  fun s => .ok () { s with errors := ⟨fault, found⟩ :: s.errors }

/-- Reports that something is missing at the next token, and gives up. -/
def fail (missing : Expectation) : Parser α :=
  fun s =>
    .error .failed { s with errors := ⟨.expected missing, s.ahead.head?⟩ :: s.errors }

/-- Gives up because the nesting is too deep. -/
def tooDeep : Parser α :=
  fun s => .error .tooDeep s

/-- Takes a token of the given kind, or fails. -/
def expect (kind : TokenKind) (missing : Expectation) : Parser Token := do
  match ← accept [kind] with
  | some t => pure t
  | none => fail missing

/-- Runs a parser with the tokens ahead as its bound. -/
def bounded (parser : List Token → Parser α) : Parser α :=
  fun s => parser s.ahead s

/-- Runs an item again and again up to a closing token or the end, and keeps what it yields. -/
def collectUpTo
    (closing : List TokenKind)
    (item : Parser (Option α)) :
    List Token → List α → Parser (List α)
  | [], found => pure found.reverse
  | _ :: bound, found => do
      if (← atEnd) || (← check closing) then
        pure found.reverse
      else
        match ← item with
        | some x => collectUpTo closing item bound (x :: found)
        | none => collectUpTo closing item bound found

/-- The items up to a closing token or the end. -/
def upTo (closing : List TokenKind) (item : Parser (Option α)) : Parser (List α) :=
  bounded fun bound => collectUpTo closing item bound []

/-- Takes items as long as commas follow; each beyond the allowed number is reported and kept. -/
def collectSeparated
    (excess : ParseFault)
    (item : Parser α) :
    List Token → Nat → List α → Parser (List α)
  | [], _, found => pure found.reverse
  | _ :: bound, count, found => do
      match ← accept [.comma] with
      | none => pure found.reverse
      | some _ => do
          if mostArguments ≤ count then
            report excess (← peek)
          let x ← item
          collectSeparated excess item bound (count + 1) (x :: found)

/-- The items between two parentheses, of which the opening one is already taken. -/
def inParentheses (excess : ParseFault) (item : Parser α) : Parser (List α) := do
  if ← check [.rightParen] then
    pure []
  else
    let first ← item
    bounded fun bound => collectSeparated excess item bound 1 [first]

/-- The words that start a declaration or a statement. -/
def statementStarts : List TokenKind :=
  [.classWord, .funWord, .varWord, .forWord, .ifWord, .whileWord, .printWord, .returnWord,
    .constWord]

/-- What is left after passing over tokens up to the next statement. -/
def resume (last : TokenKind) : List Token → List Token
  | [] => []
  | t :: rest =>
      if last == .semicolon || statementStarts.contains t.kind then
        t :: rest
      else
        resume t.kind rest

/--
What is left after an error: the next token is discarded in any case, and then all tokens up to
the end of a statement or the start of another.
-/
def synchronize : List Token → List Token
  | [] => []
  | t :: rest => resume t.kind rest

/-- Parses a statement; after an error there is none, and parsing goes on with the next one. -/
def recovering (statement : Parser Stmt) : Parser (Option Stmt) :=
  fun s =>
    match statement s with
    | .ok result s => .ok (some result) s
    | .error .failed s => .ok none { s with ahead := synchronize s.ahead }
    | .error .tooDeep s => .error .tooDeep s

end Parser
end Lox
