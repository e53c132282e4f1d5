import Lox.Tree.Parse.Steps

/-!
# Parsing by position

A parser can keep the whole list of tokens, of which the last one stands for the end of the text,
and go through it by position.  It looks at a token by its index, which may lie before the position,
and an index outside of the list stops it.  An error is kept with the index of the token where it
was found.

Loops go on as long as they have to.  They are given fuel, and a loop that has used it up stops the
parser too.

**Main definitions.**
* `Cursor`: the parsers that go by position.
* `Cursor.parse`: the parse of a list of tokens.
-/

namespace Lox

/-- A fault and the index of the token where it was found. -/
structure PlacedError where
  fault : ParseFault
  place : Nat
  deriving DecidableEq, Repr

/-- What is found at the index of an error; the token for the end stands for no token of a text. -/
def PlacedError.located (tokens : List Token) (e : PlacedError) : ParseError :=
  ⟨e.fault, tokens[e.place]?.filter (·.kind != .endOfText)⟩

/-- Why a parser by position stops. -/
inductive CursorAbort
  /-- An error has been reported. -/
  | failed
  /-- The nesting has used up its allowance. -/
  | tooDeep
  /-- An index is not one of the list. -/
  | outside
  /-- A loop has used up its fuel. -/
  | unfinished
  deriving DecidableEq, Repr

structure CursorState where
  position : Nat
  /-- The errors reported so far, the latest first. -/
  errors : List PlacedError
  deriving DecidableEq, Repr

/-- What does not change during a parse. -/
structure CursorInput where
  /-- The tokens with the one for the end. -/
  tokens : List Token
  /-- The fuel of every loop. -/
  fuel : Nat

abbrev Cursor := ReaderT CursorInput (EStateM CursorAbort CursorState)

namespace Cursor

variable {α β : Type}

/-- Stops the parser. -/
def stop (abort : CursorAbort) : Cursor α :=
  fun _ c => .error abort c

/-- The token with an index. -/
def look (index : Int) : Cursor Token :=
  fun input c =>
    if index < 0 then
      .error .outside c
    else
      match input.tokens[index.toNat]? with
      | some t => .ok t c
      | none => .error .outside c

def position : Cursor Nat :=
  fun _ c => .ok c.position c

/-- Goes to the next position. -/
def moveOn : Cursor Unit :=
  fun _ c => .ok () { c with position := c.position + 1 }

/-- Keeps an error. -/
def note (e : PlacedError) : Cursor Unit :=
  fun _ c => .ok () { c with errors := e :: c.errors }

/-- The fuel of a loop. -/
def fuel : Cursor Nat :=
  fun input c => .ok input.fuel c

/-- The token at the position. -/
def peek : Cursor Token := do
  look (← position)

/-- The token before the position. -/
def previous : Cursor Token := do
  look ((← position) - 1 : Int)

def atEnd : Cursor Bool := do
  return (← peek).kind == .endOfText

/-- Moves on by one token, unless the end is reached, and yields the token before the position. -/
def advance : Cursor Token := do
  unless ← atEnd do
    moveOn
  previous

def check (kinds : List TokenKind) : Cursor Bool := do
  if ← atEnd then
    pure false
  else
    return kinds.contains (← peek).kind

def accept (kinds : List TokenKind) : Cursor (Option Token) := do
  if ← check kinds then
    some <$> advance
  else
    pure none

/-- Reports a fault at the token with an index. -/
def report (fault : ParseFault) (place : Nat) : Cursor Unit := do
  let _ ← look place
  note ⟨fault, place⟩

def reportNext (fault : ParseFault) : Cursor Unit := do
  report fault (← position)

def fail (missing : Expectation) : Cursor α := do
  reportNext (.expected missing)
  stop .failed

/-- The index of the token is kept until it is known whether there is a fault. -/
def behind
    (kind : TokenKind)
    (x : Cursor α)
    (use : α → Option β)
    (fault : ParseFault) : Cursor (Option (Option β)) := do
  if ← check [kind] then
    let place ← position
    let _ ← advance
    let a ← x
    match use a with
    | some b => pure (some (some b))
    | none => do
        report fault place
        pure (some none)
  else
    pure none

def collectUpTo (closing : List TokenKind) (item : Cursor (Option α)) :
    Nat → List α → Cursor (List α)
  | 0, _ => stop .unfinished
  | fuel + 1, found => do
      if ← check closing then
        pure found.reverse
      else if ← atEnd then
        pure found.reverse
      else
        match ← item with
        | some x => collectUpTo closing item fuel (x :: found)
        | none => collectUpTo closing item fuel found

def repeatOnto (kinds : List TokenKind) (step : Token → α → Cursor α) : Nat → α → Cursor α
  | 0, _ => stop .unfinished
  | fuel + 1, v => do
      match ← accept kinds with
      | none => pure v
      | some t => do
          let next ← step t v
          repeatOnto kinds step fuel next

instance : Steps Cursor where
  check := check
  accept := accept
  reportNext := reportNext
  fail := fail
  tooDeep := stop .tooDeep
  behind := behind
  upTo closing item := do collectUpTo closing item (← fuel) []
  repeating kinds step v := do repeatOnto kinds step (← fuel) v

/-- Moves on to the end of a statement or to the start of another. -/
def skip : Nat → Cursor Unit
  | 0 => stop .unfinished
  | fuel + 1 => do
      if ← atEnd then
        pure ()
      else if (← previous).kind == .semicolon then
        pure ()
      else if Parser.statementStarts.contains (← peek).kind then
        pure ()
      else
        let _ ← advance
        skip fuel

/-- Moves on after an error; one token is passed over in any case. -/
def synchronize : Cursor Unit := do
  let _ ← advance
  skip (← fuel)

/-- Parses a statement; after an error there is none, and parsing goes on with the next one. -/
def recovering (statement : Cursor Stmt) : Cursor (Option Stmt) :=
  fun input c =>
    match statement input c with
    | .ok result c => .ok (some result) c
    | .error .failed c => (do synchronize; pure none) input c
    | .error abort c => .error abort c

/-- The parse of a list of tokens from its start, with fuel for loops and for nesting. -/
def parse (tokens : List Token) (fuel : Nat) :
    EStateM.Result CursorAbort CursorState (List Stmt) :=
  Steps.program recovering fuel ⟨tokens, fuel⟩ ⟨0, []⟩

end Cursor
end Lox
