import Lox.Token.Scan

/-!
# Scanning by position

A scanner can keep the whole text and go through it by position.  Three numbers are its state: where
the lexeme that it reads started, the position of the next character, and the line.  The line moves
on in two places, at a line break between lexemes and at one inside of a string.  Looking ahead past
the end shows the character with the code zero, which a text may hold as well; taking a character
that is not there stops the scanner.

Loops go on as long as they have to.  They are given more fuel than the text has characters, and a
loop that has used it up stops the scanner too.

**Main definitions.**
* `Reader`: the scanners that go by position.
* `Reader.scanToken`: what is done from one character on.
* `Reader.tokenize`: the tokens and the errors of a text.
-/

namespace Lox

/-- A token with the value that it was emitted with. -/
structure ReadToken where
  token : Token
  literal : Literal

/-- Why a scanner by position stops. -/
inductive ReaderAbort
  /-- A character is taken behind the end of the text. -/
  | outside
  /-- A loop has used up its fuel. -/
  | unfinished
  deriving DecidableEq, Repr

structure ReaderState where
  /-- The place of the first character of the lexeme that is read. -/
  start : Nat
  /-- The place of the next character. -/
  position : Nat
  line : Int
  /-- The tokens emitted so far, the latest first. -/
  tokens : List ReadToken
  /-- The errors reported so far, the latest first. -/
  errors : List ScanError

/-- What a scanner by position leaves. -/
structure Reading where
  /-- The tokens with the one for the end. -/
  tokens : List ReadToken
  errors : List ScanError

/-- Scanners by position; the text that they are given does not change. -/
abbrev Reader := ReaderT (List Char) (EStateM ReaderAbort ReaderState)

namespace Reader

variable {α : Type}

/-- Stops the scanner. -/
def stop (abort : ReaderAbort) : Reader α :=
  fun _ s => .error abort s

/-- The character at a place of the text. -/
def look (place : Nat) : Reader Char :=
  fun source s =>
    match source[place]? with
    | some c => .ok c s
    | none => .error .outside s

def position : Reader Nat :=
  fun _ s => .ok s.position s

def atEnd : Reader Bool :=
  fun source s => .ok (decide (source.length ≤ s.position)) s

/-- Looks ahead by a number of characters; past the end there is the character with code zero. -/
def peek (offset : Nat) : Reader Char :=
  fun source s => .ok (source[s.position + offset]?.getD '\x00') s

def moveOn : Reader Unit :=
  fun _ s => .ok () { s with position := s.position + 1 }

/-- Goes to the next line. -/
def breakLine : Reader Unit :=
  fun _ s => .ok () { s with line := s.line + 1 }

/-- A lexeme starts at the position. -/
def begin : Reader Unit :=
  fun _ s => .ok () { s with start := s.position }

/-- Takes the next character. -/
def advance : Reader Char := do
  let c ← look (← position)
  moveOn
  pure c

/-- Takes the next character if it is the expected one. -/
def accept (expected : Char) : Reader Bool := do
  if ← atEnd then
    pure false
  else if (← look (← position)) != expected then
    pure false
  else
    moveOn
    pure true

/-- The text between two places, counted from the start of the lexeme and back from the position. -/
def slice (behindStart beforePosition : Nat) : Reader (List Char) :=
  fun source s =>
    .ok (source.extract (s.start + behindStart) (s.position - beforePosition)) s

def line : Reader Int :=
  fun _ s => .ok s.line s

def keep (t : ReadToken) : Reader Unit :=
  fun _ s => .ok () { s with tokens := t :: s.tokens }

/-- Emits a token for the lexeme. -/
def emit (kind : TokenKind) (literal : Literal) : Reader Unit := do
  let lexeme ← slice 0 0
  keep ⟨⟨kind, String.ofList lexeme, ← line⟩, literal⟩

/-- Reports an error on the line. -/
def report (fault : ScanFault) : Reader Unit :=
  fun _ s => .ok () { s with errors := ⟨fault, s.line⟩ :: s.errors }

/-- Repeats a step as long as a test says so. -/
def loop (test : Reader Bool) (step : Reader Unit) : Nat → Reader Unit
  | 0 => stop .unfinished
  | fuel + 1 => do
      if ← test then
        step
        loop test step fuel

/-- A loop with more fuel than the text has characters. -/
def repeatWhile (test : Reader Bool) (step : Reader Unit) : Reader Unit :=
  fun source => loop test step (source.length + 1) source

/-- Takes a character for its own sake. -/
def pass : Reader Unit := do
  let _ ← advance

/-- Whether the text goes on with another character than `stop`. -/
def before (stop : Char) : Reader Bool := do
  return (← peek 0) != stop && !(← atEnd)

/-- Goes up to the end of the line, or of the text. -/
def skipComment : Reader Unit :=
  repeatWhile (before '\n') pass

/-- Takes a character inside of a string, where line breaks are counted on the way. -/
def passInside : Reader Unit := do
  if (← peek 0) == '\n' then
    breakLine
  pass

/-- Goes on to the closing quote, over any number of lines. -/
def scanString : Reader Unit := do
  repeatWhile (before '"') passInside
  if ← atEnd then
    report .unclosedString
  else
    pass
    emit .string (.string (String.ofList (← slice 1 1)))

/-- Goes on over digits. -/
def skipDigits : Reader Unit :=
  repeatWhile (do return Segment.isDigit (← peek 0)) pass

/-- Whether the text goes on with a point and a digit. -/
def atFraction : Reader Bool := do
  return (← peek 0) == '.' && Segment.isDigit (← peek 1)

/-- Goes on over a point and digits; a point without a digit is left. -/
def skipFraction : Reader Unit := do
  if ← atFraction then
    pass
    skipDigits

/-- Reads a number. -/
def scanNumber : Reader Unit := do
  skipDigits
  skipFraction
  emit .number (.number (Number.ofDecimal (← slice 0 0)))

/-- Reads a name or a reserved word. -/
def scanWord : Reader Unit := do
  repeatWhile (do return Segment.isWordPart (← peek 0)) pass
  emit (.ofWord (String.ofList (← slice 0 0))) .nil

/-- Reads what is neither punctuation nor a comparison, behind its first character. -/
def scanOther (c : Char) : Reader Unit := do
  if c == '/' then
    if ← accept '/' then
      skipComment
    else
      emit .slash .nil
  else if c == ' ' || c == '\r' || c == '\t' then
    pure ()
  else if c == '\n' then
    breakLine
  else if c == '"' then
    scanString
  else if Segment.isDigit c then
    scanNumber
  else if Segment.isLetter c then
    scanWord
  else
    report .strayCharacter

/-- Reads what starts with the next character. -/
def scanToken : Reader Unit := do
  let c ← advance
  match TokenKind.ofPunctuation? c with
  | some kind => emit kind .nil
  | none =>
      match TokenKind.ofComparison? c with
      | some (alone, paired) =>
          if ← accept '=' then
            emit paired .nil
          else
            emit alone .nil
      | none => scanOther c

/-- Emits the token for the end, which has no text. -/
def finish : Reader Unit := do
  keep ⟨⟨.endOfText, "", ← line⟩, .nil⟩

/-- Reads one lexeme, or what stands in place of one. -/
def readNext : Reader Unit := do
  begin
  scanToken

/-- Reads the whole text. -/
def readAll : Reader Unit := do
  repeatWhile (do return !(← atEnd)) readNext
  finish

/-- The tokens and the errors of a text, unless the scanner stops on the way. -/
def tokenize (source : String) : Except ReaderAbort Reading :=
  match readAll source.toList ⟨0, 0, 1, [], []⟩ with
  | .ok _ s => .ok ⟨s.tokens.reverse, s.errors.reverse⟩
  | .error abort _ => .error abort

end Reader
end Lox
