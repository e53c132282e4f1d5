import Lox.Token.Basic

/-!
# Segments of a text

Scanning splits a text into consecutive segments: tokens, blank characters, comments, stray
characters and possibly a string that is never closed.  Nothing of the text is lost, and every
token is the longest one at its start.

The kind and the extent of a segment are decided by its first character and the text after it
(`Segment.start`); the split repeats this decision on the text behind the segment.  It collects
the segments in reverse, because a text may have any number of them.
-/

namespace Lox

inductive SegmentKind
  | token (kind : TokenKind)
  | blank
  | comment
  /-- A character that starts no token. -/
  | stray
  /-- A string without its closing quote. -/
  | unclosed
  deriving DecidableEq, Repr

structure Segment where
  kind : SegmentKind
  text : List Char
  /-- The line on which the segment ends. -/
  line : Int
  deriving DecidableEq, Repr

namespace Segment

/-- Space, carriage return, tab and line feed separate tokens. -/
def isBlank (c : Char) : Bool :=
  c == ' ' || c == '\r' || c == '\t' || c == '\n'

/-- The ten decimal digits. -/
def isDigit (c : Char) : Bool :=
  decide ('0' ≤ c) && decide (c ≤ '9')

/-- The letters that start a word: those of the Latin alphabet without accents, and `_`. -/
def isLetter (c : Char) : Bool :=
  decide ('a' ≤ c) && decide (c ≤ 'z') || decide ('A' ≤ c) && decide (c ≤ 'Z') || c == '_'

/-- The characters that continue a word. -/
def isWordPart (c : Char) : Bool :=
  isLetter c || isDigit c

/-- How many characters at the start of a text satisfy a test. -/
def countWhile (p : Char → Bool) (text : List Char) : Nat :=
  (text.takeWhile p).length

/-- How many characters after a first digit belong to a number. -/
def numberExtent (rest : List Char) : Nat :=
  let whole := countWhile isDigit rest
  match rest.drop whole with
  | '.' :: fraction =>
      let digits := countWhile isDigit fraction
      if digits == 0 then whole else whole + 1 + digits
  | _ => whole

/-- A string that is closed, or reaches to the end of the text. -/
def stringStart (rest : List Char) : SegmentKind × Nat :=
  let inside := countWhile (· != '"') rest
  if inside < rest.length then (.token .string, inside + 1) else (.unclosed, inside)

/-- A word is as long as it can be. -/
def wordStart (c : Char) (rest : List Char) : SegmentKind × Nat :=
  let extent := countWhile isWordPart rest
  (.token (.ofWord (String.ofList (c :: rest.take extent))), extent)

/-- Two slashes open a comment, which reaches up to the end of the line. -/
def slashStart (rest : List Char) : SegmentKind × Nat :=
  if rest.head? == some '/' then
    (.comment, countWhile (· != '\n') rest)
  else
    (.token .slash, 0)

/--
The kind of the segment at the start of `c :: rest`, and how many characters of `rest` belong to
it.
-/
def start (c : Char) (rest : List Char) : SegmentKind × Nat :=
  match TokenKind.ofPunctuation? c, TokenKind.ofComparison? c with
  | some kind, _ => (.token kind, 0)
  | none, some (alone, paired) =>
      if rest.head? == some '=' then (.token paired, 1) else (.token alone, 0)
  | none, none =>
      if c == '/' then slashStart rest
      else if isBlank c then (.blank, 0)
      else if c == '"' then stringStart rest
      else if isDigit c then (.token .number, numberExtent rest)
      else if isLetter c then wordStart c rest
      else (.stray, 0)

/-- The segments of a text that starts on the given line, after those already found. -/
def splitOnto (found : List Segment) (line : Int) : List Char → List Segment
  | [] => found.reverse
  | c :: rest =>
      let kindAndExtent := start c rest
      let text := c :: rest.take kindAndExtent.2
      let last := line + text.count '\n'
      splitOnto (⟨kindAndExtent.1, text, last⟩ :: found) last (rest.drop kindAndExtent.2)
termination_by text => text.length
decreasing_by
  simp only [List.length_drop, List.length_cons]
  omega

/-- The segments of a text that starts on the given line, in order. -/
def splitFrom (line : Int) (text : List Char) : List Segment :=
  splitOnto [] line text

/-- The segments of a text, in order. -/
def split (text : List Char) : List Segment :=
  splitFrom 1 text

/-- The segment at the start of `c :: rest`, which starts on the given line. -/
def first (line : Int) (c : Char) (rest : List Char) : Segment :=
  let text := c :: rest.take (start c rest).2
  ⟨(start c rest).1, text, line + text.count '\n'⟩

/-- What has been found before the rest is split does not change how it is split. -/
theorem splitOnto_append (found earlier : List Segment) (line : Int) (text : List Char) :
    splitOnto (found ++ earlier) line text = earlier.reverse ++ splitOnto found line text := by
  fun_induction splitOnto found line text with
  | case1 found line => simp [splitOnto]
  | case2 found line c rest kindAndExtent text last ih =>
      rw [splitOnto]
      exact ih

@[simp] theorem splitFrom_nil (line : Int) : splitFrom line [] = [] := by
  simp [splitFrom, splitOnto]

/-- The segments of a text are its first one and those of the text behind that. -/
theorem splitFrom_cons (line : Int) (c : Char) (rest : List Char) :
    splitFrom line (c :: rest) =
      first line c rest :: splitFrom (first line c rest).line (rest.drop (start c rest).2) := by
  rw [splitFrom, splitOnto]
  exact splitOnto_append [] [first line c rest] (first line c rest).line _

/-- The token that a segment is, if it is one. -/
def token? (s : Segment) : Option Token :=
  match s.kind with
  | .token kind => some ⟨kind, String.ofList s.text, s.line⟩
  | _ => none

end Segment
end Lox
